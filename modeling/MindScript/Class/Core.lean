import MindScript.Class.Registry

/-!
# The core classes

The classes that every interpreter starts with, in order of registration.  `Object` comes first and is
therefore the root.  Their members are ordinary native members, which user classes may override.
-/

namespace MindScript.CoreClass

def method (name : String) (params : List String) (code : CoreMethod) : MemberDecl :=
  .nativeMethod name params (.core code)

def coroutine (name : String) (params : List String) (code : CoreCoroutine) : MemberDecl :=
  .nativeCoroutine name params (.core code)

def objectMembers : List MemberDecl := [
  method "equals" ["other"] (.identical true),
  method "not_equals" ["other"] (.identical false),
  method "to_string" [] .describe,
  method "class_name" [] .className,
  method "class" [] .classOf,
  method "is_nil" [] (.isNil false),
  coroutine "_wait" ["seconds"] .wait,
  coroutine "_wait_until" ["condition"] .waitUntil,
  coroutine "_wait_event" ["event"] .waitEvent,
  coroutine "_wait_for" ["coroutine"] .waitFor]

def noneMembers : List MemberDecl := [
  method "is_nil" [] (.isNil true),
  method "to_string" [] .nilText]

def booleanMembers : List MemberDecl := [
  method "equals" ["other"] (.equalBooleans true),
  method "not_equals" ["other"] (.equalBooleans false),
  method "not" [] .booleanNot,
  method "to_string" [] .booleanText]

/-- What Integers and Reals have in common. -/
def numberMembers : List MemberDecl := [
  method "add" ["other"] (.arithmetic .add),
  method "subtract" ["other"] (.arithmetic .sub),
  method "multiply" ["other"] (.arithmetic .mul),
  method "divide" ["other"] (.arithmetic .div),
  method "remainder" ["other"] (.arithmetic .rem),
  method "equals" ["other"] (.equalNumbers true),
  method "not_equals" ["other"] (.equalNumbers false),
  method "less" ["other"] (.compareNumbers .less),
  method "less_or_equal" ["other"] (.compareNumbers .lessOrEqual),
  method "greater" ["other"] (.compareNumbers .greater),
  method "greater_or_equal" ["other"] (.compareNumbers .greaterOrEqual),
  method "min" ["other"] .lesser,
  method "max" ["other"] .greater]

def integerMembers : List MemberDecl := numberMembers ++ [
  method "negated" [] .integerNegated,
  method "abs" [] .integerAbs,
  method "to_string" [] .integerText,
  method "to_integer" [] .integerSelf,
  method "to_real" [] .integerToReal]

def realMembers : List MemberDecl := numberMembers ++ [
  method "negated" [] .realNegated,
  method "abs" [] .realAbs,
  method "to_string" [] .realText,
  method "to_real" [] .realSelf,
  method "to_integer" [] .realToInteger]

def stringMembers : List MemberDecl := [
  method "add" ["other"] .textJoin,
  method "length" [] .textLength,
  method "is_empty" [] .textIsEmpty,
  method "equals" ["other"] (.equalTexts true),
  method "not_equals" ["other"] (.equalTexts false),
  method "less" ["other"] .textLess,
  method "greater" ["other"] .textGreater,
  method "to_string" [] .textSelf,
  method "to_symbol" [] .textToSymbol]

def symbolMembers : List MemberDecl := [
  method "equals" ["other"] (.equalSymbols true),
  method "not_equals" ["other"] (.equalSymbols false),
  method "to_string" [] .symbolText]

def listMembers : List MemberDecl := [
  method "length" [] .listLength,
  method "is_empty" [] .listIsEmpty,
  method "at" ["index"] .listAt,
  method "set_at" ["index", "item"] .listSetAt,
  method "append" ["item"] .listAppend,
  method "insert" ["index", "item"] .listInsert,
  method "remove_at" ["index"] .listRemoveAt,
  method "clear" [] .listClear,
  method "first" [] .listFirst,
  method "last" [] .listLast,
  method "each" ["visit"] .listEach,
  coroutine "_each" ["visit"] .each]

def closureMembers : List MemberDecl := [
  method "is_coroutine" [] .closureIsCoroutine]

def classMembers : List MemberDecl := [
  method "name" [] .classText,
  method "to_string" [] .classText,
  method "is_subclass" ["other"] .classIsSubclass,
  method "equals" ["other"] .equalClasses]

def handleMembers : List MemberDecl := [
  method "is_finished" [] .handleIsFinished,
  method "is_completed" [] .handleIsCompleted,
  method "is_running" [] .handleIsRunning,
  method "status" [] .handleStatus,
  method "result" [] .handleResult,
  method "error" [] .handleError,
  method "stop" [] .handleStop]

/-- A core class below the root. -/
def derived (name : String) (members : List MemberDecl) : ClassDecl :=
  { name, supertypes := ["Object"], members }

/-- All core classes in order of registration. -/
def all : List ClassDecl := [
  { name := "Object", members := objectMembers },
  derived "None" noneMembers,
  derived "Boolean" booleanMembers,
  derived "Integer" integerMembers,
  derived "Real" realMembers,
  derived "String" stringMembers,
  derived "Symbol" symbolMembers,
  derived "List" listMembers,
  derived "Closure" closureMembers,
  derived "Class" classMembers,
  derived "InvokedCoroutine" handleMembers]

/-- The registry of a new interpreter. -/
def registry : Registry :=
  all.foldl (fun r decl ↦ (Registry.register decl r).2) {}

end MindScript.CoreClass
