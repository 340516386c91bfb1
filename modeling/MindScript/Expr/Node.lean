/-!
# Expression nodes

One node of an expression.  Children are positions in the arena that holds the node, and lists of
children are spans of the arena's side tables, so a node has a fixed size whatever it holds.
-/

namespace MindScript

/-- Position of a node in its arena. -/
structure ExprId where
  index : Nat
  deriving DecidableEq, Repr

namespace ExprId

/-- The position that no arena reaches. -/
def invalid : ExprId := ⟨4294967295⟩

instance : Inhabited ExprId := ⟨invalid⟩

def isValid (e : ExprId) : Bool := e != invalid

/-- The position as diagnostics write it. -/
def text (e : ExprId) : String :=
  if e.isValid then "ExprId(" ++ toString e.index ++ ")" else "ExprId::INVALID"

end ExprId

/-- A run of consecutive entries of a side table. -/
structure Span where
  start : Nat
  length : Nat
  deriving DecidableEq, Repr, Inhabited

namespace Span

/-- The span of every empty list. -/
def empty : Span := ⟨0, 0⟩

/-- The span under the name of its table, as diagnostics write it. -/
def text (s : Span) (table : String) : String :=
  table ++ "(" ++ toString s.start ++ ".." ++ toString (s.start + s.length) ++ ")"

end Span

/-- Whether a callable runs to completion or may suspend. -/
inductive CallableKind where
  | method
  | coroutine
  deriving DecidableEq, Repr, Inhabited

namespace CallableKind

def name : CallableKind → String
  | method => "method"
  | coroutine => "coroutine"

/-- The kind as diagnostics write it. -/
def title : CallableKind → String
  | method => "Method"
  | coroutine => "Coroutine"

end CallableKind

/-- When a concurrent group is complete. -/
inductive Policy where
  /-- Every branch has completed. -/
  | sync
  /-- Some branch has settled; the others are stopped. -/
  | race
  /-- Some branch has settled; the others run on by themselves. -/
  | any
  deriving DecidableEq, Repr, Inhabited

namespace Policy

def all : List Policy := [sync, race, any]

def name : Policy → String
  | sync => "sync"
  | race => "race"
  | any => "any"

end Policy

inductive BinaryOp where
  | and | or
  | add | sub | mul | div | rem
  | eq | notEq | lt | ltEq | gt | gtEq
  deriving DecidableEq, Repr, Inhabited

namespace BinaryOp

def all : List BinaryOp :=
  [and, or, add, sub, mul, div, rem, eq, notEq, lt, ltEq, gt, gtEq]

/-- The right operand is evaluated only when the left one does not decide. -/
def isShortCircuit : BinaryOp → Bool
  | and | or => true
  | _ => false

/-- Name of the method that the operator dispatches to. -/
def methodName : BinaryOp → String
  | and => "and"
  | or => "or"
  | add => "add"
  | sub => "subtract"
  | mul => "multiply"
  | div => "divide"
  | rem => "remainder"
  | eq => "equals"
  | notEq => "not_equals"
  | lt => "less"
  | ltEq => "less_or_equal"
  | gt => "greater"
  | gtEq => "greater_or_equal"

/-- The operator as it is written in an expression. -/
def sign : BinaryOp → String
  | and => "and"
  | or => "or"
  | add => "+"
  | sub => "-"
  | mul => "*"
  | div => "/"
  | rem => "%"
  | eq => "="
  | notEq => "~="
  | lt => "<"
  | ltEq => "<="
  | gt => ">"
  | gtEq => ">="

def ofSign? (s : String) : Option BinaryOp := all.find? fun op ↦ op.sign == s

end BinaryOp

inductive UnaryOp where
  | neg
  | not
  deriving DecidableEq, Repr, Inhabited

namespace UnaryOp

def all : List UnaryOp := [neg, not]

/-- Name of the method that the operator dispatches to. -/
def methodName : UnaryOp → String
  | neg => "negated"
  | not => "not"

end UnaryOp

/-- An argument of a call, possibly named. -/
structure CallArg where
  name : Option String
  value : ExprId
  deriving DecidableEq, Repr, Inhabited

/-- A parameter of a member or closure.  The default is evaluated in the callee's frame when the
argument is omitted; the class, if given, is the one that the argument must conform to. -/
structure Param where
  name : String
  className : Option String
  default : Option ExprId
  deriving DecidableEq, Repr, Inhabited

/-- One arm of a conditional. -/
structure Clause where
  test : ExprId
  body : ExprId
  deriving DecidableEq, Repr, Inhabited

inductive Node where
  | nil
  | bool (value : Bool)
  | int (value : Int64)
  /-- A real literal, kept as its bits. -/
  | real (bits : UInt64)
  | str (text : String)
  | sym (name : String)
  | this
  | ident (name : String)
  /-- Binds a name in the innermost scope. -/
  | bind (name : String) (init : ExprId)
  /-- Assigns to a local, else to a data member of `this`, else to class data. -/
  | assign (name : String) (value : ExprId)
  | binary (op : BinaryOp) (left right : ExprId)
  | unary (op : UnaryOp) (operand : ExprId)
  /-- A method call; a missing receiver means `this`, and a qualifier names the class at which the
  search for the method starts. -/
  | methodCall (receiver : Option ExprId) (method : String) (args : Span)
      (qualifier : Option String)
  /-- A coroutine call, which suspends the caller until the callee has finished. -/
  | coroutineCall (receiver : Option ExprId) (coroutine : String) (args : Span)
      (qualifier : Option String)
  | invoke (callee : ExprId) (args : Span)
  | instantiate (className : String) (args : Span)
  | conditional (clauses : Span) (otherwise : Option ExprId)
  | block (items : Span)
  | loop (body : ExprId)
  | loopExit (value : Option ExprId)
  /-- Evaluates the body; on an error, binds its message and evaluates the handler instead. -/
  | guarded (body : ExprId) (errorName : String) (handler : ExprId)
  | closure (params : Span) (body : ExprId) (kind : CallableKind)
  | list (itemClass : String) (items : Span)
  /-- Starts its body as a coroutine of its own and yields the handle. -/
  | branch (body : ExprId)
  | concurrent (policy : Policy) (branches : Span)
  deriving DecidableEq, Repr, Inhabited

end MindScript
