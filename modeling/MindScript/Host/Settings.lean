import MindScript.Decimal.Reader
import MindScript.Machine.World
import MindScript.Text.Blank

/-!
# Settings of a host

What a host reads from its variables before it builds an interpreter.  A variable that is not set leaves
the default in place; one that cannot be read is an error.
-/

namespace MindScript

structure Settings where
  maxCallDepth : Nat := 512
  /-- Which messages are logged; without a filter none are. -/
  logFilter : Option String := none
  /-- Whether messages are laid out as a tree. -/
  logTree : Bool := false
  trace : Bool := false
  /-- Name of the Mind that is created with the interpreter, if any. -/
  defaultMind : Option String := some "master"
  deriving DecidableEq, Repr, Inhabited

namespace Settings

/-- A variable with a value that cannot be read. -/
inductive Error where
  | invalidDepth (name value : String)
  | invalidFlag (name value : String)
  deriving DecidableEq, Repr

def Error.name : Error → String
  | invalidDepth _ _ => "InvalidDepth"
  | invalidFlag _ _ => "InvalidFlag"

def Error.message : Error → String
  | invalidDepth name value => name ++ " must be a positive integer, got `" ++ value ++ "`"
  | invalidFlag name value => name ++ " must be 0 or 1 (or true/false), got `" ++ value ++ "`"

/-! ### Variables -/

def depthVariable : String := "BROOK_MAX_CALL_DEPTH"

def filterVariable : String := "BROOK_LOG"

/-- Read when the variable of the filter is not set. -/
def sharedFilterVariable : String := "RUST_LOG"

def treeVariable : String := "BROOK_LOG_TREE"

def traceVariable : String := "BROOK_TRACE"

/-- Every variable that is looked at. -/
def variableNames : List String :=
  [depthVariable, filterVariable, sharedFilterVariable, treeVariable, traceVariable]

/-! ### Reading -/

/-- The largest depth that can be written. -/
def maxDepth : Nat := 18446744073709551615

/-- A depth: a positive number, with white space around it. -/
def readDepth (name value : String) : Except Error Nat :=
  match Decimal.readNat maxDepth (Text.trim value) with
  | some (n + 1) => .ok (n + 1)
  | _ => .error (.invalidDepth name value)

/-- A flag: one of a few words in any case, with white space around it.  No word means no. -/
def readFlag (name value : String) : Except Error Bool :=
  let word := String.ofList ((Text.trim value).toList.map Char.toLower)
  if ["1", "true", "yes", "on"].contains word then .ok true
  else if ["0", "false", "no", "off", ""].contains word then .ok false
  else .error (.invalidFlag name value)

/-- Read a variable that is set, or take the default. -/
def readOr {α : Type} (lookup : String → Option String) (name : String)
    (parse : String → String → Except Error α) (default : α) : Except Error α :=
  match lookup name with
  | some value => parse name value
  | none => .ok default

/-- A filter that is more than white space. -/
def readFilter (lookup : String → Option String) : Option String :=
  ((lookup filterVariable).or (lookup sharedFilterVariable)).filter fun s ↦ !(Text.trim s).isEmpty

/-- Read all variables; the first one that cannot be read is the error. -/
def read (lookup : String → Option String) : Except Error Settings := do
  let maxCallDepth ← readOr lookup depthVariable readDepth ({} : Settings).maxCallDepth
  let logTree ← readOr lookup treeVariable readFlag false
  let trace ← readOr lookup traceVariable readFlag false
  return { maxCallDepth, logFilter := readFilter lookup, logTree, trace }

/-- What an interpreter takes from the settings. -/
def config (s : Settings) : Config :=
  { maxCallDepth := s.maxCallDepth, trace := s.trace, defaultMind := s.defaultMind }

end Settings

end MindScript
