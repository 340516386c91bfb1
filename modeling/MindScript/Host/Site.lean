import MindScript.Host.Settings
import MindScript.Interpreter

/-!
# The place of an interpreter

A host has one place for an interpreter.  The place is empty or taken, and while the interpreter is in use
nothing else can be done with it.
-/

namespace MindScript

structure Site where
  world : Option World := none
  /-- Whether the interpreter is in use. -/
  held : Bool := false
  deriving Inhabited

namespace Site

/-- Why a host cannot have what it asks for. -/
inductive Error where
  | alreadyInitialized
  | notInitialized
  | reentrant
  | settings (e : Settings.Error)
  deriving DecidableEq, Repr

def Error.name : Error → String
  | alreadyInitialized => "AlreadyInitialized"
  | notInitialized => "NotInitialized"
  | reentrant => "Reentrant"
  | settings e => e.name

def Error.message : Error → String
  | alreadyInitialized => "the Brook runtime is already initialised on this thread"
  | notInitialized => "the Brook runtime is not initialised on this thread"
  | reentrant => "the Brook runtime is already borrowed further up the call stack"
  | settings e => e.message

/-- Put a new interpreter in the place. -/
def init (s : Site) (settings : Settings) : Except Error Site :=
  if s.held then .error .reentrant
  else if s.world.isSome then .error .alreadyInitialized
  else .ok { s with world := some (.new settings.config) }

/-- Whether the place is taken. -/
def isInitialized (s : Site) : Bool := s.held || s.world.isSome

/-- Take the interpreter into use. -/
def hold (s : Site) : Except Error (World × Site) :=
  if s.held then .error .reentrant
  else match s.world with
    | none => .error .notInitialized
    | some w => .ok (w, { s with held := true })

/-- Put the interpreter back after use. -/
def giveBack (_ : Site) (w : World) : Site := { world := some w, held := false }

/-- Use the interpreter for one action. -/
def withWorld {α : Type} (s : Site) (act : World → α × World) : Except Error (α × Site) := do
  let (w, s) ← s.hold
  let (a, w) := act w
  return (a, s.giveBack w)

/-- End the interpreter and empty the place; whether there was one. -/
def teardown (s : Site) : Except Error (Bool × Site) :=
  if s.held then .error .reentrant
  else .ok (s.world.isSome, { s with world := none })

end Site

end MindScript
