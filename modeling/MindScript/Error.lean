import MindScript.Identity

/-!
# Evaluation errors

Every failure has a typed kind, and the wording of a failure is a function of its kind alone.  A loop
exit travels the same way as a failure, up to the innermost loop, and carries the value of that loop;
it is a signal and no failure, so guards let it pass.
-/

namespace MindScript

/-- The cause of a failure. -/
inductive ErrorKind where
  | classConflict (className : String)
  | cyclicHierarchy (className supertype : String)
  | unknownClass (name : String)
  | incompatibleOverride (className member : String)
  /-- A constructor or destructor declared as a coroutine. -/
  | suspendingLifecycle (className member : String)
  | memberNotFound (member className : String)
  | nilDereference (member : String)
  | arityMismatch (name : String) (expected got : Nat)
  | typeMismatch (expected got : String)
  | indexOutOfRange (index : Int64) (length : Nat)
  | undefinedVariable (name : String)
  | divisionByZero
  | stackOverflow (depth : Nat)
  /-- A coroutine that would wait for itself. -/
  | schedulerFault (coroutine : String)
  | durationalInImmediate (member : String)
  | noMind
  | custom (message : String)
  deriving DecidableEq, Repr, Inhabited

namespace ErrorKind

/-- The stable name of the kind. -/
def name : ErrorKind → String
  | classConflict _ => "ClassConflict"
  | cyclicHierarchy _ _ => "CyclicHierarchy"
  | unknownClass _ => "UnknownClass"
  | incompatibleOverride _ _ => "IncompatibleOverride"
  | suspendingLifecycle _ _ => "SuspendingLifecycle"
  | memberNotFound _ _ => "MemberNotFound"
  | nilDereference _ => "NilDereference"
  | arityMismatch _ _ _ => "ArityMismatch"
  | typeMismatch _ _ => "TypeMismatch"
  | indexOutOfRange _ _ => "IndexOutOfRange"
  | undefinedVariable _ => "UndefinedVariable"
  | divisionByZero => "DivisionByZero"
  | stackOverflow _ => "StackOverflow"
  | schedulerFault _ => "SchedulerFault"
  | durationalInImmediate _ => "DurationalInImmediate"
  | noMind => "NoMind"
  | custom _ => "Custom"

/-- The wording of the kind. -/
def text : ErrorKind → String
  | classConflict c => "class `" ++ c ++ "` is already registered"
  | cyclicHierarchy c s => "making `" ++ s ++ "` a supertype of `" ++ c ++ "` would create a cycle"
  | unknownClass n => "unknown class `" ++ n ++ "`"
  | incompatibleOverride c m => "`" ++ c ++ "." ++ m ++ "` changes the kind of an inherited member"
  | suspendingLifecycle c m => "`" ++ c ++ "." ++ m ++ "` must be a method, it cannot suspend"
  | memberNotFound m c => "no member `" ++ m ++ "` on class " ++ c
  | nilDereference m => "called `" ++ m ++ "` on nil"
  | arityMismatch n expected got =>
    let words := toString expected ++ (if expected = 1 then " argument" else " arguments")
      ++ ", got " ++ toString got
    if n.isEmpty then "expected " ++ words else n ++ " expects " ++ words
  | typeMismatch expected got => "type mismatch: expected " ++ expected ++ ", got " ++ got
  | indexOutOfRange index length =>
    "index " ++ toString index.toInt ++ " out of range for list of length " ++ toString length
  | undefinedVariable n => "undefined variable: " ++ n
  | divisionByZero => "division by zero"
  | stackOverflow depth => "maximum call depth exceeded (limit: " ++ toString depth ++ ")"
  | schedulerFault c => "`" ++ c ++ "` waits on itself through a cycle of coroutines"
  | durationalInImmediate m => "`" ++ m ++ "` may suspend and cannot run in an immediate context"
  | noMind => "no mind is available to run the coroutine"
  | custom message => message

end ErrorKind

/-- The invocations under way when an error was raised, innermost first, each as `Class.member`. -/
structure Backtrace where
  frames : List String
  deriving DecidableEq, Repr, Inhabited

namespace Backtrace

/-- The backtrace as numbered lines; an empty one has no text at all. -/
def text (b : Backtrace) : String :=
  if b.frames.isEmpty then ""
  else
    b.frames.zipIdx.foldl (fun out (frame, i) ↦ out ++ "  " ++ toString i ++ ": " ++ frame ++ "\n")
      "invocation backtrace:\n"

end Backtrace

/-- The top-level invocation that an error left. -/
structure Origin where
  className : String
  member : String
  /-- Short description of the receiver. -/
  receiver : String
  deriving DecidableEq, Repr, Inhabited

namespace Origin

def text (o : Origin) : String := o.className ++ "." ++ o.member ++ " on " ++ o.receiver

end Origin

/-- An error under way, or a loop exit when `exit` holds the value to leave the loop with. -/
structure EvalError where
  kind : ErrorKind
  exit : Option Ref := none
  backtrace : Option Backtrace := none
  origin : Option Origin := none
  notes : List String := []
  deriving DecidableEq, Repr, Inhabited

namespace EvalError

def ofKind (kind : ErrorKind) : EvalError := { kind }

/-- An error with nothing but a message. -/
def custom (message : String) : EvalError := ofKind (.custom message)

/-- The signal that leaves the innermost loop with a value. -/
def loopExit (value : Ref) : EvalError := { kind := .custom "loop exit", exit := some value }

def isLoopExit (e : EvalError) : Bool := e.exit.isSome

/-- The wording of the error.  A loop exit that anyone gets to read is one outside of every loop. -/
def message (e : EvalError) : String :=
  if e.isLoopExit then "loop exit outside of a loop" else e.kind.text

@[simp] theorem isLoopExit_custom (message : String) : (custom message).isLoopExit = false := rfl

@[simp] theorem message_custom (message : String) : (custom message).message = message := rfl

/-- Attach a backtrace unless one is there: the innermost invocation to do so wins. -/
def withBacktrace (e : EvalError) (b : Backtrace) : EvalError :=
  { e with backtrace := e.backtrace <|> some b }

/-- Attach an origin unless one is there. -/
def withOrigin (e : EvalError) (o : Origin) : EvalError :=
  { e with origin := e.origin <|> some o }

theorem isSome_origin_withOrigin (e : EvalError) (o : Origin) : (e.withOrigin o).origin.isSome = true := by
  cases h : e.origin <;> simp [withOrigin, h]

/-- Who is blamed first is blamed for good. -/
theorem withOrigin_of_isSome {e : EvalError} (h : e.origin.isSome = true) (o : Origin) : e.withOrigin o = e := by
  obtain ⟨o', ho'⟩ := Option.isSome_iff_exists.mp h
  cases e
  simp_all [withOrigin]

def withNote (e : EvalError) (note : String) : EvalError := { e with notes := e.notes ++ [note] }

/-- A loop exit that escaped every loop becomes an ordinary failure. -/
def toFailure (e : EvalError) : EvalError :=
  if e.isLoopExit then custom e.message else e

@[simp] theorem isLoopExit_toFailure (e : EvalError) : e.toFailure.isLoopExit = false := by
  by_cases h : e.isLoopExit = true <;> simp [toFailure, h]

@[simp] theorem message_toFailure (e : EvalError) : e.toFailure.message = e.message := by
  by_cases h : e.isLoopExit = true <;> simp [toFailure, h]

theorem toFailure_of_isLoopExit_eq_false {e : EvalError} (h : e.isLoopExit = false) :
    e.toFailure = e := by
  simp [toFailure, h]

/-- The error with its origin and notes. -/
def text (e : EvalError) : String :=
  e.notes.foldl (fun out note ↦ out ++ "\n  note: " ++ note)
    (e.message ++ (e.origin.elim "" fun o ↦ " (in " ++ o.text ++ ")"))

/-- A named argument that the callee has no parameter for. -/
def unknownArgument (callee argument : String) : EvalError :=
  (ofKind (.arityMismatch callee 0 1)).withNote ("no parameter named `" ++ argument ++ "`")

end EvalError

end MindScript
