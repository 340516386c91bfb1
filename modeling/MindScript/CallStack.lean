import MindScript.Error
import MindScript.Stack

/-!
# The invocation stack

Every method, closure and coroutine step stands on this stack while it runs.  The stack has a fixed
limit, and it is what a backtrace shows.
-/

namespace MindScript

/-- A running invocation, by the class that declares the member and the member's name. -/
structure Invocation where
  className : String
  member : String
  deriving DecidableEq, Repr, Inhabited

/-- Running invocations, the innermost one on top. -/
structure CallStack where
  invocations : Stack Invocation := .empty
  maxDepth : Nat
  deriving Inhabited

namespace CallStack

def depth (s : CallStack) : Nat := s.invocations.height

/-- Enter an invocation; at the limit the stack stays as it is. -/
def push (s : CallStack) (i : Invocation) : Except EvalError CallStack :=
  if s.depth < s.maxDepth then .ok { s with invocations := s.invocations.push i }
  else .error (.ofKind (.stackOverflow s.maxDepth))

def pop (s : CallStack) : CallStack := { s with invocations := s.invocations.pop }

theorem push_eq_ok_iff {s t : CallStack} {i : Invocation} :
    s.push i = .ok t ↔ s.depth < s.maxDepth ∧ t = { s with invocations := s.invocations.push i } := by
  by_cases h : s.depth < s.maxDepth <;> simp [push, h, eq_comm]

theorem pop_of_push {s t : CallStack} {i : Invocation} (h : s.push i = .ok t) : t.pop = s := by
  obtain ⟨-, rfl⟩ := push_eq_ok_iff.mp h
  rfl

def capture (s : CallStack) : Backtrace :=
  ⟨s.invocations.items.map fun i ↦ i.className ++ "." ++ i.member⟩

/-- Stamp a failure that leaves an invocation and is not stamped yet.  Loop exits carry no backtrace, and
outside of every invocation there is none to give. -/
def attach (s : CallStack) (e : EvalError) : EvalError :=
  if s.invocations.isEmpty || e.isLoopExit || e.backtrace.isSome then e else e.withBacktrace s.capture

end CallStack

end MindScript
