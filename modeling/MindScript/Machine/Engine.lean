import MindScript.Machine.World

/-!
# The recursive parts of evaluation

Evaluating an expression, running a member and running a step of a frame call for one another.  Each is
defined in its own module against an `Engine`, which stands for the three of them with a smaller budget;
`Machine.Run` then closes the circle by recursion on the budget.
-/

namespace MindScript

/-- Evaluated arguments of a call, possibly named. -/
abbrev ArgValues := List (Option String × Ref)

structure Engine where
  /-- Rounds that a loop may take before the budget counts as used up. -/
  budget : Nat
  /-- Evaluate a node in the running context. -/
  eval : ExprId → Machine Ref
  /-- Run a method member as an instance.  Takes the instance and the arguments over. -/
  invoke : Ref → Member → ArgValues → Machine Ref
  /-- Run one step of a frame. -/
  resume : MindId → FrameId → Machine Unit

/-- The engine without any budget. -/
def Engine.empty : Engine where
  budget := 0
  eval _ := Machine.exhausted
  invoke _ _ _ := Machine.exhausted
  resume _ _ := Machine.exhausted

end MindScript
