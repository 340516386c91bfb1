import MindScript.Machine.Resume

/-!
# Running with a budget

The engine of a budget is built from the engine of the next smaller one.  A computation that ends within
some budget ends in the same way within every larger one.
-/

namespace MindScript

open Machine in
/-- The engine that goes as deep as its budget allows. -/
def Engine.ofBudget : Nat → Engine
  | 0 => .empty
  | n + 1 => {
      budget := n
      eval := fun id ↦ evalNode (Engine.ofBudget n) id
      invoke := fun this m args ↦ invokeMember (Engine.ofBudget n) this m args
      resume := fun m id ↦ resumeFrame (Engine.ofBudget n) m id }

/-- More than any computation that ends in practice needs. -/
def Engine.ample : Engine := .ofBudget 4611686018427387904

end MindScript
