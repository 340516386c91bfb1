import MindScript.Proofs.Refines

/-!
# Evaluation clear of suspension points

An evaluator that gives up where only a coroutine could go on: at a call of a coroutine, at a concurrent
group, and where a coroutine closure is about to be invoked.  Wherever it does not give up, evaluation has
met none of these, and then the two agree.
-/

namespace MindScript

/-- Whether a value is a closure that runs as a coroutine. -/
def World.isCoroutineClosure (w : World) (r : Ref) : Bool :=
  match w.heap.payload r with
  | .closure c => c.kind == .coroutine
  | _ => false

theorem World.isCoroutineClosure_bare (w : World) (r : Ref) :
    w.bare.isCoroutineClosure r = w.isCoroutineClosure r := by
  simp [isCoroutineClosure]

namespace Machine

/-- Invoke a closure, unless it is one that runs as a coroutine. -/
def plainInvoke (E : Engine) (callee : ExprId) (args : List CallArg) : Machine Ref := do
  let target ← E.eval callee
  let values ← elseRelease (evalArgs E [] args) [target]
  if (← get).isCoroutineClosure target then exhausted
  else thenRelease (invokeClosureNow E target values) [target]

/-- Evaluate a node, unless only a coroutine can go on from it. -/
def plainNode (E : Engine) (id : ExprId) : Machine Ref := do
  let arena := (← get).context.arena
  match arena.node id with
  | .coroutineCall _ _ _ _ => exhausted
  | .concurrent _ _ => exhausted
  | .invoke callee args => plainInvoke E callee (arena.argsAt args)
  | _ => evalNode E id

end Machine

/-- The engine that evaluates clear of suspension points.  Members that it calls, and frames that it starts,
run as usual. -/
def Engine.plain : Nat → Engine
  | 0 => .empty
  | n + 1 => { Engine.ofBudget (n + 1) with eval := fun id ↦ Machine.plainNode (Engine.plain n) id }

/-- Evaluation within a budget comes to an end and meets no suspension point. -/
def Engine.Immediate (n : Nat) (id : ExprId) (w : World) : Prop :=
  ((Engine.plain n).eval id w).1 ≠ .error .exhausted

namespace Machine

variable {E E' : Engine} {σ : Setting}

theorem Refines.plainInvoke (hE : E.Refines E') (callee : ExprId) (args : List CallArg) :
    Refines σ (plainInvoke E callee args) (evalInvoke E' callee args) := by
  refine (hE.eval σ callee).bind fun target ↦ ?_
  refine (((Alike.evalArgs [] args).elseRelease [target]).refines hE).bind fun values ↦ ?_
  intro w w₁ r w' hw hs hrun hne
  rw [Machine.get_bind] at hrun
  split at hrun
  · exact Refines.exhausted _ hw hs hrun hne
  · exact (((Alike.invokeClosureNow target values).thenRelease [target]).refines hE) hw hs hrun hne

theorem Refines.plainNode (hE : E.Refines E') (id : ExprId) :
    Refines σ (plainNode E id) (evalNode E' id) := by
  intro w w₁ r w' hw hs hrun hne
  rw [Machine.plainNode, Machine.get_bind] at hrun
  cases hnode : w.context.arena.node id with
  | coroutineCall receiver coroutine args qualifier =>
    simp only [hnode] at hrun
    exact Refines.exhausted _ hw hs hrun hne
  | concurrent policy branches =>
    simp only [hnode] at hrun
    exact Refines.exhausted _ hw hs hrun hne
  | invoke callee args =>
    simp only [hnode] at hrun
    have heval : Machine.evalNode E' id w₁ = evalInvoke E' callee (w.context.arena.argsAt args) w₁ := by
      rw [Machine.evalNode, Machine.get_bind, hs.context]
      simp only [hnode]
    rw [heval]
    exact Refines.plainInvoke hE callee _ hw hs hrun hne
  | _ =>
    simp only [hnode] at hrun
    exact ((Alike.evalNode hE.budget id).refines hE) hw hs hrun hne

end Machine

theorem Engine.plain_refines {n m : Nat} (hn : n ≤ m) : (Engine.plain n).Refines (.ofBudget m) := by
  induction n generalizing m with
  | zero => exact Engine.refines_ofBudget hn
  | succ n ih =>
    obtain ⟨k, rfl⟩ := Nat.exists_eq_succ_of_ne_zero (Nat.ne_zero_of_lt hn)
    have hbudget := Engine.refines_ofBudget hn
    exact ⟨hbudget.budget, fun _ id ↦ .plainNode (ih (Nat.le_of_succ_le_succ hn)) id, hbudget.invoke,
      hbudget.resume⟩

end MindScript
