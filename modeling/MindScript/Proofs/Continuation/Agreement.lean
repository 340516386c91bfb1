import MindScript.Proofs.Class.Destructors
import MindScript.Proofs.Continuation.Handlers
import MindScript.Proofs.Scheduler.Reachable

/-!
# Continuations agree with immediate evaluation

By induction on the budget, the task that evaluates an expression enacts its evaluation, in every context.
So a new continuation, run where immediate evaluation ends clear of suspension points, ends without ever
suspending, with the same value or error, in a world that differs in its counts alone.
-/

namespace MindScript

/-- Every list that a node names lies in the arena's table. -/
def Arena.Closed (a : Arena) : Prop :=
  ∀ id itemClass items, a.node id = .list itemClass items → items.start + items.length ≤ a.lists.size

theorem Arena.Closed.length_listAt {a : Arena} (h : a.Closed) {id : ExprId} {itemClass : String} {items : Span}
    (hnode : a.node id = .list itemClass items) : (a.listAt items).length = items.length := by
  have hle := h id itemClass items hnode
  simp only [listAt, slice, Array.length_toList, Array.size_extract]
  omega

namespace Machine

namespace Enacted

variable {n : Nat} {S : Engine} {c : Context}

/-- The tasks that a node is taken apart into enact its evaluation. -/
theorem decompose (h : ∀ env, Enacted n S { c with env })
    (hclosed : c.arena.Closed) (id : ExprId)
    (hnode : ∀ m, n + 1 ≤ m → ∀ σ, Refines σ (plainNode S id) ((Engine.ofBudget m).eval id)) :
    Enacts (n + 1) c (fun E rest values ↦ Machine.decompose E c.arena ⟨rest, values⟩ id) (plainNode S id) single := by
  have hin := h c.env
  have hread {g : Machine Ref} (hg : ∀ w, At c w → plainNode S id w = g w) {start : Start}
      (hstart : ∀ E rest values w, w.context = c →
        Machine.decompose E c.arena ⟨rest, values⟩ id w = start E rest values w)
      (hgoal : Enacts n c start g single) :
      Enacts (n + 1) c (fun E rest values ↦ Machine.decompose E c.arena ⟨rest, values⟩ id) (plainNode S id) single :=
    ((hgoal.mono (Nat.le_succ n)).congr hstart).congr_action hg
  have hyield : Enacts (n + 1) c (fun E rest values ↦ yieldValue ⟨rest, values⟩ (E.eval id)) (plainNode S id) single :=
    .yield hnode
  cases hid : c.arena.node id with
  | bind name init =>
    refine hread (fun w hw ↦ ?_) (fun E rest values w _ ↦ ?_) (hin.bind name init)
    · simp only [plainNode, evalNode, get_bind, hw.context, hid]
    · simp only [Machine.decompose, hid]
      rfl
  | assign name value =>
    refine hread (fun w hw ↦ ?_) (fun E rest values w _ ↦ ?_) (hin.assign name value)
    · simp only [plainNode, evalNode, get_bind, hw.context, hid]
    · simp only [Machine.decompose, hid]
      rfl
  | binary op left right =>
    cases hop : op.isShortCircuit with
    | true =>
      refine hread (fun w hw ↦ ?_) (fun E rest values w _ ↦ ?_) (hin.shortCircuit op left right)
      · simp only [plainNode, evalNode, get_bind, hw.context, hid, hop, if_true]
      · simp only [Machine.decompose, hid, hop, if_true]
        rfl
    | false =>
      refine hread (fun w hw ↦ ?_) (fun E rest values w _ ↦ ?_) (hin.binary op left right)
      · simp only [plainNode, evalNode, get_bind, hw.context, hid, hop, Bool.false_eq_true, if_false]
      · simp only [Machine.decompose, hid, hop, Bool.false_eq_true, if_false]
        rfl
  | unary op operand =>
    refine hread (fun w hw ↦ ?_) (fun E rest values w _ ↦ ?_) (hin.unary op operand)
    · simp only [plainNode, evalNode, get_bind, hw.context, hid]
    · simp only [Machine.decompose, hid]
      rfl
  | methodCall receiver method args qualifier =>
    cases receiver with
    | some receiver =>
      refine hread (fun w hw ↦ ?_) (fun E rest values w _ ↦ ?_) (hin.methodCall receiver method args qualifier)
      · simp only [plainNode, evalNode, get_bind, hw.context, hid]
      · simp only [Machine.decompose, hid]
        rfl
    | none =>
      refine hread (fun w hw ↦ ?_) (fun E rest values w _ ↦ ?_) (hin.ownMethodCall method args qualifier)
      · simp only [plainNode, evalNode, get_bind, hw.context, hid]
      · simp only [Machine.decompose, hid]
        rfl
  | invoke callee args =>
    refine hread (fun w hw ↦ ?_) (fun E rest values w _ ↦ ?_) (hin.invoke callee args)
    · simp only [plainNode, get_bind, hw.context, hid]
    · simp only [Machine.decompose, hid]
      rfl
  | instantiate className args =>
    refine hread (fun w hw ↦ ?_) (fun E rest values w _ ↦ ?_) (hin.instantiate className args)
    · simp only [plainNode, evalNode, get_bind, hw.context, hid]
    · simp only [Machine.decompose, hid]
      rfl
  | list itemClass items =>
    refine hread (fun w hw ↦ ?_) (fun E rest values w _ ↦ ?_) (hin.list (hclosed.length_listAt hid) itemClass)
    · simp only [plainNode, evalNode, get_bind, hw.context, hid]
    · simp only [Machine.decompose, hid]
      rfl
  | conditional clauses otherwise =>
    refine hread (fun w hw ↦ ?_) (fun E rest values w _ ↦ ?_) (hin.clauses clauses otherwise (List.drop_zero))
    · simp only [plainNode, evalNode, get_bind, hw.context, hid]
    · simp only [Machine.decompose, hid]
  | block items =>
    refine hread (fun w hw ↦ ?_) (fun E rest values w _ ↦ ?_) (block h (c.arena.listAt items))
    · simp only [plainNode, evalNode, get_bind, hw.context, hid]
    · simp only [Machine.decompose, hid]
      split
      · rfl
      · simp only [Continuation.todo, List.append_assoc, List.singleton_append]
  | loop body =>
    refine hread (fun w hw ↦ ?_) (fun E rest values w hw ↦ ?_) (Enacts.rounds (hin.eval body) S.budget)
    · simp only [plainNode, evalNode, get_bind, hw.context, hid]
      rfl
    · simp only [Machine.decompose, hid, get_bind, hw]
      rfl
  | loopExit value =>
    cases value with
    | some value =>
      refine hread (fun w hw ↦ ?_) (fun E rest values w _ ↦ ?_) (hin.loopExit value)
      · simp only [plainNode, evalNode, get_bind, hw.context, hid]
      · simp only [Machine.decompose, hid]
        rfl
    | none => exact hyield.congr fun E rest values w _ ↦ by simp only [Machine.decompose, hid]
  | guarded body errorName handler =>
    refine hread (fun w hw ↦ ?_) (fun E rest values w hw ↦ ?_) (Enacts.guarded h body errorName handler)
    · simp only [plainNode, evalNode, get_bind, hw.context, hid]
    · simp only [Machine.decompose, hid, get_bind, hw]
      rfl
  | coroutineCall receiver coroutine args qualifier =>
    refine .never fun w hw ↦ ?_
    simp only [plainNode, get_bind, hw.context, hid]
    rfl
  | concurrent policy branches =>
    refine .never fun w hw ↦ ?_
    simp only [plainNode, get_bind, hw.context, hid]
    rfl
  | _ => exact hyield.congr fun E rest values w _ ↦ by simp only [Machine.decompose, hid]

end Enacted

/-- By induction on the budget, the task that evaluates an expression enacts its evaluation. -/
theorem enacted_plain (n : Nat) (c : Context) (hclosed : c.arena.Closed) :
    Enacted n (.plain n) c := by
  induction n generalizing c with
  | zero => exact ⟨fun m hm ↦ Engine.plain_refines hm, fun id ↦ .never fun w _ ↦ rfl⟩
  | succ n ih =>
    refine ⟨fun m hm ↦ Engine.plain_refines hm, fun id ↦ Enacts.task ?_⟩
    have heval : ∀ m, n + 1 ≤ m → ∀ σ, Refines σ ((Engine.plain (n + 1)).eval id) ((Engine.ofBudget m).eval id) :=
      fun m hm σ ↦ (Engine.plain_refines hm).eval σ id
    cases hid : c.arena.isDurational id with
    | true =>
      refine (Enacted.decompose (fun env ↦ ih { c with env } hclosed) hclosed id heval).congr ?_
      intro E rest values w _
      simp only [runTask, hid, if_true]
      rfl
    | false =>
      refine (Enacts.yield (g := fun E ↦ E.eval id) heval).congr fun E rest values w _ ↦ ?_
      simp only [runTask, hid, Bool.false_eq_true, if_false]
      rfl

/-! ### Running a new continuation -/

/-- Where the tasks of a continuation come to an end, so does the continuation. -/
theorem proceed_ends (E : Engine) (arena : Arena) (i : Nat) {r : Except EvalError Ref} {s : Continuation × Progress}
    (h : Ends [] .empty single r s) {w w₁ : World} (hs : w.Same w₁) :
    ∃ w₂, proceed E arena (i + 1) s w₁ = (.ok ({ tasks := [] }, r.map .done), w₂) ∧ w.Same w₂ := by
  cases r with
  | ok v =>
    obtain rfl := h
    exact ⟨w₁.release [], rfl, hs.release_right []⟩
  | error e =>
    obtain ⟨extra, rfl⟩ := h
    exact ⟨_, rfl, hs.release_right _⟩

theorem runContinuation_of_enacts {n : Nat} {c : Context} {f : Machine Ref} {id : ExprId}
    (h : Enacts n c (doing [] [.eval id]) f single) {w w' : World} (hw : At c w) {r : Except EvalError Ref}
    (hf : attempt f w = (.ok r, w')) :
    ∃ k, ∀ m, k ≤ m → ∃ w₁, w'.Same w₁ ∧
      runContinuation (.ofBudget m) (.new id) w = (.ok ({ tasks := [] }, r.map .done), w₁) := by
  obtain ⟨hw', j, hj⟩ := h hw hf
  refine ⟨n + j + 2, fun m hm ↦ ?_⟩
  obtain ⟨i, rfl⟩ : ∃ i, m = i + 1 + j + 1 := ⟨m - j - 2, by omega⟩
  obtain ⟨s, w₁, hends, hs, hrun⟩ := hj (i + 1 + j + 1) (by omega) w (.refl hw.inert) [] .empty
  obtain ⟨w₂, hlast, hs₂⟩ := proceed_ends (.ofBudget (i + 1 + j + 1)) c.arena i hends hs
  refine ⟨w₂, hs₂, ?_⟩
  rw [← hlast, ← hrun (i + 1), runContinuation, get_bind, hw.context]
  rfl

end Machine

/-- What holds of a world at every moment of a step: the Minds that it names are there, a scope is open, and an
instance waits for its destructor only if its class has one. -/
structure World.InStep (w : World) : Prop where
  rooted : w.Rooted
  scope : 0 < w.context.env.depth
  armed : ∀ r o, w.heap.object? r = some o → o.armed = true → w.classes.hasDestructor o.classId = true

theorem World.InStep.inert {w : World} (h : w.InStep) (hdestructor : ∀ c, w.classes.hasDestructor c = false) :
    w.Inert := by
  refine ⟨hdestructor, fun r o ho ↦ ?_⟩
  cases harmed : o.armed with
  | false => rfl
  | true =>
    have hclass := h.armed r o ho harmed
    rw [hdestructor] at hclass
    cases hclass

open Machine in
/-- A continuation never suspends where immediate evaluation ends clear of suspension points.  It ends with the
same value or the same error, and the two worlds agree in everything but counts: in scopes, bindings, slots,
class data, lists, frames and what host members wrote down. -/
theorem continuation_agrees {w : World} {id : ExprId} {n : Nat} (hw : w.InStep)
    (hclosed : w.context.arena.Closed) (hdestructor : ∀ c, w.classes.hasDestructor c = false)
    (himmediate : Engine.Immediate n id w) :
    ∃ (r : Except EvalError Ref) (k : Nat), ∀ m, k ≤ m → ∃ w₁ w₂,
      attempt ((Engine.ofBudget m).eval id) w = (.ok r, w₁) ∧
      runContinuation (.ofBudget m) (.new id) w = (.ok ({ tasks := [] }, r.map .done), w₂) ∧
      w₁.bare = w₂.bare := by
  have hinert := hw.inert hdestructor
  have hat : At w.context w := ⟨rfl, hw.rooted, hinert⟩
  have henacted := enacted_plain n w.context hclosed
  rcases hf : (Engine.plain n).eval id w with ⟨result, w'⟩
  have hne : result ≠ .error .exhausted := by
    have h := himmediate
    rwa [Engine.Immediate, hf] at h
  obtain ⟨r, hr⟩ : ∃ r, attempt ((Engine.plain n).eval id) w = (.ok r, w') := by
    match result with
    | .ok v => exact ⟨.ok v, attempt_of_ok hf⟩
    | .error (.raised e) => exact ⟨.error e, attempt_of_raised hf⟩
    | .error .exhausted => exact absurd rfl hne
  obtain ⟨k, hk⟩ := runContinuation_of_enacts (henacted.eval id) hat hr
  refine ⟨r, max k n, fun m hm ↦ ?_⟩
  obtain ⟨w₂, hs₂, hrun⟩ := hk m (Nat.le_trans (Nat.le_max_left k n) hm)
  have heval := ((Engine.plain_refines (Nat.le_trans (Nat.le_max_right k n) hm)).eval
    ⟨w.current, w.minds.size, false, none⟩ id).attempt
  obtain ⟨w₁, hrun₁, hs₁, -⟩ := heval hat.holds (.refl hinert) hr (by simp)
  exact ⟨w₁, w₂, hrun₁, hrun, hs₁.bare.symm.trans hs₂.bare⟩

/-! ### A loop that a closure's value leaves -/

/-- Loop: exit with the value of a closure that yields 5. -/
def loopArena : Arena where
  nodes := #[.int 5, .closure .empty ⟨0⟩ .method, .invoke ⟨1⟩ .empty, .loopExit (some ⟨2⟩), .loop ⟨3⟩]
  durational := #[false, false, true, true, true]

/-- A step that is about to run the loop. -/
def World.loopStep : World :=
  let (env, heap) := Environment.new World.oneStep.heap
  { World.oneStep with heap, context := ⟨loopArena, env, .nil, Core.object⟩ }

theorem World.inStep_loopStep : World.loopStep.InStep := by
  refine ⟨⟨fun m id h ↦ ?_, fun m h ↦ ?_⟩, by decide, fun r o ho harmed ↦ ?_⟩
  · cases h
    decide
  · cases h
    decide
  · obtain ⟨_ | i⟩ := r
    · cases ho
      cases harmed
    · cases ho

theorem continuation_agrees_loopStep :
    ∃ (r : Except EvalError Ref) (k : Nat), ∀ m, k ≤ m → ∃ w₁ w₂,
      Machine.attempt ((Engine.ofBudget m).eval ⟨4⟩) World.loopStep = (.ok r, w₁) ∧
      Machine.runContinuation (.ofBudget m) (.new ⟨4⟩) World.loopStep =
        (.ok ({ tasks := [] }, r.map .done), w₂) ∧
      w₁.bare = w₂.bare := by
  have hvalue : ((Engine.plain 12).eval ⟨4⟩ World.loopStep).1 = .ok ⟨2⟩ := rfl
  refine continuation_agrees (n := 12) World.inStep_loopStep ?_ CoreClass.hasDestructor_registry ?_
  · rintro ⟨_ | _ | _ | _ | _ | i⟩ itemClass items hnode <;> cases hnode
  · rw [Engine.Immediate, hvalue]
    simp

end MindScript
