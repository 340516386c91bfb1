import MindScript.Proofs.Continuation.Operands

/-!
# Each expression comes to one value

In every stage that a body gets to, the next task finds its operands on the value stack.  So an expression of the body unfolds
as a body of its own does, on top of the tasks and values that were there before it, whatever fails, sleeps or starts anew on the
way.  When its tasks are done it has left one value and nothing else; and so has the whole body.
-/

namespace MindScript

open Machine

variable {a : Arena} {P : Knowledge} {body id : ExprId} {e₀ env : Environment} {past past' : List Stage} {s : Stage}
  {k : Continuation} {task : Task} {rest outer : List Task} {below : Stack Ref}

/-! ### What is on the stack -/

/-- Each task finds what it takes. -/
theorem Ready.operands_le {n : ℕ} {base : Stack Ref} (h : Ready a P e₀ (task :: rest) n base env) : task.operands a ≤ n := by
  cases h with
  | value htakes _ => cases htakes <;> exact Nat.le_add_left _ _
  | discard _ => exact Nat.le_add_left 1 _
  | popScope _ _ => exact Nat.zero_le _
  | handler hnotes _ _ =>
    cases hnotes with
    | loop _ => exact Nat.le_refl 1
    | guarded _ _ => exact Nat.zero_le 1

/-- A handler comes up with one value on those that were there when it was left behind, and in the same scopes. -/
theorem Ready.of_handler {n depth height : ℕ} {base : Stack Ref} (hnotes : task.Notes depth height)
    (h : Ready a P e₀ (task :: outer) n base env) : n = 1 ∧ P task outer base env := by
  cases h with
  | value htakes _ => cases hnotes <;> cases htakes
  | discard _ => cases hnotes
  | popScope _ _ => cases hnotes
  | handler _ hknown _ => exact ⟨rfl, hknown⟩

theorem Ready.of_eval {n : ℕ} {base : Stack Ref} (h : Ready a P e₀ (.eval id :: rest) n base env) :
    Ready a P e₀ rest (n + 1) base env := by
  cases h with
  | value htakes hready =>
    cases htakes
    exact hready
  | handler hnotes _ _ => cases hnotes

namespace Continuation.InOrder

theorem operands_le (h : k.InOrder a P e₀ env) (htasks : k.tasks = task :: rest) : task.operands a ≤ k.height := by
  obtain ⟨n, base, vs, rfl, hvalues, hready⟩ := h
  rw [htasks] at hready
  have hle := hready.operands_le
  rw [height, hvalues, Stack.height_pushAll]
  omega

/-- Where all tasks are done, one value is left. -/
theorem last (h : k.InOrder a P e₀ env) (htasks : k.tasks = []) : ∃ v, k.values = .ofList [v] := by
  obtain ⟨n, base, vs, hn, hvalues, hready⟩ := h
  rw [htasks] at hready
  cases hready
  obtain ⟨v, rfl⟩ := List.length_eq_one_iff.mp hn
  exact ⟨v, hvalues⟩

/-- At the end of a round there is one value more than there were when the loop was entered. -/
theorem ends {depth height : ℕ} (h : k.InOrder a P e₀ env) (htasks : k.tasks = .loop body depth height :: outer) :
    ∃ values v, P (.loop body depth height) outer values env ∧ k.values = values.push v := by
  obtain ⟨n, base, vs, hn, hvalues, hready⟩ := h
  rw [htasks] at hready
  obtain ⟨rfl, hknown⟩ := hready.of_handler (.loop body)
  obtain ⟨v, rfl⟩ := List.length_eq_one_iff.mp hn
  exact ⟨base, v, hknown, hvalues⟩

/-- At the start of a round the values are those with which the loop was entered. -/
theorem starts {depth height : ℕ} (h : k.InOrder a P e₀ env) (htasks : k.tasks = .eval id :: .loop body depth height :: outer) :
    P (.loop body depth height) outer k.values env := by
  obtain ⟨n, base, vs, hn, hvalues, hready⟩ := h
  rw [htasks] at hready
  obtain ⟨hzero, hknown⟩ := hready.of_eval.of_handler (.loop body)
  obtain rfl : vs = [] := List.length_eq_zero_iff.mp (hn.trans (Nat.succ.inj hzero))
  rw [hvalues]
  exact hknown

end Continuation.InOrder

theorem Unfolds.operands_le (h : Unfolds a body e₀ past s) (hclosed : a.Closed) (htasks : s.rest.tasks = task :: rest) :
    task.operands a ≤ s.rest.height :=
  (h.inOrder hclosed).operands_le htasks

/-! ### Expressions inside a body -/

namespace Stage

/-- The stage on top of other tasks and values. -/
def onTop (s : Stage) (outer : List Task) (below : Stack Ref) : Stage := ⟨s.rest.onTop outer below, s.env⟩

/-- There is still something to do before the given tasks come up. -/
def Above (s : Stage) (outer : List Task) : Prop := ∃ task inner, s.rest.tasks = task :: inner ++ outer

end Stage

/-- The task that catches an error is below the ones that do not. -/
theorem exists_of_skipped {e : EvalError} {inner tasks outer' : List Task} (hskip : ∀ t ∈ inner, t.catches e = false)
    (hcatches : task.catches e = true) (htasks : inner ++ outer = tasks ++ task :: outer') :
    ∃ between, outer = between ++ task :: outer' := by
  rcases List.append_eq_append_iff.mp htasks with ⟨between, -, houter⟩ | ⟨between, hinner, hrest⟩
  · exact ⟨between, houter⟩
  · cases between with
    | nil => exact ⟨[], hrest.symm⟩
    | cons t between =>
      obtain ⟨rfl, -⟩ := List.cons.inj hrest
      have hmem : task ∈ inner := hinner ▸ List.mem_append_right _ List.mem_cons_self
      rw [hskip task hmem] at hcatches
      cases hcatches

/-- Unwinding that passes the upper tasks takes a task off those below. -/
theorem Unwound.not_suffix {e : EvalError} {w w' : World} {inner : List Task} {k' : Continuation}
    (h : Unwound P e₀ w (inner ++ outer) e (k', none) w') (hskip : ∀ t ∈ inner, t.catches e = false) :
    ¬ outer <:+ k'.tasks := by
  intro hsuffix
  cases h with
  | left htasks _ hexit _ _ =>
    obtain ⟨between, rfl⟩ := exists_of_skipped hskip (by simp [Task.catches, EvalError.isLoopExit, hexit]) htasks
    have hle := hsuffix.length_le
    simp only [List.length_append, List.length_cons] at hle
    omega
  | caught htasks _ hexit _ _ _ =>
    obtain ⟨between, rfl⟩ := exists_of_skipped hskip (by simp [Task.catches, EvalError.isLoopExit, hexit]) htasks
    -- One task at most would stand above the guarded body, and below the handler the scope is closed first.
    obtain ⟨above, habove⟩ := hsuffix
    rw [← List.append_assoc] at habove
    have hlength : (above ++ between).length = 1 := by
      have heq := congrArg List.length habove
      simp only [List.length_append, List.length_cons] at heq ⊢
      omega
    obtain ⟨t, ht⟩ := List.length_eq_one_iff.mp hlength
    rw [ht] at habove
    cases habove

/-- What comes next on top of other tasks comes next without them, as long as they are not unwound. -/
theorem Stage.Goes.within {s' : Stage} (hgoes : (s.onTop outer below).Goes a s') (hclosed : a.Closed)
    (hwhole : Unfolds a body e₀ past (s.onTop outer below)) (h : Unfolds a id env past' s) (hne : s.rest.tasks ≠ [])
    (hsuffix : outer <:+ s'.rest.tasks) : ∃ s₁, s.Goes a s₁ ∧ s' = s₁.onTop outer below := by
  obtain ⟨⟨tasks, values⟩, env⟩ := s
  cases tasks with
  | nil => exact absurd rfl hne
  | cons task rest =>
    have hle := h.operands_le hclosed rfl
    have hlifts (E : Engine) : Lifts outer below (runTask E a ⟨rest, values⟩ task)
        (runTask E a (Continuation.onTop ⟨rest, values⟩ outer below) (task.raise below.height)) := .runTask hle
    simp only [Stage.onTop, Continuation.onTop, List.map_cons, List.cons_append] at hgoes hwhole
    cases hgoes with
    | runs hE hw ha hrun =>
      obtain ⟨k, hrun', rfl⟩ := (hlifts _).exists_of_ok hrun
      exact ⟨_, .runs hE hw ha hrun', rfl⟩
    | sleeps hE hw ha hrun =>
      obtain ⟨k, hrun', rfl⟩ := (hlifts _).exists_of_ok hrun
      exact ⟨_, .sleeps hE hw ha hrun', rfl⟩
    | recovers hfails hunwind =>
      obtain ⟨-, r, w', hunwind', hunwound⟩ := hwhole.unwound hclosed hfails
      cases hunwind'.symm.trans hunwind
      cases hfails with
      | intro hE hw ha hrun =>
        obtain ⟨k, hrun', rfl⟩ := (hlifts _).exists_of_ok hrun
        obtain ⟨-, ⟨k₁, e?⟩, w₁, hunwind₁, hunwound₁⟩ := h.unwound hclosed (.intro hE hw ha hrun')
        cases e? with
        | none =>
          cases (unwind_onTop hunwind₁).symm.trans hunwind
          exact ⟨_, .recovers (.intro hE hw ha hrun') hunwind₁, rfl⟩
        | some e =>
          cases hunwound₁ with
          | escaped hskip _ => exact absurd hsuffix (hunwound.not_suffix (by simpa using hskip))

namespace Unfolds

/-- As long as the tasks below an expression have not come up, the expression unfolds on top of them as a body of its own. -/
theorem within {later earlier : List Stage} {values : Stack Ref} (hclosed : a.Closed)
    (h : Unfolds a body e₀ (later ++ ⟨⟨.eval id :: outer, values⟩, env⟩ :: earlier) s) (habove : ∀ s' ∈ later, s'.Above outer)
    (hsuffix : outer <:+ s.rest.tasks) : ∃ past' s', Unfolds a id env past' s' ∧ s = s'.onTop outer values := by
  induction later generalizing s with
  | nil =>
    cases h with
    | next h hgoes =>
      have hnew : (⟨⟨.eval id :: outer, values⟩, env⟩ : Stage) = Stage.onTop ⟨.new id, env⟩ outer values := rfl
      rw [hnew] at h hgoes
      obtain ⟨s₁, hgoes₁, rfl⟩ := hgoes.within hclosed h .start (List.cons_ne_nil _ _) hsuffix
      exact ⟨_, s₁, .next .start hgoes₁, rfl⟩
  | cons s' later ih =>
    obtain ⟨⟨task, inner, htasks⟩, habove⟩ := List.forall_mem_cons.mp habove
    cases h with
    | next h hgoes =>
      obtain ⟨past', t, ht, rfl⟩ := ih h habove ⟨task :: inner, htasks.symm⟩
      have hne : t.rest.tasks ≠ [] := by
        intro hnil
        have hlength := congrArg List.length htasks
        simp only [Stage.onTop, Continuation.onTop, hnil, List.map_nil, List.nil_append, List.cons_append, List.length_cons,
          List.length_append] at hlength
        omega
      obtain ⟨t₁, hgoes₁, rfl⟩ := hgoes.within hclosed h ht hne hsuffix
      exact ⟨_, t₁, ht.next hgoes₁, rfl⟩

end Unfolds

/-! ### The values of a stage -/

/-- The values are those that the tasks count on, neither fewer nor more. -/
structure Stage.Orderly (a : Arena) (past : List Stage) (s : Stage) : Prop where
  /-- The next task finds its operands.  It comes to the same whatever lies below them, and leaves that alone; a task that ran
  out of values would go on with those. -/
  operands : ∀ task rest, s.rest.tasks = task :: rest → task.operands a ≤ s.rest.height ∧
    ∀ E outer below, Lifts outer below (runTask E a ⟨rest, s.rest.values⟩ task)
      (runTask E a (Continuation.onTop ⟨rest, s.rest.values⟩ outer below) (task.raise below.height))
  /-- An expression that is done has left one value on top of those that were there before it. -/
  evaluated : ∀ id outer values env later earlier, past = later ++ ⟨⟨.eval id :: outer, values⟩, env⟩ :: earlier →
    (∀ s' ∈ later, s'.Above outer) → s.rest.tasks = outer → ∃ v, s.rest.values = values.push v
  /-- Each round of a loop starts with the values with which the loop was entered. -/
  starts : ∀ id body depth height outer, s.rest.tasks = .eval id :: .loop body depth height :: outer →
    Entered a past (.loop body depth height) outer s.rest.values s.env
  /-- Each round of a loop ends with one value more. -/
  ends : ∀ body depth height outer, s.rest.tasks = .loop body depth height :: outer →
    ∃ values v, Entered a past (.loop body depth height) outer values s.env ∧ s.rest.values = values.push v
  /-- A body that is done has left one value. -/
  last : s.rest.tasks = [] → ∃ v, s.rest.values = .ofList [v]

namespace Unfolds

theorem last (h : Unfolds a body e₀ past s) (hclosed : a.Closed) (htasks : s.rest.tasks = []) :
    ∃ v, s.rest.values = .ofList [v] :=
  (h.inOrder hclosed).last htasks

theorem orderly (h : Unfolds a body e₀ past s) (hclosed : a.Closed) : s.Orderly a past where
  operands task rest htasks := by
    have hle := h.operands_le hclosed htasks
    exact ⟨hle, fun E outer below ↦ .runTask hle⟩
  evaluated id outer values env later earlier hpast habove htasks := by
    subst hpast
    obtain ⟨past', s', h', rfl⟩ := h.within hclosed habove (htasks ▸ List.suffix_rfl)
    have hdone : s'.rest.tasks = [] := by simpa [Stage.onTop, Continuation.onTop] using htasks
    obtain ⟨v, hv⟩ := h'.last hclosed hdone
    exact ⟨v, congrArg (Stack.onTop · values) hv⟩
  starts _ _ _ _ _ htasks := (h.inOrder hclosed).starts htasks
  ends _ _ _ _ htasks := (h.inOrder hclosed).ends htasks
  last htasks := h.last hclosed htasks

variable {E : Engine} {w w' : World} {k' : Continuation} {value : Ref}

/-- A run that comes to a value comes to a stage with no tasks and with that value alone. -/
theorem done (h : Unfolds a body e₀ past ⟨k, w.context.env⟩) (hclosed : a.Closed) (hE : E.Balanced) (hw : w.Rooted)
    (ha : w.context.arena = a) {n : ℕ} (hrun : runTasks E a n k w = (.ok (k', .ok (.done value)), w')) :
    ∃ past' env, Unfolds a body e₀ past' ⟨⟨[], .ofList [value]⟩, env⟩ := by
  induction n generalizing past k w with
  | zero => cases hrun
  | succ n ih =>
    obtain ⟨tasks, values⟩ := k
    cases tasks with
    | nil =>
      obtain ⟨v, rfl⟩ := h.last hclosed rfl
      cases hrun
      exact ⟨past, _, h⟩
    | cons task rest =>
      obtain ⟨⟨k₁, progress⟩, w₁, htask, hrun⟩ := exists_of_bind_eq_ok hrun
      have hw₁ := (Alike.runTask rfl a _ task).rooted hE hw htask
      have ha₁ := (arena_runTask hE hw htask).trans ha
      cases progress with
      | running => exact ih (h.next (.runs hE hw ha htask)) hw₁ ha₁ hrun
      | suspend wake => cases hrun
      | failed e =>
        obtain ⟨⟨k₂, e?⟩, w₂, hunwind, hrun⟩ := exists_of_bind_eq_ok hrun
        cases e? with
        | some e' => cases hrun
        | none =>
          exact ih (h.next (.recovers (.intro hE hw ha htask) hunwind))
            ((Alike.unwind rfl k₁.values e k₁.tasks).rooted hE hw₁ hunwind) ((arena_unwind hunwind).trans ha₁) hrun

end Unfolds

end MindScript
