import MindScript.Proofs.Refines

/-!
# Tasks that enact an action

Tasks enact an action of the evaluator if, run on the two stacks of a continuation, they come to the same
end: where the action ends with a result, the tasks are gone and the values of the result lie on the stack
instead of their operands; where it fails, unwinding has come as far as what was below the tasks.  Counts may
differ on the way, since the two give up their temporary values at different times.

The rules say how tasks enact what is put together from actions that they enact.
-/

namespace MindScript

namespace Stack

variable {α : Type}

/-- Push items in turn. -/
def pushAll (s : Stack α) (items : List α) : Stack α := items.foldl push s

@[simp] theorem pushAll_nil (s : Stack α) : s.pushAll [] = s := rfl

@[simp] theorem pushAll_cons (s : Stack α) (x : α) (xs : List α) :
    s.pushAll (x :: xs) = (s.push x).pushAll xs := rfl

@[simp] theorem pushAll_append (s : Stack α) (xs ys : List α) :
    s.pushAll (xs ++ ys) = (s.pushAll xs).pushAll ys :=
  List.foldl_append

theorem items_pushAll (s : Stack α) (xs : List α) : (s.pushAll xs).items = xs.reverse ++ s.items := by
  induction xs generalizing s with
  | nil => rfl
  | cons x rest ih => simpa [pushAll] using ih (s.push x)

theorem height_pushAll (s : Stack α) (xs : List α) : (s.pushAll xs).height = s.height + xs.length := by
  rw [height_eq, items_pushAll, List.length_append, List.length_reverse, ← height_eq, Nat.add_comm]

@[simp] theorem topmost_pushAll (s : Stack α) (xs : List α) : (s.pushAll xs).topmost xs.length = xs := by
  simp [topmost, items_pushAll]

@[simp] theorem drop_pushAll (s : Stack α) (xs : List α) : (s.pushAll xs).drop xs.length = s :=
  ext_items (by simp [items_pushAll])

end Stack

namespace Machine

/-! ### Running tasks -/

/-- Go on after an error: from the construct that handles it, or not at all. -/
def recover (E : Engine) (arena : Arena) (n : Nat) (k : Continuation) (e : EvalError) :
    Machine (Continuation × Except EvalError Step) := do
  match ← unwind k.values e k.tasks with
  | (k, none) => runTasks E arena n k
  | (k, some e) => return (k, .error e)

/-- Go on after a task. -/
def proceed (E : Engine) (arena : Arena) (n : Nat) :
    Continuation × Progress → Machine (Continuation × Except EvalError Step)
  | (k, .running) => runTasks E arena n k
  | (k, .suspend wake) => return (k, .ok (.suspend wake))
  | (k, .failed e) => recover E arena n k e

/-- Tasks that an error passes without a trace. -/
def Task.IsPlain : Task → Bool
  | .eval _ | .discard | .apply _ | .shortCircuit _ _ | .checkBool | .cond _ _ _ => true
  | .popScope | .loop _ _ _ | .guarded _ _ _ _ | .await _ => false

theorem unwind_plain (values : Stack Ref) (e : EvalError) {tasks : List Task} (h : tasks.all Task.IsPlain)
    (rest : List Task) : unwind values e (tasks ++ rest) = unwind values e rest := by
  induction tasks with
  | nil => rfl
  | cons task tasks ih =>
    rw [List.all_cons, Bool.and_eq_true] at h
    have hskip : unwind values e (task :: (tasks ++ rest)) = unwind values e (tasks ++ rest) := by
      cases task with
      | eval id => rfl
      | discard => rfl
      | apply op => rfl
      | shortCircuit op right => rfl
      | checkBool => rfl
      | cond clauses next otherwise => rfl
      | popScope => exact absurd h.1 Bool.false_ne_true
      | loop body depth height => exact absurd h.1 Bool.false_ne_true
      | guarded errorName handler depth height => exact absurd h.1 Bool.false_ne_true
      | await x => exact absurd h.1 Bool.false_ne_true
    exact hskip.trans (ih h.2)

/-! ### Enacting -/

/-- The world runs in a context, and has nothing to destruct. -/
structure At (c : Context) (w : World) : Prop where
  context : w.context = c
  rooted : w.Rooted
  inert : w.Inert

theorem At.same {c : Context} {w w' : World} (h : At c w) (hs : w.Same w') : At c w' := by
  refine ⟨hs.context.trans h.context, ⟨fun m id hm ↦ ?_, fun m hm ↦ ?_⟩, hs.symm.inert⟩
  · rw [hs.minds]
    exact h.rooted.current m id (hs.current ▸ hm)
  · rw [hs.minds]
    exact h.rooted.defaultMind m (hs.defaultMind ▸ hm)

theorem At.holds {c : Context} {w : World} (h : At c w) : Setting.Holds ⟨w.current, w.minds.size, false, none⟩ w :=
  ⟨rfl, Nat.le_refl _, h.rooted⟩

theorem At.onward {c : Context} {w w' w₁ : World} (h : At c w)
    (hon : Onward false w w') (hs : w'.Same w₁) : At c w' := by
  refine ⟨?_, (h.holds.onward hon).rooted, hs.inert⟩
  exact (hon.context rfl).trans h.context

theorem At.run {α : Type} {c : Context} {f g : Machine α} (hfg : ∀ σ, Refines σ f g)
    {w w' : World} {r : Except Interrupt α} (h : At c w) (hf : f w = (r, w')) (hne : r ≠ .error .exhausted) :
    At c w' := by
  obtain ⟨_, -, hs, hon⟩ := hfg _ h.holds (.refl h.inert) hf hne
  exact h.onward hon hs

/-- Where tasks that enact an action stand in the end. -/
def Ends {α : Type} (rest : List Task) (values : Stack Ref) (post : α → List Ref) :
    Except EvalError α → Continuation × Progress → Prop
  | .ok a, s => s = (⟨rest, values.pushAll (post a)⟩, .running)
  | .error e, s => ∃ extra, s = (⟨rest, values.pushAll extra⟩, .failed e)

/-- The first steps of a task, given what lies below it on the two stacks. -/
abbrev Start := Engine → List Task → Stack Ref → Machine (Continuation × Progress)

/-- Tasks above operands. -/
def doing (operands : List Ref) (tasks : List Task) : Start := fun _ rest values ↦
  pure (⟨tasks ++ rest, values.pushAll operands⟩, .running)

/-- What is started comes to an end, in a number of tasks that depends neither on the budget beyond some
bound nor on counts. -/
def Arrives {α : Type} (n : Nat) (c : Context) (start : Start) (post : α → List Ref) (w : World)
    (r : Except EvalError α) (w' : World) : Prop :=
  ∃ j, ∀ m, n ≤ m → ∀ w₁, w.Same w₁ → ∀ rest values, ∃ s w₁', Ends rest values post r s ∧ w'.Same w₁' ∧
    ∀ i, (start (.ofBudget m) rest values >>= proceed (.ofBudget m) c.arena (i + j)) w₁ =
      proceed (.ofBudget m) c.arena i s w₁'

/-- What is started comes to the same end as the action, if that comes to one. -/
def Enacts {α : Type} (n : Nat) (c : Context) (start : Start) (f : Machine α) (post : α → List Ref) : Prop :=
  ∀ ⦃w r w'⦄, At c w → attempt f w = (.ok r, w') → At c w' ∧ Arrives n c start post w r w'

/-! ### Results of actions -/

theorem attempt_bind_cases {α β : Type} {f : Machine α} {F : α → Machine β} {w w' : World}
    {r : Except EvalError β} (h : attempt (f >>= F) w = (.ok r, w')) :
    (∃ a w₀, f w = (.ok a, w₀) ∧ attempt (F a) w₀ = (.ok r, w')) ∨
      ∃ e, r = .error e ∧ f w = (.error (.raised e), w') := by
  rcases hf : f w with ⟨result, w₀⟩
  match result with
  | .ok a =>
    refine .inl ⟨a, w₀, rfl, ?_⟩
    simpa only [attempt, bind_of_ok hf] using h
  | .error (.raised e) =>
    rw [attempt_of_raised (bind_of_error hf)] at h
    obtain ⟨hr, rfl⟩ := Prod.mk.inj h
    exact .inr ⟨e, (Except.ok.inj hr).symm, rfl⟩
  | .error .exhausted =>
    rw [attempt_of_exhausted (bind_of_error hf)] at h
    cases h

namespace Enacts

variable {n : Nat} {c : Context} {α β : Type} {start : Start} {f : Machine α} {post : α → List Ref}

theorem mono (h : Enacts n c start f post) {n' : Nat} (hn : n ≤ n') : Enacts n' c start f post := by
  intro w r w' hw hf
  obtain ⟨hw', j, hj⟩ := h hw hf
  exact ⟨hw', j, fun m hm ↦ hj m (Nat.le_trans hn hm)⟩

/-! ### Rules for tasks -/

theorem task {operands : List Ref} {t : Task}
    (h : Enacts n c (fun E rest values ↦ runTask E c.arena ⟨rest, values.pushAll operands⟩ t) f post) :
    Enacts n c (doing operands [t]) f post := by
  intro w r w' hw hf
  obtain ⟨hw', j, hj⟩ := h hw hf
  refine ⟨hw', j + 1, fun m hm w₁ hs rest values ↦ ?_⟩
  obtain ⟨s, w₁', hends, hs', hrun⟩ := hj m hm w₁ hs rest values
  exact ⟨s, w₁', hends, hs', hrun⟩

theorem pure {p : α → List Ref} (a : α) : Enacts n c (doing (p a) []) (pure a) p := by
  intro w r w' hw hf
  rw [attempt_of_ok (f := Pure.pure a) (w := w) rfl] at hf
  cases hf
  exact ⟨hw, 0, fun m hm w₁ hs rest values ↦ ⟨_, w₁, rfl, hs, fun i ↦ rfl⟩⟩

/-- Tasks in turn.  The second ones may rely on what is known of every result of the first action. -/
theorem seq {mid : α → List Ref} {tasks : List Task} (htasks : tasks.all Task.IsPlain) {P : α → Prop}
    {F : α → Machine β} {post : β → List Ref} (h : Enacts n c start f mid)
    (hP : ∀ w a w', f w = (.ok a, w') → P a)
    (hF : ∀ a, P a → Enacts n c (doing (mid a) tasks) (F a) post) :
    Enacts n c (fun E rest values ↦ start E (tasks ++ rest) values) (f >>= F) post := by
  intro w r w' hw hrun
  rcases attempt_bind_cases hrun with ⟨a, w₀, hf, hrest⟩ | ⟨e, rfl, hf⟩
  · obtain ⟨hw₀, j, hj⟩ := h hw (attempt_of_ok hf)
    obtain ⟨hw', j', hj'⟩ := hF a (hP w a w₀ hf) hw₀ hrest
    refine ⟨hw', j' + j, fun m hm w₁ hs rest values ↦ ?_⟩
    obtain ⟨_, w₂, rfl, hs₂, hfirst⟩ := hj m hm w₁ hs (tasks ++ rest) values
    obtain ⟨s, w₃, hends, hs₃, hsecond⟩ := hj' m hm w₂ hs₂ rest values
    refine ⟨s, w₃, hends, hs₃, fun i ↦ ?_⟩
    rw [← Nat.add_assoc, hfirst]
    exact hsecond i
  · obtain ⟨hw', j, hj⟩ := h hw (attempt_of_raised hf)
    refine ⟨hw', j, fun m hm w₁ hs rest values ↦ ?_⟩
    obtain ⟨_, w₂, ⟨extra, rfl⟩, hs₂, hfirst⟩ := hj m hm w₁ hs (tasks ++ rest) values
    refine ⟨_, w₂, ⟨extra, rfl⟩, hs₂, fun i ↦ ?_⟩
    rw [hfirst]
    simp only [proceed, recover, unwind_plain _ e htasks rest]

/-- More values may lie below the operands. -/
theorem above (h : Enacts n c start f post) (below : List Ref) :
    Enacts n c (fun E rest values ↦ start E rest (values.pushAll below)) f fun a ↦ below ++ post a := by
  intro w r w' hw hf
  obtain ⟨hw', j, hj⟩ := h hw hf
  refine ⟨hw', j, fun m hm w₁ hs rest values ↦ ?_⟩
  obtain ⟨s, w₁', hends, hs', hrun⟩ := hj m hm w₁ hs rest (values.pushAll below)
  refine ⟨s, w₁', ?_, hs', hrun⟩
  cases r with
  | ok a => rw [hends, Ends, Stack.pushAll_append]
  | error e =>
    obtain ⟨extra, rfl⟩ := hends
    exact ⟨below ++ extra, by rw [Stack.pushAll_append]⟩

/-- An action that uses up its budget comes to no end. -/
theorem never (h : ∀ w, At c w → (f w).1 = .error .exhausted) : Enacts n c start f post := by
  intro w r w' hw hf
  rw [attempt_of_exhausted (Prod.ext (h w hw) rfl)] at hf
  cases hf

/-- Another start that, wherever the action comes to an end, does the same up to counts. -/
theorem restart {start' : Start} (h : Enacts n c start f post)
    (heq : ∀ ⦃w r w'⦄, At c w → attempt f w = (.ok r, w') → ∀ w₁, w.Same w₁ → ∃ w₂, w₁.Same w₂ ∧
      ∀ E rest values, start' E rest values w₁ = start E rest values w₂) : Enacts n c start' f post := by
  intro w r w' hw hf
  obtain ⟨hw', j, hj⟩ := h hw hf
  refine ⟨hw', j, fun m hm w₁ hs rest values ↦ ?_⟩
  obtain ⟨w₂, hs₂, hstart⟩ := heq hw hf w₁ hs
  obtain ⟨s, w₁', hends, hs', hrun⟩ := hj m hm w₂ (hs.trans hs₂) rest values
  refine ⟨s, w₁', hends, hs', fun i ↦ ?_⟩
  rw [← hrun i]
  exact bind_of_eq (hstart _ rest values)

theorem congr (h : Enacts n c start f post) {start' : Start}
    (heq : ∀ E rest values w, w.context = c → start' E rest values w = start E rest values w) :
    Enacts n c start' f post :=
  h.restart fun _ _ _ hw _ w₁ hs ↦ ⟨w₁, .refl hs.symm.inert, fun E rest values ↦
    heq E rest values w₁ (hs.context.trans hw.context)⟩

/-! ### Counts do not matter -/

/-- Another action that comes to the same end up to counts, from a world that is the same up to counts. -/
theorem recount {g : Machine α} (h : Enacts n c start f post)
    (hg : ∀ ⦃w r w'⦄, At c w → attempt g w = (.ok r, w') →
      ∃ w₀ w₀', w.Same w₀ ∧ attempt f w₀ = (.ok r, w₀') ∧ (At c w₀' → w₀'.Same w')) :
    Enacts n c start g post := by
  intro w r w' hw hrun
  obtain ⟨w₀, w₀', hs₀, hf, hend⟩ := hg hw hrun
  obtain ⟨hw₀', j, hj⟩ := h (hw.same hs₀) hf
  refine ⟨hw₀'.same (hend hw₀'), j, fun m hm w₁ hs rest values ↦ ?_⟩
  obtain ⟨s, w₁', hends, hs', hrun'⟩ := hj m hm w₁ (hs₀.symm.trans hs) rest values
  exact ⟨s, w₁', hends, (hend hw₀').symm.trans hs', hrun'⟩

theorem congr_action {g : Machine α} (h : Enacts n c start f post) (heq : ∀ w, At c w → g w = f w) :
    Enacts n c start g post := by
  refine h.recount fun w r w' hw hg ↦ ⟨w, w', .refl hw.inert, ?_, fun hw' ↦ .refl hw'.inert⟩
  rw [← hg]
  exact (attempt_of_eq (heq w hw)).symm

/-- What is given up in the end. -/
theorem elseRelease (h : Enacts n c start f post) (held : List Ref) :
    Enacts n c start (elseRelease f held) post := by
  refine h.recount fun w r w' hw hg ↦ ?_
  rcases hf : f w with ⟨result, w₀⟩
  match result with
  | .ok a =>
    have heq : Machine.elseRelease f held w = (.ok a, w₀) := by simp only [Machine.elseRelease, hf]
    rw [attempt_of_ok heq] at hg
    cases hg
    exact ⟨w, w', .refl hw.inert, attempt_of_ok hf, fun hw' ↦ .refl hw'.inert⟩
  | .error (.raised e) =>
    have heq : Machine.elseRelease f held w = (.error (.raised e), w₀.release (held.map .object)) := by
      simp only [Machine.elseRelease, hf]
    rw [attempt_of_raised heq] at hg
    cases hg
    exact ⟨w, w₀, .refl hw.inert, attempt_of_raised hf, fun hw₀ ↦ .release_right (.refl hw₀.inert) _⟩
  | .error .exhausted =>
    have heq : Machine.elseRelease f held w = (.error .exhausted, w₀) := by simp only [Machine.elseRelease, hf]
    rw [attempt_of_exhausted heq] at hg
    cases hg

theorem thenRelease (h : Enacts n c start f post) (held : List Ref) :
    Enacts n c start (thenRelease f held) post := by
  refine h.recount fun w r w' hw hg ↦ ?_
  rcases hf : f w with ⟨result, w₀⟩
  match result with
  | .ok a =>
    have heq : Machine.thenRelease f held w = (.ok a, w₀.release (held.map .object)) := by
      simp only [Machine.thenRelease, hf]
    rw [attempt_of_ok heq] at hg
    cases hg
    exact ⟨w, w₀, .refl hw.inert, attempt_of_ok hf, fun hw₀ ↦ .release_right (.refl hw₀.inert) _⟩
  | .error (.raised e) =>
    have heq : Machine.thenRelease f held w = (.error (.raised e), w₀.release (held.map .object)) := by
      simp only [Machine.thenRelease, hf]
    rw [attempt_of_raised heq] at hg
    cases hg
    exact ⟨w, w₀, .refl hw.inert, attempt_of_raised hf, fun hw₀ ↦ .release_right (.refl hw₀.inert) _⟩
  | .error .exhausted =>
    have heq : Machine.thenRelease f held w = (.error .exhausted, w₀) := by simp only [Machine.thenRelease, hf]
    rw [attempt_of_exhausted heq] at hg
    cases hg

theorem release_bind {F : Unit → Machine α} (h : Enacts n c start (F ()) post) (ls : List Link) :
    Enacts n c start (releaseLinks ls >>= F) post :=
  h.recount fun w _ w' hw hg ↦ ⟨w.release ls, w', .release_right (.refl hw.inert) ls, hg, fun hw' ↦ .refl hw'.inert⟩

theorem share_bind {F : Ref → Machine α} {r : Ref} (h : Enacts n c start (F r) post) :
    Enacts n c start (share r >>= F) post :=
  h.recount fun w _ w' hw hg ↦ ⟨w.retain (.object r), w', .retain_right (.refl hw.inert) _, hg,
    fun hw' ↦ .refl hw'.inert⟩

/-! ### Rules for actions that a task carries out itself -/

variable {F : α → Machine β} {post' : β → List Ref}

/-- The first part of an action has ended, and with it the first part of the task. -/
theorem after {g : Engine → Machine α}
    (hg : ∀ m, n ≤ m → ∀ σ, Refines σ f (g (.ofBudget m))) {w w₀ w' : World} {a : α} {r : Except EvalError β}
    (hw : At c w) (hf : f w = (.ok a, w₀)) (hrest : attempt (F a) w₀ = (.ok r, w')) {next : Start}
    (hF : Enacts n c next (F a) post')
    (hstart : ∀ E w₁ w₂, g E w₁ = (.ok a, w₂) → ∀ rest values, start E rest values w₁ = next E rest values w₂) :
    At c w' ∧ Arrives n c start post' w r w' := by
  obtain ⟨hw', j, hj⟩ := hF (hw.run (hg n (Nat.le_refl n)) hf (by simp)) hrest
  refine ⟨hw', j, fun m hm w₁ hs rest values ↦ ?_⟩
  obtain ⟨w₂, hg₂, hs₂, -⟩ := hg m hm _ hw.holds hs hf (by simp)
  obtain ⟨s, w₃, hends, hs₃, hrun₃⟩ := hj m hm w₂ hs₂ rest values
  refine ⟨s, w₃, hends, hs₃, fun i ↦ ?_⟩
  rw [← hrun₃ i]
  exact bind_of_eq (hstart _ w₁ w₂ hg₂ rest values)

/-- Go on with the result of an action, or fail. -/
def orFail (next : α → Start) (E : Engine) (rest : List Task) (values : Stack Ref) :
    Except EvalError α → Machine (Continuation × Progress)
  | .ok a => next a E rest values
  | .error e => Pure.pure (⟨rest, values⟩, .failed e)

/-- An action that may fail. -/
theorem attempted {g : Engine → Machine α}
    (hg : ∀ m, n ≤ m → ∀ σ, Refines σ f (g (.ofBudget m))) {next : α → Start}
    (hF : ∀ a, Enacts n c (next a) (F a) post') :
    Enacts n c (fun E rest values ↦ attempt (g E) >>= orFail next E rest values) (f >>= F) post' := by
  intro w r w' hw hrun
  rcases attempt_bind_cases hrun with ⟨a, w₀, hf, hrest⟩ | ⟨e, rfl, hf⟩
  · refine after hg hw hf hrest (hF a) fun E w₁ w₂ hg₂ rest values ↦ ?_
    exact bind_of_ok (attempt_of_ok hg₂)
  · refine ⟨hw.run (hg n (Nat.le_refl n)) hf (by simp), 0, fun m hm w₁ hs rest values ↦ ?_⟩
    obtain ⟨w₂, hg₂, hs₂, -⟩ := hg m hm _ hw.holds hs hf (by simp)
    refine ⟨_, w₂, ⟨[], rfl⟩, hs₂, fun i ↦ ?_⟩
    exact bind_of_ok (bind_of_ok (attempt_of_raised hg₂))

/-- An action that cannot fail. -/
theorem calmly (hcalm : Calm f) {g : Engine → Machine α}
    (hg : ∀ m, n ≤ m → ∀ σ, Refines σ f (g (.ofBudget m))) {next : α → Start}
    (hF : ∀ a, Enacts n c (next a) (F a) post') :
    Enacts n c (fun E rest values ↦ g E >>= fun a ↦ next a E rest values) (f >>= F) post' := by
  intro w r w' hw hrun
  rcases attempt_bind_cases hrun with ⟨a, w₀, hf, hrest⟩ | ⟨e, rfl, hf⟩
  · refine after hg hw hf hrest (hF a) fun E w₁ w₂ hg₂ rest values ↦ ?_
    exact bind_of_ok hg₂
  · exact absurd (congrArg Prod.fst hf) (hcalm w e)

/-- An action whose value a task leaves on the stack. -/
theorem yield {f : Machine Ref} {g : Engine → Machine Ref}
    (hg : ∀ m, n ≤ m → ∀ σ, Refines σ f (g (.ofBudget m))) :
    Enacts n c (fun E rest values ↦ yieldValue ⟨rest, values⟩ (g E)) f fun v ↦ [v] := by
  rw [← bind_pure f]
  refine (attempted hg fun v ↦ pure (p := fun v ↦ [v]) v).congr fun E rest values w _ ↦ ?_
  refine congrArg (fun next ↦ (attempt (g E) >>= next) w) (funext fun r ↦ ?_)
  cases r with
  | ok v => rfl
  | error e => rfl

/-- As `yield`, for an action that cannot fail. -/
theorem push {f : Machine Ref} (hcalm : Calm f)
    (hf : ∀ σ, Refines σ f f) :
    Enacts n c (fun _ rest values ↦ f >>= fun v ↦ Pure.pure (⟨rest, values.push v⟩, .running)) f
      fun v ↦ [v] := by
  have h : Enacts n c (fun E rest values ↦ f >>= fun v ↦ doing [v] [] E rest values) (f >>= Pure.pure)
      fun v ↦ [v] := calmly hcalm (fun _ _ ↦ hf) fun v ↦ pure (p := fun v ↦ [v]) v
  rw [bind_pure] at h
  exact h

theorem raise (e : EvalError) :
    Enacts n c (fun _ rest values ↦ Pure.pure (⟨rest, values⟩, .failed e)) (raise e : Machine α) post := by
  intro w r w' hw hf
  rw [attempt_of_raised (f := Machine.raise e) (w := w) rfl] at hf
  cases hf
  exact ⟨hw, 0, fun m hm w₁ hs rest values ↦ ⟨_, w₁, ⟨[], rfl⟩, hs, fun i ↦ rfl⟩⟩

/-- A task that leaves the value of an action on the stack. -/
theorem yieldTask {f : Machine Ref} {operands : List Ref} {t : Task}
    {g : Engine → Machine Ref} (hg : ∀ m, n ≤ m → ∀ σ, Refines σ f (g (.ofBudget m)))
    (ht : ∀ E rest values, runTask E c.arena ⟨rest, values.pushAll operands⟩ t =
      yieldValue ⟨rest, values⟩ (g E)) : Enacts n c (doing operands [t]) f fun v ↦ [v] :=
  task ((yield hg).congr fun E rest values w _ ↦ by rw [ht])

/-- Tasks above operands in turn. -/
theorem append {operands : List Ref} {tasks tasks' : List Task} {mid : α → List Ref}
    (htasks : tasks'.all Task.IsPlain) {P : α → Prop} (h : Enacts n c (doing operands tasks) f mid)
    (hP : ∀ w a w', f w = (.ok a, w') → P a)
    (hF : ∀ a, P a → Enacts n c (doing (mid a) tasks') (F a) post') :
    Enacts n c (doing operands (tasks ++ tasks')) (f >>= F) post' := by
  refine (seq htasks h hP hF).congr fun E rest values w _ ↦ ?_
  simp only [doing, List.append_assoc]

/-- A task before others. -/
theorem cons {operands : List Ref} {t : Task} {tasks : List Task} {mid : α → List Ref}
    (htasks : tasks.all Task.IsPlain) (h : Enacts n c (doing operands [t]) f mid)
    (hF : ∀ a, Enacts n c (doing (mid a) tasks) (F a) post') :
    Enacts n c (doing operands (t :: tasks)) (f >>= F) post' :=
  append (P := fun _ ↦ True) htasks h (fun _ _ _ _ ↦ trivial) fun a _ ↦ hF a

theorem doing_above {operands : List Ref} {tasks : List Task} (h : Enacts n c (doing operands tasks) f post)
    (below : List Ref) : Enacts n c (doing (below ++ operands) tasks) f fun a ↦ below ++ post a := by
  refine (h.above below).congr fun E rest values w _ ↦ ?_
  simp only [doing, Stack.pushAll_append]

end Enacts

end Machine

end MindScript
