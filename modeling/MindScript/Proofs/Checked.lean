import MindScript.Proofs.Balance

/-!
# Runs that are checked after each step

An engine can be made to give up where a step has ended in a world that it should not have ended in.  A run
that such an engine does not give up is the run of the budget.  So what is known of the worlds between steps
for some other reason can be relied on in proofs about runs.
-/

namespace MindScript

open Machine

/-- Give up in the end unless the world is as it should be. -/
def Machine.checked {α : Type} (ok : World → Bool) (f : Machine α) : Machine α := do
  let a ← f
  if ok (← get) then return a else exhausted

/-- The engine of a budget, which checks the world after each step of a frame. -/
def Engine.checked (ok : World → Bool) : Nat → Engine
  | 0 => .empty
  | n + 1 => {
      budget := n
      eval := fun id ↦ evalNode (checked ok n) id
      invoke := fun this m args ↦ invokeMember (checked ok n) this m args
      resume := fun m id ↦ Machine.checked ok (resumeFrame (checked ok n) m id) }

theorem Engine.budget_checked (ok : World → Bool) (n : Nat) : (Engine.checked ok n).budget = (Engine.ofBudget n).budget := by
  cases n with
  | zero => rfl
  | succ n => rw [Engine.checked, Engine.ofBudget]

/-! ### Actions that end in the same way, unless they are given up -/

namespace Machine

variable {ok : World → Bool} {α β : Type} {f g : Machine α} {w : World}

/-- In this world the first action does what the second one does, or it is given up in a world that it should not
have come to. -/
def Tallies (ok : World → Bool) (f g : Machine α) (w : World) : Prop :=
  f w = g w ∨ ∃ v, f w = (.error .exhausted, v) ∧ ok v = false

namespace Tallies

theorem refl (ok : World → Bool) (f : Machine α) (w : World) : Tallies ok f f w := .inl rfl

theorem bind {F G : α → Machine β} (hf : Tallies ok f g w)
    (hF : ∀ a w₁, f w = (.ok a, w₁) → Tallies ok (F a) (G a) w₁) : Tallies ok (f >>= F) (g >>= G) w := by
  rcases hf with heq | ⟨v, hv, hok⟩
  · rcases hrun : f w with ⟨i | a, w₁⟩
    · left
      rw [bind_of_error hrun, bind_of_error (heq.symm.trans hrun)]
    · have hrest := hF a w₁ hrun
      rwa [Tallies, bind_of_ok hrun, bind_of_ok (heq.symm.trans hrun)]
  · exact .inr ⟨v, bind_of_error hv, hok⟩

theorem look {F G : World → Machine α} (h : Tallies ok (F w) (G w) w) : Tallies ok (get >>= F) (get >>= G) w := h

theorem modified {F : World → World} {f g : Machine α} (h : Tallies ok f g (F w)) :
    Tallies ok (modify F >>= fun _ ↦ f) (modify F >>= fun _ ↦ g) w := h

theorem attempt (hf : Tallies ok f g w) : Tallies ok (attempt f) (attempt g) w := by
  rcases hf with heq | ⟨v, hv, hok⟩
  · left
    simp only [Machine.attempt, heq]
  · exact .inr ⟨v, attempt_of_exhausted hv, hok⟩

/-- What follows an action may look at how it has ended. -/
theorem around {w₀ : World} {f' g' : Machine β} {K : Except EvalError α → Machine β} (hf : Tallies ok f g w₀)
    (hf' : f' w = (Machine.attempt f >>= K) w₀) (hg' : g' w = (Machine.attempt g >>= K) w₀) : Tallies ok f' g' w := by
  have hrest := hf.attempt.bind fun r w₁ _ ↦ refl ok (K r) w₁
  rwa [Tallies, hf', hg']

theorem withContext {c : Context} (hf : Tallies ok f g { w with context := c }) :
    Tallies ok (withContext c f) (withContext c g) w :=
  around (K := fun r ↦ do
    let after := (← get).context
    modify fun v ↦ { v with context := w.context }
    return (r, after)) hf rfl rfl

theorem withInvocation {i : Invocation} {held : List Ref}
    (hf : ∀ s, w.callStack.push i = .ok s → Tallies ok f g { w with callStack := s }) :
    Tallies ok (withInvocation i held f) (withInvocation i held g) w := by
  refine look ?_
  dsimp only
  cases hpush : w.callStack.push i with
  | error e => exact refl ok _ w
  | ok s => exact modified ((hf s hpush).attempt.bind fun _ _ _ ↦ refl ok _ _)

theorem inScope {f g : Machine Ref} (hf : Tallies ok f g (pushScope w).2) : Tallies ok (inScope f) (inScope g) w :=
  around (K := fun r ↦ popScope >>= fun _ ↦ Machine.ofExcept r) hf rfl rfl

theorem rescue {f g : Machine Ref} {F G : EvalError → Machine Ref} {catches : EvalError → Bool} (hf : Tallies ok f g w)
    (hF : ∀ e w₁, f w = (.error (.raised e), w₁) → Tallies ok (F e) (G e) (truncateScopes w.context.env.depth w₁).2) :
    Tallies ok (rescue f catches F) (rescue g catches G) w := by
  refine look (hf.attempt.bind fun r w₁ hw₁ ↦ ?_)
  cases r with
  | ok value => exact refl ok _ w₁
  | error e =>
    have hraised : f w = (.error (.raised e), w₁) := by
      rcases hrun : f w with ⟨(_ | _) | _, w'⟩
      · rw [attempt_of_raised hrun] at hw₁
        cases hw₁
        rfl
      · rw [attempt_of_exhausted hrun] at hw₁
        cases hw₁
      · rw [attempt_of_ok hrun] at hw₁
        cases hw₁
    dsimp only
    split
    · exact modified (hF e w₁ hraised)
    · exact refl ok _ w₁

theorem whenIdle {f g : Machine Nat} {m : MindId} (hf : Tallies ok f g w) : Tallies ok (whenIdle m f) (whenIdle m g) w := by
  refine look ?_
  split
  · exact refl ok _ w
  · split
    · exact refl ok _ w
    · exact hf

/-- Only the end of a step is checked. -/
theorem checked (hf : Tallies ok f g w) : Tallies ok (Machine.checked ok f) g w := by
  rcases hf with heq | ⟨v, hv, hok⟩
  · rcases hrun : f w with ⟨i | a, w₁⟩
    · left
      rw [Machine.checked, bind_of_error hrun, ← heq, hrun]
    · cases hok : ok w₁ with
      | true =>
        left
        rw [Machine.checked, bind_of_ok hrun, get_bind, hok, ← heq, hrun]
        rfl
      | false =>
        right
        refine ⟨w₁, ?_, hok⟩
        rw [Machine.checked, bind_of_ok hrun, get_bind, hok]
        rfl
  · exact .inr ⟨v, bind_of_error hv, hok⟩

theorem stepInvocation {E E' : Engine} {m : MindId} {id : FrameId} {i : Invocation} {frame : Frame}
    {delivered : Option Ref} (hf : ∀ s, w.callStack.push i = .ok s →
      Tallies ok (stepBody E m id frame delivered) (stepBody E' m id frame delivered) { w with callStack := s }) :
    Tallies ok (stepInvocation E m id i frame delivered) (stepInvocation E' m id i frame delivered) w := by
  refine look ?_
  dsimp only
  cases hpush : w.callStack.push i with
  | error e => exact refl ok _ w
  | ok s => exact modified ((hf s hpush).attempt.bind fun _ _ _ ↦ refl ok _ _)

theorem resumeFrame {E E' : Engine} {m : MindId} {id : FrameId} (hf : ∀ entry frame i s, w.entryAt m id = some entry →
      w.callStack.push i = .ok s → Tallies ok (stepBody E m id frame entry.delivered)
        (stepBody E' m id frame entry.delivered) { w.takeFrame m id entry frame with callStack := s }) :
    Tallies ok (resumeFrame E m id) (resumeFrame E' m id) w := by
  refine look ?_
  cases he : w.entryAt m id with
  | none => exact refl ok _ w
  | some entry =>
    dsimp only
    split
    · exact refl ok _ w
    · cases entry.frame with
      | none => exact refl ok _ w
      | some frame =>
        dsimp only
        rw [Tallies, runFrame_apply, runFrame_apply]
        exact bind (stepInvocation fun s hpush ↦ hf entry frame _ s he hpush) fun _ _ _ ↦ refl ok _ _

end Tallies

end Machine

/-- The calls of the first engine tally with those of the second. -/
structure Engine.Tallies (ok : World → Bool) (E E' : Engine) : Prop where
  budget : E.budget = E'.budget
  balanced : E.Balanced
  eval : ∀ {σ : Setting} {w}, σ.Holds w → ∀ id, Machine.Tallies ok (E.eval id) (E'.eval id) w
  invoke : ∀ {σ : Setting} {w}, σ.Holds w → ∀ this m args, Machine.Tallies ok (E.invoke this m args) (E'.invoke this m args) w
  resume : ∀ {σ : Setting} {w}, σ.Holds w → ∀ m id, Machine.Tallies ok (E.resume m id) (E'.resume m id) w

variable {ok : World → Bool} {E E' : Engine}

theorem Machine.Alike.tallies (hE : E.Tallies ok E') {σ : Setting} {α : Type} {f g : Machine α} (h : Alike E E' σ f g) :
    ∀ w, σ.Holds w → Tallies ok f g w := by
  have hresumed : ∀ {σ : Setting} {w w₁ : World} {m : MindId} {id : FrameId}, σ.Holds w →
      E.resume m id w = (.ok (), w₁) → σ.Holds w₁ := by
    intro σ w w₁ m id hw hrun
    have hlevel := ((hE.balanced.resume σ m id) w hw).level (by simp [hrun])
    rw [hrun] at hlevel
    exact hw.onward hlevel.toOnward
  induction h with
  | basic _ => exact fun w _ ↦ .refl ok _ w
  | pure a => exact fun w _ ↦ .refl ok _ w
  | raise e => exact fun w _ ↦ .refl ok _ w
  | exhausted g hg => exact fun w _ ↦ hg hE.budget ▸ .refl ok _ w
  | bind hf _ ihf ihF =>
    refine fun w hw ↦ (ihf w hw).bind fun a w₁ hrun ↦ ihF a w₁ ?_
    have hlevel := (hf.balanced hE.balanced w hw).level (by simp [hrun])
    rw [hrun] at hlevel
    exact hw.onward hlevel.toOnward
  | read _ _ _ ih => exact fun w hw ↦ ih w hw w ⟨hw.current, Nat.le_refl _, hw.rooted⟩
  | attempt _ ih => exact fun w hw ↦ (ih w hw).attempt
  | withContext c _ ih => exact fun w hw ↦ .withContext (ih _ ⟨hw.current, hw.minds, hw.rooted.1, hw.rooted.2⟩)
  | withInvocation i held _ ih =>
    exact fun w hw ↦ .withInvocation fun s _ ↦ ih _ ⟨hw.current, hw.minds, hw.rooted.1, hw.rooted.2⟩
  | inScope _ ih => exact fun w hw ↦ .inScope (ih _ ⟨hw.current, hw.minds, hw.rooted.1, hw.rooted.2⟩)
  | rescue catches hf _ ihf ihF =>
    refine fun w hw ↦ (ihf w hw).rescue fun e w₁ hrun ↦ ihF e _ ?_
    have hlevel := (hf.balanced hE.balanced w hw).level (by simp [hrun])
    rw [hrun] at hlevel
    have hw₁ := hw.onward hlevel.toOnward
    exact ⟨hw₁.current, hw₁.minds, hw₁.rooted.1, hw₁.rooted.2⟩
  | @whenIdle σ _ _ m elapsed _ ih =>
    have hbegin : Basic { σ with pumping := some m } (beginUpdate m elapsed) := .beginUpdate rfl elapsed
    refine fun w hw ↦ .whenIdle (.modified (ih _ ?_))
    have hbegun : { σ with pumping := some m }.Holds w := ⟨hw.current, hw.minds, hw.rooted⟩
    exact hbegun.onward (hbegin.level w).toOnward
  | eval id => exact fun w hw ↦ hE.eval hw id
  | invoke this m args => exact fun w hw ↦ hE.invoke hw this m args
  | @spawn σ _ _ _ m name owner parent frame hm hparent hfresh _ ih =>
    have hregister : Basic σ (registerFrame m name owner parent frame) :=
      .register m name owner parent frame hm hparent hfresh
    refine fun w hw ↦ .bind (.refl ok _ w) fun h w₁ hrun ↦ ?_
    have hlevel := hregister.level w
    rw [hrun] at hlevel
    have hw₁ := hw.onward hlevel.toOnward
    exact .bind (hE.resume hw₁ m h.frame) fun _ w₂ hrun₂ ↦ ih h w₂ (hresumed hw₁ hrun₂)
  | resumeDue id isDue _ _ _ _ _ ih ih' =>
    intro w hw
    refine .look ?_
    split
    · exact .bind (hE.resume hw _ id) fun _ w₁ hrun ↦ ih w₁ (hresumed hw hrun)
    · exact ih' w hw
  | @resumePending σ _ _ _ _ _ m hm _ _ ih ih' =>
    have hpop : Basic σ (popPending m) := .popPending hm
    refine fun w hw ↦ .bind (.refl ok _ w) fun id? w₁ hrun ↦ ?_
    have hlevel := hpop.level w
    rw [hrun] at hlevel
    have hw₁ := hw.onward hlevel.toOnward
    cases id? with
    | none => exact ih w₁ hw₁
    | some id => exact .bind (hE.resume hw₁ m id) fun _ w₂ hrun₂ ↦ ih' w₂ (hresumed hw₁ hrun₂)

theorem Engine.balanced_checked (ok : World → Bool) (n : Nat) : (Engine.checked ok n).Balanced := by
  induction n with
  | zero => exact balanced_ofBudget 0
  | succ n ih =>
    have hle : (Engine.checked ok n).budget ≤ (Engine.checked ok n).budget := Nat.le_refl _
    refine ⟨fun _ id ↦ (Alike.evalNode hle id).balanced ih, fun _ this m args ↦ (Alike.invokeMember hle this m args).balanced ih,
      fun _ m id w hw ↦ (ih.resumeFrame hw m id).bind fun _ w₁ _ _ ↦ .look ?_⟩
    split
    · exact .unchanged rfl
    · exact .unchanged rfl

/-- A run that is not given up after a step is the run of the budget. -/
theorem Engine.tallies_checked (ok : World → Bool) (n : Nat) : (Engine.checked ok n).Tallies ok (.ofBudget n) := by
  induction n with
  | zero =>
    exact ⟨rfl, balanced_checked ok 0, fun _ _ ↦ .refl ok _ _, fun _ _ _ _ ↦ .refl ok _ _, fun _ _ _ ↦ .refl ok _ _⟩
  | succ n ih =>
    have hle : (Engine.checked ok n).budget ≤ (Engine.ofBudget n).budget := Nat.le_of_eq ih.budget
    refine ⟨budget_checked ok (n + 1), balanced_checked ok (n + 1), fun hw id ↦ (Alike.evalNode hle id).tallies ih _ hw,
      fun hw this m args ↦ (Alike.invokeMember hle this m args).tallies ih _ hw,
      fun {σ w} hw m id ↦ .checked (.resumeFrame fun entry frame i s he _ ↦ ?_)⟩
    obtain ⟨mind, hmind, -⟩ := Option.bind_eq_some_iff.mp he
    have htaken := hw.takeFrame (Array.getElem?_eq_some_iff.mp hmind).1 id entry frame
    have hbody : Alike (.checked ok n) (.ofBudget n) { σ with current := some (m, id), scoping := true }
        (stepBody (.checked ok n) m id frame entry.delivered) (stepBody (.ofBudget n) m id frame entry.delivered) :=
      .stepBody rfl hle rfl frame entry.delivered
    exact hbody.tallies ih _ ⟨htaken.current, htaken.minds, htaken.rooted.1, htaken.rooted.2⟩

end MindScript
