import MindScript.Proofs.Balance
import MindScript.Proofs.Scheduler.Polls
import MindScript.Proofs.Wakeups.Deferred

/-!
# Frames between their steps

A frame that can run is as it was registered, or it has come back from a step and sleeps; nothing else changes it.  So what new
frames meet, and frames that sleep after a step, every frame meets that can run.
-/

namespace MindScript

open Machine

/-- What may be asked of a frame that is not in a step, and of what it waits for. -/
abbrev Frame.Condition := Frame → Option Wake → Prop

/-- Every frame that can run meets the condition. -/
def World.Stands (F : Frame.Condition) (w : World) : Prop :=
  ∀ m k e frame, w.entryAt m k = some e → e.frame = some frame → F frame e.wake

/-- New frames meet the condition, and so do frames that sleep after a step. -/
structure Frame.Standing (F : Frame.Condition) : Prop where
  fresh : ∀ frame, frame.Fresh → F frame none
  slept : ∀ {E : Engine} {m : MindId} {id : FrameId} {i : Invocation} {frame : Frame} {before : Option Wake}
    {delivered : Option Ref} {s : List FrameKey} {w w' : World} {body : FrameBody} {wake : Wake} {unused : List Ref},
    E.Tracked → E.Balanced → Moment.Valid ⟨s, w⟩ → s.head? = some (m, id) → w.context = frame.context → F frame before →
    stepInvocation E m id i frame delivered w = (.ok (body, .ok (.suspend wake), unused), w') →
    F { frame with context := w'.context, body, updateCount := frame.updateCount + 1 } (some wake)

/-! ### Deeds -/

/-- A frame that can run has not finished. -/
theorem Moment.Valid.isFinished_of_stored {M : Moment} (h : M.Valid) {m : MindId} {k : FrameId} {e : FrameEntry}
    {frame : Frame} (he : M.world.entryAt m k = some e) (hframe : e.frame = some frame) :
    M.world.isFinished e.handle = false := by
  obtain ⟨cell, hc⟩ := h.sound.filed.card he
  refine Bool.eq_false_iff.mpr fun hfin ↦ ?_
  cases ((h.sound.fits m k _ hc).done ((World.isFinished_of_card hc).symm.trans hfin)).1.symm.trans hframe

/-- A frame that can run after a deed could run before it and sleeps as it did, or it is new, or it comes back from its
step. -/
theorem Deed.rested {pumped : Option MindId} {M M' : Moment} (h : Deed pumped M M') (hvalid : M.Valid) {m : MindId}
    {k : FrameId} {e' : FrameEntry} {frame : Frame} (he' : M'.world.entryAt m k = some e') (hframe : e'.frame = some frame) :
    (∃ e, M.world.entryAt m k = some e ∧ e.frame = some frame ∧ e.wake = e'.wake) ∨ (e'.wake = none ∧ frame.Fresh) ∨
      M.stack = (m, k) :: M'.stack := by
  have hvalid' := hvalid.act h.act
  have hout : (m, k) ∉ M'.stack := fun hmem ↦ by
    cases (hvalid'.frame_of_mem hmem he').symm.trans hframe
  obtain ⟨cell', hc'⟩ := hvalid'.sound.filed.card he'
  have hu' := hvalid'.isFinished_of_stored he' hframe
  rcases h.stored hvalid he' with ⟨e, he, hhandle⟩ | ⟨-, _, hpending, hfresh⟩
  · obtain ⟨cell, hc⟩ := hvalid.sound.filed.card he
    have hfits := hvalid.sound.fits m k _ hc
    rw [hhandle] at hu'
    have hu : M.world.isFinished e.handle = false := by
      refine Bool.eq_false_iff.mpr fun hfin ↦ ?_
      obtain ⟨c, hcell, hdone⟩ := World.cell_of_isFinished hfin
      rw [World.isFinished, World.status_of_cell? (h.act.final hvalid hcell hdone), hdone] at hu'
      cases hu'
    rcases h.cases_pumped with ⟨-, hstill, -⟩ | hdeed
    · rw [hstill.entryAt] at he'
      exact .inl ⟨e', he', hframe, rfl⟩
    cases hold : e.frame with
    | none =>
      have hmem := (hfits.framed ((World.isFinished_of_card hc).symm.trans hu) hold).2
      rcases h.stack_cases with heq | ⟨key, heq⟩ | ⟨key, heq⟩
      · exact absurd (heq ▸ hmem) hout
      · exact absurd (heq ▸ List.mem_cons_of_mem key hmem) hout
      · rw [heq] at hmem
        obtain rfl := (List.mem_cons.mp hmem).resolve_right hout
        exact .inr (.inr heq)
    | some before =>
      have hbegin : M'.stack ≠ (m, k) :: M.stack := fun heq ↦ hout (heq ▸ List.mem_cons_self)
      have hdozes := hdeed.dozes hvalid (Option.some_ne_none m).symm hbegin
      rcases hdozes.rests e he (by rw [hold]; rfl) hu with hfin | ⟨e'', he'', hkeeps, -⟩
      · exact absurd (hfin.symm.trans hu') Bool.noConfusion
      · obtain rfl := Option.some.inj (he'.symm.trans he'')
        exact .inl ⟨e, he, hkeeps.frame.symm.trans hframe, hkeeps.wake.symm⟩
  · refine .inr (.inl ⟨?_, hfresh frame hframe⟩)
    by_contra hne
    have hsuspended := (hvalid'.sound.fits m k _ hc').waits.mp (Option.isSome_iff_ne_none.mpr hne)
    cases hpending.symm.trans ((World.status_of_card hc').trans hsuspended)

section

variable {F : Frame.Condition} (hF : Frame.Standing F)

namespace World.Stands

include hF in
/-- Whatever else a deed does, frames that can run go on meeting the condition. -/
theorem deed {pumped : Option MindId} {M M' : Moment} (hM : M.world.Stands F) (h : Deed pumped M M') (hvalid : M.Valid)
    (hback : ∀ m k e' frame, M.stack = (m, k) :: M'.stack → M'.world.entryAt m k = some e' → e'.frame = some frame →
      F frame e'.wake) : M'.world.Stands F := by
  intro m k e' frame he' hframe
  rcases h.rested hvalid he' hframe with ⟨e, he, hold, hwake⟩ | ⟨hawake, hfresh⟩ | hreturned
  · exact hwake ▸ hM m k e frame he hold
  · rw [hawake]
    exact hF.fresh frame hfresh
  · exact hback m k e' frame hreturned he' hframe

include hF in
theorem course {pumped : Option MindId} {s : List FrameKey} {w : World} {N : Moment} (hw : w.Stands F)
    (h : Course pumped ⟨s, w⟩ N) (hvalid : Moment.Valid ⟨s, w⟩) : N.world.Stands F :=
  h.keeps hvalid (fun hdeed hvalid hstack hstands ↦ hstands.deed hF hdeed hvalid fun _ _ _ _ hback ↦
    absurd (hstack.trans hback) (List.cons_ne_self _ _).symm) hw

theorem still {w w' : World} (hw : w.Stands F) (h : Still w w') : w'.Stands F := by
  rw [World.Stands, h.entryAt]
  exact hw

end World.Stands

/-! ### Actions -/

include hF in
theorem World.leading_stands : Leading (fun _ w ↦ w.Stands F) fun v w ↦ v.Stands F → w.Stands F where
  refl _ := id
  trans h h' hv := h' (h hv)
  keeps hw h := h hw
  begins := by
    intro pumping m mind s w elapsed hw hvalid _ _
    have hbegin : Basic ⟨s.head?, 0, true, some m⟩ (beginUpdate m elapsed) := .beginUpdate rfl elapsed
    have hbegun := hw.course hF (hbegin.course rfl (Nat.zero_le _)) hvalid
    exact ⟨fun _ ↦ hbegun, hbegun⟩
  basic h hvalid hhead hminds _ hw := hw.course hF (h.course hhead hminds) hvalid
  context _ _ hw := hw.still ⟨rfl, rfl, rfl⟩
  callStack _ _ hw := hw.still ⟨rfl, rfl, rfl⟩

namespace Machine

/-- An action that leaves every frame that can run to meet the condition. -/
abbrev Stands (F : Frame.Condition) {α : Type} (σ : Setting) (f : Machine α) : Prop :=
  Leads (fun _ w ↦ w.Stands F) (fun v w ↦ v.Stands F → w.Stands F) σ f

include hF in
/-- A frame that comes back from a step sleeps after it. -/
theorem Stands.resumeFrame {σ : Setting} {E : Engine} {m : MindId} {id : FrameId} (hT : E.Tracked) (hB : E.Balanced)
    (hbody : ∀ i frame delivered, Stands F { σ with current := some (m, id), scoping := true }
      (stepInvocation E m id i frame delivered)) : Stands F σ (resumeFrame E m id) := by
  refine ⟨Tracked.compositional.step m id fun i frame delivered ↦ (hbody i frame delivered).tracked,
    fun s w hvalid hhead hminds hw ↦ ?_⟩
  rcases resumeFrame_cases m id w with hsame | ⟨entry, frame, he, hu, hframe⟩
  · rw [hsame]
    exact fun h ↦ h
  have hbegin : Deed none ⟨s, w⟩ ⟨(m, id) :: s, w.takeFrame m id entry frame⟩ := .begin he hu hframe
  rw [resumeFrame_of_stored he hu hframe]
  refine Leads.runFrame (World.leading_stands hF) (fun i ↦ hbody i frame entry.delivered) hvalid hminds hw he hu hframe
    (fun _ ↦ hw.deed hF hbegin hvalid fun m' k _ _ heq ↦ ?_) fun i w₁ body step _ hvalid₁ _ hrun hw₁ ↦ ?_
  · have hlength : s.length = s.length + 1 + 1 := congrArg List.length heq
    omega
  let after : Frame := { frame with context := w₁.context, body, updateCount := frame.updateCount + 1 }
  have hback : Deed none ⟨(m, id) :: s, w₁⟩ ⟨s, (w₁.enter w.context s.head?).returnFrame m id after step⟩ :=
    .back w.context after step
  refine hw₁.deed hF hback hvalid₁ fun m' k e' frame' heq he' hframe' ↦ ?_
  obtain ⟨rfl, rfl⟩ := Prod.mk.inj (List.cons.inj heq).1
  have hvalid' := hvalid₁.act hback.act
  obtain ⟨cell', hc'⟩ := hvalid'.sound.filed.card he'
  obtain ⟨c, hc⟩ := hvalid₁.sound.card_of_mem List.mem_cons_self
  have hstill := World.still_enter w₁ w.context s.head?
  obtain ⟨c', hreturned, -, hreturn⟩ :=
    World.card_returnFrame (hvalid₁.sound.still hstill) ((congrFun₂ hstill.card m id).trans hc) after step
  obtain rfl := Option.some.inj (hreturned.symm.trans hc')
  have hu' : (e'.card cell').isFinished = false := by
    refine Bool.eq_false_iff.mpr fun hfin ↦ ?_
    cases ((hvalid'.sound.fits m id _ hc').done hfin).1.symm.trans hframe'
  obtain ⟨wake, rfl, -, hcard⟩ := hreturn.asleep_of_unfinished hu'
  have hwake : e'.wake = some wake := congrArg Card.wake hcard
  obtain rfl : frame' = after := by
    have hstored : e'.frame = some after := congrArg Card.frame hcard
    exact Option.some.inj (hframe'.symm.trans hstored)
  rw [hwake]
  exact hF.slept hT hB (hvalid.act hbegin.act) rfl rfl (hw m id entry frame he hframe) hrun

end Machine

end

end MindScript
