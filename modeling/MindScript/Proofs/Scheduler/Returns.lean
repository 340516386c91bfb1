import MindScript.Machine.Resume
import MindScript.Proofs.Scheduler.Actions

/-!
# Coming back from a step

When a step is over, its frame is put back and settles or falls asleep; then a stop that was asked for
meanwhile is carried out.  `Concluded` lists what can happen in the middle part, and everything about
the end of a step is derived from it.
-/

namespace MindScript

/-- The ending of a frame whose step is over, unless it falls asleep. -/
def Ending.ofStep? : Except EvalError Step → Option Ending
  | .ok (.done value) => some (.completed value)
  | .ok (.suspend _) => none
  | .error e => some (.failed e.toFailure)

theorem Ending.ne_stopped_of_ofStep? {step : Except EvalError Step} {ending : Ending}
    (h : ofStep? step = some ending) : ending ≠ .stopped := by
  rintro rfl
  rcases step with e | (value | wake) <;> cases h

namespace World

/-- How a step is concluded: the frame ends as its step says, it fails because it would wait for itself, or it falls
asleep. -/
inductive Concludes (m : MindId) (id : FrameId) (w : World) : Except EvalError Step → World → Prop where
  | ended {step : Except EvalError Step} {ending : Ending} (ls : List Link) : Ending.ofStep? step = some ending →
      Concludes m id w step ((w.release ls).finishFrame m id ending)
  | stuck {x : Handle} : x.mind = m → w.waitsOn m x.frame id = true → Concludes m id w (.ok (.suspend (.frame x)))
      ((w.finishFrame m id (.failed (.ofKind (.schedulerFault (w.frameName m id))))).release (Wake.frame x).links)
  | asleep (wake : Wake) : (∀ x, wake = .frame x → x.mind = m → w.waitsOn m x.frame id = false) →
      Concludes m id w (.ok (.suspend wake)) (w.sleep m id wake)

theorem concludes_conclude (w : World) (m : MindId) (id : FrameId) (step : Except EvalError Step) :
    Concludes m id w step (w.conclude m id step) := by
  rcases step with e | (value | wake)
  · exact .ended _ rfl
  · exact .ended [] rfl
  · cases wake with
    | frame x =>
      unfold conclude suspendFrame
      cases hwaits : decide (x.mind = m) && w.waitsOn m x.frame id with
      | true =>
        obtain ⟨hm, hwaits'⟩ := Bool.and_eq_true_iff.mp hwaits
        simp only [hwaits, if_true]
        exact .stuck (of_decide_eq_true hm) hwaits'
      | false =>
        simp only [hwaits, Bool.false_eq_true, if_false]
        refine .asleep _ fun y hy hm ↦ ?_
        obtain rfl := Wake.frame.inj hy
        simpa [hm] using hwaits
    | tick => exact .asleep _ fun x hx ↦ absurd hx (by simp)
    | atTime t => exact .asleep _ fun x hx ↦ absurd hx (by simp)
    | event name => exact .asleep _ fun x hx ↦ absurd hx (by simp)
    | children => exact .asleep _ fun x hx ↦ absurd hx (by simp)

variable {X : Set FrameKey} {stack : List FrameKey} {w w' : World} {m : MindId} {id : FrameId} {c : Card}

/-- What becomes of a frame whose step is over: it ends by itself, or it falls asleep.  It never falls
asleep on a frame that waits for it. -/
inductive Concluded (stack : List FrameKey) (m : MindId) (id : FrameId) (c : Card) (w : World) :
    World → Prop where
  | ended {w₁ w₂ w₃ : World} (ending : Ending) : ending ≠ .stopped → Still w w₁ →
      Ends ∅ stack m id c ending w₁ w₂ → Still w₂ w₃ → Concluded stack m id c w w₃
  | asleep (wake : Wake) :
      (∀ x, wake = .frame x → x.mind = m → w.waitsOn m x.frame id = false) →
      Concluded stack m id c w (w.sleep m id wake)

theorem concluded_finishFrame (h : Sound {(m, id)} stack w) (hc : w.card m id = some c)
    (hu : c.isFinished = false) (hstack : (m, id) ∉ stack) {ending : Ending} (hne : ending ≠ .stopped)
    {w₁ w₂ : World} (hbefore : Still w w₁) (hafter : Still (w₁.finishFrame m id ending) w₂) :
    Concluded stack m id c w w₂ := by
  have hsound : Sound (insert (m, id) ∅) stack w₁ := by
    rw [insert_empty_eq]
    exact h.still hbefore
  have hc₁ : w₁.card m id = some c := by rw [hbefore.card, hc]
  exact .ended ending hne hbefore (ends_finishFrame hsound hc₁ hu hstack ending) hafter

theorem concluded_conclude (h : Sound {(m, id)} stack w) (hc : w.card m id = some c)
    (hu : c.isFinished = false) (hstack : (m, id) ∉ stack) (step : Except EvalError Step) :
    Concluded stack m id c w (w.conclude m id step) := by
  have hconcludes := concludes_conclude w m id step
  generalize w.conclude m id step = w' at hconcludes
  cases hconcludes with
  | ended ls hending =>
    exact concluded_finishFrame h hc hu hstack (Ending.ne_stopped_of_ofStep? hending) (still_release w ls) (.refl _)
  | stuck _ _ => exact concluded_finishFrame h hc hu hstack (by simp) (.refl w) (still_release _ _)
  | asleep wake hfree => exact .asleep wake hfree

theorem Concluded.card_isSome (h : Concluded stack m id c w w') (hw : w.Filed) (hc : w.card m id = some c)
    (hu : c.isFinished = false) : (w'.card m id).isSome := by
  cases h with
  | ended ending hne hbefore hends hafter =>
    obtain ⟨w₁, hsound, -, hc₁, rfl⟩ := hends
    obtain ⟨e, he, -, hcard⟩ := card_eq_some_iff.mp hc₁
    have hhandle : e.handle = c.handle := congrArg Card.handle hcard
    have hu₁ : w₁.isFinished e.handle = false := by
      rw [hhandle]
      exact (isFinished_of_card hc₁).trans hu
    rw [hafter.card, (revised_settle hsound.filed he hu₁ ending).card_of_card hc₁, Option.isSome_some]
  | asleep wake hfree =>
    obtain ⟨e, he, -⟩ := card_eq_some_iff.mp hc
    rw [(revised_sleep hw he wake).card_of_card hc, Option.isSome_some]

/-- The card of a frame that has been put back. -/
theorem card_putBack (hw : w.Filed) (hc : w.card m id = some c) (frame : Frame) :
    (w.modifyEntry m id fun e ↦ { e with frame := some frame }).card m id =
      some { c with frame := some frame } := by
  rw [(revised_putBack hw m id frame).card, hc, Option.map_some, atFrame_self]

theorem returnFrame_of_card (hc : w.card m id = some c) (frame : Frame) (step : Except EvalError Step) :
    w.returnFrame m id frame step =
      let w₁ := (w.modifyEntry m id fun e ↦ { e with frame := some frame }).conclude m id step
      if c.stopRequested then stopFrame m w₁ id else w₁ := by
  obtain ⟨e, he, -, hcard⟩ := card_eq_some_iff.mp hc
  have hstop : e.stopRequested = c.stopRequested := congrArg Card.stopRequested hcard
  unfold returnFrame
  simp only [he, hstop]

/-- What a step comes back with: the frame is put back, the step is concluded, and the frame is stopped if
it has been asked to. -/
theorem returnFrame_cases (h : Sound ∅ ((m, id) :: stack) w) (hc : w.card m id = some c) (frame : Frame)
    (step : Except EvalError Step) :
    ∃ w₁, Concluded stack m id { c with frame := some frame }
        (w.modifyEntry m id fun e ↦ { e with frame := some frame }) w₁ ∧
      w.returnFrame m id frame step = if c.stopRequested then stopFrame m w₁ id else w₁ := by
  have hu := h.unfinished_of_mem List.mem_cons_self hc
  exact ⟨_, concluded_conclude (h.putBack frame) (card_putBack h.filed hc frame) hu h.notMem_top step,
    returnFrame_of_card hc frame step⟩

end World

namespace Sound

variable {stack : List FrameKey} {w : World} {m : MindId} {id : FrameId}

/-- Once its step is concluded, a frame that was told to stop meanwhile may have lost its parent; otherwise
nothing is left to be done. -/
theorem concluded (h : Sound ∅ ((m, id) :: stack) w) {c : Card} (hc : w.card m id = some c) {frame : Frame}
    {w₁ : World} (hw₁ : World.Concluded stack m id { c with frame := some frame }
      (w.modifyEntry m id fun e ↦ { e with frame := some frame }) w₁) :
    Sound (insert (m, id) ∅) stack w₁ ∧ (c.stopRequested = false → Sound ∅ stack w₁) := by
  have hu := h.unfinished_of_mem List.mem_cons_self hc
  cases hw₁ with
  | ended ending hne hbefore hends hafter =>
    have hsound := (hends.sound hu h.notMem_top).still hafter
    exact ⟨hsound.mono (Set.empty_subset _), fun _ ↦ hsound⟩
  | asleep wake hfree =>
    exact ⟨h.returnAsleep hc (fun _ ↦ Set.mem_insert _ _) frame wake,
      fun hstop ↦ h.returnAsleep hc (fun hs ↦ absurd (hstop.symm.trans hs) Bool.false_ne_true) frame wake⟩

theorem returnFrame (h : Sound ∅ ((m, id) :: stack) w) (frame : Frame) (step : Except EvalError Step) :
    Sound ∅ stack (w.returnFrame m id frame step) := by
  obtain ⟨c, hc⟩ := h.card_of_mem List.mem_cons_self
  obtain ⟨w₁, hconcluded, heq⟩ := World.returnFrame_cases h hc frame step
  obtain ⟨hsound, hdone⟩ := h.concluded hc hconcluded
  rw [heq]
  cases hstop : c.stopRequested with
  | false => exact hdone hstop
  | true =>
    have hu := h.unfinished_of_mem List.mem_cons_self hc
    obtain ⟨c₁, hc₁⟩ := Option.isSome_iff_exists.mp (hconcluded.card_isSome (h.putBack frame).filed
      (World.card_putBack h.filed hc frame) hu)
    exact (World.sound_stopFrame hsound hc₁).1

end Sound

end MindScript
