import MindScript.Proofs.Wakeups.Deeds

/-!
# No action forgets a sleeping frame

While a Mind is being updated, nobody else takes frames from its ready queue: an update of a Mind that is
being updated does nothing.  So whatever runs in a step of a frame heeds all frames of that Mind, and a frame
that is resumed has made a step in the end, or has finished.
-/

namespace MindScript

open Machine

/-! ### Frames that come back -/

namespace World

variable {s : List FrameKey} {w w₁ : World} {m : MindId} {id : FrameId} {e : FrameEntry}

theorem Concluded.stored (h : Sound ∅ ((m, id) :: s) w) {cell : Outcome}
    (hc : w.card m id = some (e.card cell)) {frame : Frame}
    (hconcluded : Concluded s m id { e.card cell with frame := some frame }
      (w.modifyEntry m id fun e ↦ { e with frame := some frame }) w₁) :
    w₁.isFinished e.handle = true ∨
      ∃ e', w₁.entryAt m id = some e' ∧ e'.handle = e.handle ∧ e'.frame = some frame := by
  cases hconcluded with
  | ended ending hne hbefore hends hafter =>
    left
    rw [hafter.isFinished]
    have hu := h.unfinished_of_mem List.mem_cons_self hc
    exact hends.isFinished hu
  | asleep wake hfree =>
    right
    have hc' := card_putBack h.filed hc frame
    obtain ⟨e', he', -⟩ := card_eq_some_iff.mp hc'
    have hasleep := (revised_sleep (h.putBack frame).filed he' wake).card_of_card hc'
    obtain ⟨e₁, he₁, -, hcard⟩ := card_eq_some_iff.mp hasleep
    rw [atFrame_self] at hcard
    exact ⟨e₁, he₁, congrArg Card.handle hcard, congrArg Card.frame hcard⟩

/-- A frame that was told to stop in its step has finished when it comes back. -/
theorem isFinished_returnFrame (h : Sound ∅ ((m, id) :: s) w) (he : w.entryAt m id = some e)
    (hstop : e.stopRequested = true) (frame : Frame) (step : Except EvalError Step) :
    (w.returnFrame m id frame step).isFinished e.handle = true := by
  obtain ⟨cell, hc⟩ := h.filed.card he
  have hstack : (m, id) ∉ s := h.notMem_top
  obtain ⟨w₁, hconcluded, heq⟩ := returnFrame_cases h hc frame step
  have hsound := (h.concluded hc hconcluded).1
  have hstopped := ((closing_dozes m m id).stopFrame w₁ id hsound.filed).2
  have hstop : (e.card cell).stopRequested = true := hstop
  rw [heq, if_pos hstop]
  rcases hconcluded.stored h hc with hfin | ⟨e₁, he₁, hhandle, hframe⟩
  · exact hstopped.isFinished hfin
  · rw [← hhandle]
    cases hu₁ : w₁.isFinished e₁.handle with
    | true => exact hstopped.isFinished hu₁
    | false =>
      obtain ⟨cell₁, hc₁⟩ := hsound.filed.card he₁
      have hu : (e₁.card cell₁).isFinished = false := (isFinished_of_card hc₁).symm.trans hu₁
      have hfinished := (ends_finishFrame hsound hc₁ hu hstack .stopped).isFinished hu
      unfold stopFrame stopWith
      simp only [he₁, hu₁, hframe, Bool.false_eq_true, if_false, Option.isNone_some]
      exact hfinished

/-- A frame that comes back from its step is put back, or has finished. -/
theorem stored_returnFrame (h : Sound ∅ ((m, id) :: s) w) (he : w.entryAt m id = some e) (frame : Frame)
    (step : Except EvalError Step) :
    (w.returnFrame m id frame step).isFinished e.handle = true ∨
      ∃ e', (w.returnFrame m id frame step).entryAt m id = some e' ∧ e'.handle = e.handle ∧
        e'.frame = some frame := by
  cases hstop : e.stopRequested with
  | true => exact .inl (isFinished_returnFrame h he hstop frame step)
  | false =>
    obtain ⟨cell, hc⟩ := h.filed.card he
    obtain ⟨w₁, hconcluded, heq⟩ := returnFrame_cases h hc frame step
    have hstop : (e.card cell).stopRequested = false := hstop
    rw [heq, hstop]
    exact hconcluded.stored h hc

end World

/-! ### Journeys on which no frame is forgotten -/

/-- A property of worlds that only the end of a step may break. -/
structure World.Steadfast (P : World → Prop) : Prop where
  still : ∀ {w w' : World}, w.Still w' → P w → P w'
  deed : ∀ {pumped : Option MindId} {M M' : Moment}, Deed pumped M M' → M.Valid →
    M.stack.length ≤ M'.stack.length → P M.world → P M'.world

/-- Deeds from one moment to another; at each moment on the way the world has the property, and every frame of
the Mind is heeded until the end. -/
abbrev Vigil (P : World → Prop) (m : MindId) (M N : Moment) : Prop :=
  Relation.ReflTransGen
    (fun L L' ↦ (∃ pumped, Deed pumped L L') ∧ P L.world ∧ ∀ f, L.world.Heeds m f N.world) M N

namespace Vigil

variable {P : World → Prop} {m : MindId} {L M N : Moment}

theorem heeds (h : Vigil P m M N) (f : FrameId) : M.world.Heeds m f N.world := by
  rcases h.cases_head with rfl | ⟨L, ⟨-, -, hheeds⟩, -⟩
  · exact .refl m f M.world
  · exact hheeds f

theorem journey (h : Vigil P m M N) : Journey M N :=
  Relation.ReflTransGen.mono (fun _ _ hstep ↦ hstep.1) _ _ h

theorem trans (h : Vigil P m L M) (h' : Vigil P m M N) : Vigil P m L N :=
  (Relation.ReflTransGen.mono
    (fun _ _ hstep ↦ ⟨hstep.1, hstep.2.1, fun f ↦ (hstep.2.2 f).trans (h'.heeds f)⟩) _ _ h).trans h'

theorem of_deed {pumped : Option MindId} (h : Deed pumped M N) (hM : P M.world)
    (hheeds : ∀ f, M.world.Heeds m f N.world) : Vigil P m M N :=
  .single ⟨⟨pumped, h⟩, hM, hheeds⟩

end Vigil

/-- The frames of steps under way keep their handles. -/
def World.Held (s : List FrameKey) (w w' : World) : Prop :=
  ∀ m id, (m, id) ∈ s → ∀ e, w.entryAt m id = some e → ∃ e', w'.entryAt m id = some e' ∧ e'.handle = e.handle

namespace World.Held

variable {s : List FrameKey} {k : FrameKey} {w w' w'' : World}

theorem refl (s : List FrameKey) (w : World) : Held s w w := fun _ _ _ e he ↦ ⟨e, he, rfl⟩

theorem trans (h : Held s w w') (h' : Held s w' w'') : Held s w w'' := by
  intro m id hmem e he
  obtain ⟨e₁, he₁, hhandle⟩ := h m id hmem e he
  obtain ⟨e₂, he₂, hhandle'⟩ := h' m id hmem e₁ he₁
  exact ⟨e₂, he₂, hhandle'.trans hhandle⟩

theorem tail (h : Held (k :: s) w w') : Held s w w' := fun m id hmem ↦ h m id (List.mem_cons_of_mem k hmem)

end World.Held

/-- A frame that has not finished stays stored, under the same handle. -/
theorem Act.stored {M M' : Moment} (h : Act M M') (hvalid : M.Valid) {m : MindId} {id : FrameId} {e : FrameEntry}
    (he : M.world.entryAt m id = some e) (hu : M.world.isFinished e.handle = false) :
    ∃ e', M'.world.entryAt m id = some e' ∧ e'.handle = e.handle := by
  obtain ⟨cell, hc⟩ := hvalid.sound.filed.card he
  obtain ⟨c', hc', hhandle⟩ := (hvalid.advances h).card m id _ hc ((World.isFinished_of_card hc).symm.trans hu)
  obtain ⟨e', he', -, hcard⟩ := World.card_eq_some_iff.mp hc'
  exact ⟨e', he', (congrArg Card.handle hcard).trans hhandle⟩

theorem Act.held {M M' : Moment} (h : Act M M') (hvalid : M.Valid) : M.world.Held M.stack M'.world := by
  intro m id hmem e he
  refine h.stored hvalid he ?_
  obtain ⟨cell, hc⟩ := hvalid.sound.filed.card he
  have hrun : cell.status = .running := hvalid.sound.running_of_mem hmem hc
  refine (World.isFinished_of_card hc).trans ?_
  change cell.status.isFinished = false
  rw [hrun]
  rfl

/-- What holds between two worlds of one step in the course of an update of a Mind: no frame of that Mind is
forgotten, its update goes on, and so do the steps under way. -/
structure Watched (P : World → Prop) (m : MindId) (s : List FrameKey) (w w' : World) : Prop where
  vigil : Vigil P m ⟨s, w⟩ ⟨s, w'⟩
  still : P w'
  updating : w'.isUpdating m = true
  held : w.Held s w'

namespace Watched

variable {P : World → Prop} {m : MindId} {s : List FrameKey} {w w' w'' : World}

theorem refl (hw : w.isUpdating m = true) (hP : P w) : Watched P m s w w := ⟨.refl, hP, hw, .refl s w⟩

theorem trans (h : Watched P m s w w') (h' : Watched P m s w' w'') : Watched P m s w w'' :=
  ⟨h.vigil.trans h'.vigil, h'.still, h'.updating, h.held.trans h'.held⟩

theorem of_deed (hsteadfast : World.Steadfast P) {pumped : Option MindId} (h : Deed pumped ⟨s, w⟩ ⟨s, w'⟩)
    (hvalid : Moment.Valid ⟨s, w⟩) (hP : P w) (hheeds : ∀ f, w.Heeds m f w') (hupdating : w'.isUpdating m = true) :
    Watched P m s w w' :=
  ⟨.of_deed h hP hheeds, hsteadfast.deed h hvalid (Nat.le_refl _) hP, hupdating, h.act.held hvalid⟩

theorem of_course (hsteadfast : World.Steadfast P) {pumped : Option MindId} (hpumped : pumped ≠ some m) {N : Moment}
    (h : Course pumped ⟨s, w⟩ N) (hvalid : Moment.Valid ⟨s, w⟩) (hw : w.isUpdating m = true) (hP : P w) :
    N.stack = s ∧ Watched P m s w N.world := by
  induction h with
  | refl => exact ⟨rfl, .refl hw hP⟩
  | @tail L N _ hdeed ih =>
    obtain ⟨rfl, hwatched⟩ := ih
    obtain ⟨hdeed, hstack, -⟩ := hdeed
    obtain ⟨s', w'⟩ := N
    obtain rfl : s' = L.stack := hstack
    have hL := hvalid.journey hwatched.vigil.journey
    refine ⟨rfl, hwatched.trans (.of_deed hsteadfast hdeed hL hwatched.still (fun f ↦ ?_) ?_)⟩
    · exact hdeed.heeds hL hpumped (List.cons_ne_self _ _).symm
    · exact (hdeed.sameTick hpumped).updating.trans hwatched.updating

end Watched

/-- A frame that has been put back after a step has moved. -/
theorem World.moved_returnFrame {s : List FrameKey} {w w₁ : World} {m : MindId} {id : FrameId}
    (h : Sound ∅ ((m, id) :: s) w₁) {e e₁ : FrameEntry} (he : w.entryAt m id = some e)
    (he₁ : w₁.entryAt m id = some e₁) (hhandle : e₁.handle = e.handle) {frame after : Frame}
    (hframe : e.frame = some frame) (hlt : frame.updateCount < after.updateCount)
    (step : Except EvalError Step) : Moved m id w (w₁.returnFrame m id after step) := by
  have hstored := World.stored_returnFrame h he₁ after step
  rw [hhandle] at hstored
  refine ⟨e, he, hstored.imp_right ?_⟩
  rintro ⟨e₂, he₂, hhandle₂, hframe₂⟩
  exact ⟨e₂, he₂, hhandle₂, frame, after, hframe, hframe₂, hlt⟩

namespace Machine

/-- An update of a Mind that is suspended or being updated does nothing. -/
theorem whenIdle_cases (m : MindId) (w : World) : (∀ f, whenIdle m f w = (.ok 0, w)) ∨
    w.isUpdating m = false ∧ ∀ f, whenIdle m f w = f w := by
  rw [World.isUpdating]
  cases hmind : w.mind? m with
  | none =>
    refine .inl fun f ↦ ?_
    rw [whenIdle, get_bind, hmind]
    rfl
  | some mind =>
    cases hbusy : mind.suspended || mind.updating with
    | true =>
      refine .inl fun f ↦ ?_
      rw [whenIdle, get_bind, hmind]
      simp only [hbusy, if_true]
      rfl
    | false =>
      refine .inr ⟨(Bool.or_eq_false_iff.mp hbusy).2, fun f ↦ ?_⟩
      rw [whenIdle, get_bind, hmind]
      simp only [hbusy, Bool.false_eq_true, if_false]

/-- An action that forgets no sleeping frame of a Mind that is being updated outside of it. -/
def Heedful (P : World → Prop) (m : MindId) {α : Type} (σ : Setting) (f : Machine α) : Prop :=
  σ.pumping ≠ some m → ∀ s w, Moment.Valid ⟨s, w⟩ → s.head? = σ.current → σ.minds ≤ w.minds.size →
    w.isUpdating m = true → P w → (f w).1 ≠ .error .exhausted → Watched P m s w (f w).2

namespace Heedful

variable {P : World → Prop} {m : MindId} {σ : Setting} {α β : Type} {f : Machine α}

theorem bind {F : α → Machine β} (hf : Heedful P m σ f) (hF : ∀ a, Heedful P m σ (F a)) :
    Heedful P m σ (f >>= F) := by
  intro hpumping s w hvalid hhead hminds hw hP hne
  have hfirst := hf hpumping s w hvalid hhead hminds hw hP
  rcases hfw : f w with ⟨result, w₁⟩
  rw [hfw] at hfirst
  cases result with
  | error i =>
    rw [bind_of_error hfw] at hne ⊢
    exact hfirst fun heq ↦ hne (by cases heq; rfl)
  | ok a =>
    rw [bind_of_ok hfw] at hne ⊢
    have hwatched := hfirst (by simp)
    have hjourney := hwatched.vigil.journey
    exact hwatched.trans (hF a hpumping s w₁ (hvalid.journey hjourney) hhead
      (hminds.trans hjourney.run.minds_le) hwatched.updating hwatched.still hne)

theorem attempt (hf : Heedful P m σ f) : Heedful P m σ (attempt f) := by
  intro hpumping s w hvalid hhead hminds hw hP hne
  have hfirst := hf hpumping s w hvalid hhead hminds hw hP
  rcases hfw : f w with ⟨result, w'⟩
  rw [hfw] at hfirst
  match result with
  | .ok a =>
    rw [attempt_of_ok hfw]
    exact hfirst (by simp)
  | .error (.raised e) =>
    rw [attempt_of_raised hfw]
    exact hfirst (by simp)
  | .error .exhausted =>
    rw [attempt_of_exhausted hfw] at hne
    exact absurd rfl hne

/-- A Mind that is being updated is not updated within that. -/
theorem whenIdle {f : Machine Nat} (m' : MindId) (hf : Heedful P m { σ with pumping := some m' } f) :
    Heedful P m σ (whenIdle m' f) := by
  intro _ s w hvalid hhead hminds hw hP hne
  rcases whenIdle_cases m' w with hbusy | ⟨hidle, hrun⟩
  · rw [hbusy]
    exact .refl hw hP
  · rw [hrun] at hne ⊢
    refine hf (fun heq ↦ ?_) s w hvalid hhead hminds hw hP hne
    obtain rfl := Option.some.inj heq
    exact absurd (hidle.symm.trans hw) Bool.false_ne_true

variable (hsteadfast : World.Steadfast P)

include hsteadfast

theorem of_course (h : ∀ s w, Course none ⟨s, w⟩ ⟨s, (f w).2⟩) : Heedful P m σ f :=
  fun _ s w hvalid _ _ hw hP _ ↦ (Watched.of_course hsteadfast (by simp) (h s w) hvalid hw hP).2

theorem basic (h : Basic σ f) : Heedful P m σ f :=
  fun hpumping _ _ hvalid hhead hminds hw hP _ ↦
    (Watched.of_course hsteadfast hpumping (h.course hhead hminds) hvalid hw hP).2

theorem composite (m : MindId) : Composite (Heedful P m) where
  unchanged h := fun _ s w _ _ _ hw hP _ ↦ by
    rw [h]
    exact .refl hw hP
  bind := bind
  read hF := fun hpumping s w hvalid hhead hminds ↦
    hF w (hvalid.holds hhead hminds) hpumping s w hvalid hhead (Nat.le_refl _)
  look hF := fun hpumping s w ↦ hF w hpumping s w
  attempt := attempt
  basic h := fun hpumping s w ↦ basic hsteadfast h hpumping s w
  setContext _ := of_course hsteadfast fun s _ ↦ .of_minds s rfl rfl rfl rfl
  setCallStack _ := of_course hsteadfast fun s _ ↦ .of_minds s rfl rfl rfl rfl
  whenIdle {σ f} m' elapsed hf := by
    have hbegin : Basic { σ with pumping := some m' } (beginUpdate m' elapsed) := .beginUpdate rfl elapsed
    exact whenIdle m' (bind (basic hsteadfast hbegin) fun _ ↦ hf)

/-- On the way back from a step no frame is forgotten, as long as the world that the step leaves is as it should be. -/
theorem back {m' : MindId} {id : FrameId} {s : List FrameKey} {w₁ : World} (hvalid : Moment.Valid ⟨(m', id) :: s, w₁⟩)
    (hw : w₁.isUpdating m = true) (hP : P w₁) (c : Context) (after : Frame) (step : Except EvalError Step)
    (unused : List Link) (hend : P (((w₁.enter c s.head?).returnFrame m' id after step).release unused)) :
    let w₂ := (w₁.enter c s.head?).returnFrame m' id after step
    Deed none ⟨(m', id) :: s, w₁⟩ ⟨s, w₂⟩ ∧ Watched P m s w₂ (w₂.release unused) ∧
      Vigil P m ⟨(m', id) :: s, w₁⟩ ⟨s, w₂.release unused⟩ := by
  intro w₂
  have hback : Deed none ⟨(m', id) :: s, w₁⟩ ⟨s, w₂⟩ := .back c after step
  have hreturned : P w₂ := hsteadfast.still (World.still_release w₂ _).symm hend
  have hrelease : Watched P m s w₂ (w₂.release unused) := by
    have hcourse : Course none ⟨s, w₂⟩ ⟨s, w₂.release unused⟩ := .of_heap s (World.still_release _ _).outcomes
    exact (Watched.of_course hsteadfast (by simp) hcourse (hvalid.act hback.act)
      ((hback.sameTick (by simp)).updating.trans hw) hreturned).2
  refine ⟨hback, hrelease, .trans (.of_deed hback hP fun f ↦ ?_) hrelease.vigil⟩
  refine hback.heeds hvalid (by simp) fun heq ↦ ?_
  have hlength := congrArg List.length heq
  simp only [List.length_cons] at hlength
  omega

/-- A step heeds all frames, and the frame that it is a step of has moved at its end. -/
theorem runFrame {E : Engine} {m' : MindId} {id : FrameId} {frame : Frame} {s : List FrameKey} {w : World}
    {entry : FrameEntry} (hbody : ∀ i, Heedful P m { σ with current := some (m', id), scoping := true }
      (stepInvocation E m' id i frame entry.delivered)) (hpumping : σ.pumping ≠ some m)
    (hvalid : Moment.Valid ⟨s, w⟩) (hminds : σ.minds ≤ w.minds.size) (hw : w.isUpdating m = true) (hP : P w)
    (he : w.entryAt m' id = some entry) (hu : w.isFinished entry.handle = false)
    (hframe : entry.frame = some frame) (hend : P (runFrame E m' id entry frame w).2)
    (hne : (runFrame E m' id entry frame w).1 ≠ .error .exhausted) :
    Watched P m s w (runFrame E m' id entry frame w).2 ∧
      World.Moved m' id w (runFrame E m' id entry frame w).2 := by
  let i : Invocation := ⟨w.classes.nameOf entry.owner, entry.handle.name⟩
  have hbegin : Deed none ⟨s, w⟩ ⟨(m', id) :: s, w.takeFrame m' id entry frame⟩ := .begin he hu hframe
  have hbegun := hvalid.act hbegin.act
  have hstep := hbody i hpumping _ _ hbegun rfl (hminds.trans hbegin.act.minds_le)
    ((hbegin.sameTick (by simp)).updating.trans hw) (hsteadfast.deed hbegin hvalid (Nat.le_succ _) hP)
  rcases hrun : stepInvocation E m' id i frame entry.delivered (w.takeFrame m' id entry frame) with ⟨result, w₁⟩
  rw [hrun] at hstep
  match result with
  | .error .exhausted =>
    rw [runFrame_of_error rfl hrun] at hne
    exact absurd rfl hne
  | .error (.raised e) => exact absurd (congrArg Prod.fst hrun) (Calm.stepInvocation E m' id i frame _ _ e)
  | .ok (body, step, unused) =>
    have hstep := hstep (by simp)
    let after := { frame with context := w₁.context, body, updateCount := frame.updateCount + 1 }
    let w₂ := (w₁.enter w.context w.current).returnFrame m' id after step
    have hvalid₁ := hbegun.journey hstep.vigil.journey
    have hcurrent : w.current = s.head? := hvalid.current
    rw [runFrame_of_ok rfl hrun] at hend ⊢
    obtain ⟨hback, hrelease, hreturns⟩ : Deed none ⟨(m', id) :: s, w₁⟩ ⟨s, w₂⟩ ∧
        Watched P m s w₂ (w₂.release (unused.map .object)) ∧
        Vigil P m ⟨(m', id) :: s, w₁⟩ ⟨s, w₂.release (unused.map .object)⟩ := by
      simp only [w₂, hcurrent] at hend ⊢
      exact back hsteadfast hvalid₁ hstep.updating hstep.still w.context after step _ hend
    -- From the beginning of the step on, every frame is heeded.
    have hlater : Vigil P m ⟨(m', id) :: s, w.takeFrame m' id entry frame⟩ ⟨s, w₂.release (unused.map .object)⟩ :=
      hstep.vigil.trans hreturns
    have hmoved : World.Moved m' id w (w₂.release (unused.map .object)) := by
      obtain ⟨e₁, he₁, hhandle⟩ := hstep.held m' id List.mem_cons_self _ (World.entryAt_takeFrame he frame)
      have henter := World.still_enter w₁ w.context w.current
      have hlt : frame.updateCount < after.updateCount := Nat.lt_succ_self _
      have hreturned := World.moved_returnFrame (hvalid₁.sound.still henter) he (by rwa [henter.entryAt]) hhandle
        hframe hlt step
      exact World.Heeds.moved_left hreturned (World.Dozes.release w₂ _).heeds
    refine ⟨⟨.head ⟨⟨none, hbegin⟩, hP, fun f ↦ ?_⟩ hlater, hend, hrelease.updating, ?_⟩, hmoved⟩
    · by_cases hmine : m = m' ∧ f = id
      · obtain ⟨rfl, rfl⟩ := hmine
        refine .of_moved (fun o c hc hfin ↦ ?_) hmoved
        exact (hlater.heeds f).final o c (hbegin.act.final hvalid hc hfin) hfin
      · refine (hbegin.heeds hvalid (by simp) fun heq ↦ hmine ?_).trans (hlater.heeds f)
        obtain ⟨heq, -⟩ := List.cons.inj heq
        exact ⟨(Prod.mk.inj heq).1.symm, (Prod.mk.inj heq).2.symm⟩
    · exact (hbegin.act.held hvalid).trans (hstep.held.tail.trans
        ((hback.act.held hvalid₁).tail.trans hrelease.held))

end Heedful

end Machine

end MindScript
