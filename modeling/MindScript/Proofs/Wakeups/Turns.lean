import MindScript.Proofs.Wakeups.Heedful
import MindScript.Proofs.Wakeups.Loops
import MindScript.Proofs.Wakeups.Posted

/-!
# The turns of an update

While frames run, an update looks at each frame that may have something to do: at those that were in the list when it
began, and at those that were woken since.  A frame that comes to its turn and has something to do makes a step.  One
that was woken too early leaves the ready queue without a step, and stands in the list of the frame that it awaits.
-/

namespace MindScript

open Machine

/-! ### What wakes a frame -/

namespace World

/-- What a sleeping frame waits for, other than time, has happened. -/
inductive Happened (w : World) (e : FrameEntry) : Prop where
  | delivered {name : String} : e.wake = some (.event name) → e.delivered.isSome = true → Happened w e
  | finished {x : Handle} : e.wake = some (.frame x) → w.isFinished x = true → Happened w e
  | decided {frame : Frame} {g : Group} : e.wake = some .children → e.frame = some frame → frame.body = .group g →
      g.isDecided w.status = true → Happened w e
  | childless : e.wake = some .children → (∀ frame g, e.frame = some frame → frame.body ≠ .group g) →
      e.children.isEmpty = true → Happened w e

variable {v w : World} {m : MindId} {f : FrameId} {s : List FrameKey}

theorem conditionHolds_iff : w.conditionHolds m f = true ↔
    ∃ e, w.entryAt m f = some e ∧ w.status e.handle = .suspended ∧ w.Happened e := by
  unfold conditionHolds
  cases w.entryAt m f with
  | none => simp
  | some e =>
    simp only [Bool.and_eq_true, beq_iff_eq, Option.some.injEq, exists_eq_left']
    refine and_congr_right fun _ ↦ ⟨fun h ↦ ?_, fun h ↦ ?_⟩
    · split at h
      · next hwake => exact .delivered hwake h
      · next hwake => exact .finished hwake h
      · next hwake =>
        split at h
        · next g hg =>
          obtain ⟨frame, hframe, hbody⟩ := Option.map_eq_some_iff.mp hg
          exact .decided hwake hframe hbody h
        · next hnone =>
          exact .childless hwake (fun frame g hframe hbody ↦ hnone g (by rw [hframe, ← hbody]; rfl)) h
      all_goals cases h
    · cases h with
      | delivered hwake h => simpa only [hwake] using h
      | finished hwake h => simpa only [hwake] using h
      | decided hwake hframe hbody h => simpa only [hwake, hframe, Option.map_some, hbody] using h
      | childless hwake hnone h =>
        simp only [hwake]
        split
        · next g hg =>
          obtain ⟨frame, hframe, hbody⟩ := Option.map_eq_some_iff.mp hg
          exact absurd hbody (hnone frame g hframe)
        · exact h

/-- A frame that sleeps is stored and has not finished. -/
theorem asleep (hvalid : Moment.Valid ⟨s, w⟩) {e : FrameEntry} (he : w.entryAt m f = some e)
    (hs : w.status e.handle = .suspended) : w.isFinished e.handle = false ∧ e.frame.isSome = true := by
  obtain ⟨cell, hc⟩ := hvalid.sound.filed.card he
  have hstatus : (e.card cell).status = .suspended := (status_of_card hc).symm.trans hs
  have hu : (e.card cell).isFinished = false := congrArg FrameStatus.isFinished hstatus
  refine ⟨(isFinished_of_card hc).trans hu, ?_⟩
  rw [Option.isSome_iff_ne_none]
  intro hnone
  have hrun := ((hvalid.sound.fits m f _ hc).framed hu hnone).1
  rw [hstatus] at hrun
  cases hrun

/-- Of the stored frames that have not finished, those that are not running and wait for something sleep. -/
theorem status_of_wake (hvalid : Moment.Valid ⟨s, w⟩) {e : FrameEntry} {wake : Wake} (he : w.entryAt m f = some e)
    (hwake : e.wake = some wake) : w.status e.handle = .suspended := by
  obtain ⟨cell, hc⟩ := hvalid.sound.filed.card he
  exact (status_of_card hc).trans ((hvalid.sound.fits m f _ hc).waits.mp (by
    change e.wake.isSome = true
    rw [hwake]
    rfl))

/-- A group stays decided, since branches that have settled stay settled. -/
theorem isDecided_mono {g : Group} {status status' : Handle → FrameStatus}
    (h : ∀ x, (status x).isFinished = true → status' x = status x) (hg : g.isDecided status = true) :
    g.isDecided status' = true := by
  have hfinished : ∀ x, (status x).isFinished = true → (status' x).isFinished = true := fun x hx ↦ by rw [h x hx, hx]
  have hfailed : ∀ x, status x = .failed → status' x = .failed := fun x hx ↦ by rw [h x (by rw [hx]; rfl), hx]
  have hone : (g.handles.any fun x ↦ (status x).isFinished) = true →
      (g.handles.any fun x ↦ (status' x).isFinished) = true := by
    simp only [Array.any_eq_true']
    exact fun ⟨x, hx, hf⟩ ↦ ⟨x, hx, hfinished x hf⟩
  unfold Group.isDecided at hg ⊢
  cases hpolicy : g.policy with
  | sync =>
    simp only [hpolicy, Bool.or_eq_true, Array.all_eq_true', Array.any_eq_true', beq_iff_eq] at hg ⊢
    exact hg.imp (fun hall x hx ↦ hfinished x (hall x hx)) fun ⟨x, hx, hf⟩ ↦ ⟨x, hx, hfailed x hf⟩
  | race =>
    rw [hpolicy] at hg
    exact hone hg
  | any =>
    rw [hpolicy] at hg
    exact hone hg

/-- What has happened stays so until the frame has moved. -/
theorem Heeds.conditionHolds (h : Heeds m f v w) (hvalid : Moment.Valid ⟨s, v⟩) (hv : v.conditionHolds m f = true) :
    Moved m f v w ∨ w.conditionHolds m f = true := by
  obtain ⟨e, he, hs, hhappened⟩ := conditionHolds_iff.mp hv
  obtain ⟨hu, hframe⟩ := asleep hvalid he hs
  refine (h.rests e he hframe hu).imp_right ?_
  rintro ⟨e', he', hkeeps, hstatus, -⟩
  have hfinal : ∀ x, (v.status x).isFinished = true → w.status x = v.status x := by
    intro x hx
    obtain ⟨c, hc, hfin⟩ := cell_of_isFinished hx
    rw [status_of_cell? (h.final _ c hc hfin), status_of_cell? hc]
  refine conditionHolds_iff.mpr ⟨e', he', by rw [hkeeps.handle, hstatus, hs], ?_⟩
  cases hhappened with
  | delivered hwake h => exact .delivered (hkeeps.wake.trans hwake) (by rwa [hkeeps.delivered h])
  | finished hwake hx => exact .finished (hkeeps.wake.trans hwake) (h.isFinished hx)
  | decided hwake hframe hbody h =>
    exact .decided (hkeeps.wake.trans hwake) (hkeeps.frame.trans hframe) hbody (isDecided_mono hfinal h)
  | childless hwake hnone h =>
    exact .childless (hkeeps.wake.trans hwake) (fun frame g hframe ↦ hnone frame g (hkeeps.frame ▸ hframe))
      (hkeeps.children h)

/-! ### Frames that are awaited are there -/

/-- The outcomes of the frames that are awaited are there. -/
def Grounded (w : World) : Prop :=
  ∀ m id e x, w.entryAt m id = some e → e.wake = some (.frame x) → x.outcome.index < w.heap.outcomes.size

/-- Whoever awaits a frame stands in its list, and the frame is one that has been registered. -/
structure Anchored (w : World) : Prop where
  posted : w.Posted
  grounded : w.Grounded

theorem Anchored.tethers (h : v.Anchored) (ht : Tethers v w) (hsize : v.heap.outcomes.size ≤ w.heap.outcomes.size) :
    w.Anchored := by
  refine ⟨h.posted.tethers ht, fun m id e' x he' hx ↦ ?_⟩
  obtain ⟨e, he, -, hwake, -⟩ := ht.entry m id e' he'
  exact Nat.lt_of_lt_of_le (h.grounded m id e x he (hwake _ hx)) hsize

theorem outcomes_le {M M' : Moment} (h : Act M M') (hvalid : M.Valid) :
    M.world.heap.outcomes.size ≤ M'.world.heap.outcomes.size := by
  by_contra hlt
  have hlt := Nat.lt_of_not_le hlt
  obtain ⟨o, ho⟩ : ∃ o, M.world.cell? ⟨M'.world.heap.outcomes.size⟩ = some o :=
    Option.isSome_iff_exists.mp (by simpa [cell?, Heap.outcome?] using hlt)
  obtain ⟨o', ho', -⟩ := (hvalid.advances h).cell _ o ho
  exact Nat.lt_irrefl _ (index_of_cell? (Option.isSome_iff_exists.mpr ⟨o', ho'⟩))

/-- A new frame awaits nobody. -/
theorem Grounded.register (h : w.Grounded) (hvalid : Moment.Valid ⟨s, w⟩) (name : String) (owner : ClassId)
    {parent : Option FrameId} (frame : Frame) (hm : m.index < w.minds.size)
    (hparent : ∀ p, parent = some p → s.head? = some (m, p)) : (w.register m name owner parent frame).2.Grounded := by
  have hregistered := hvalid.registered name owner frame hm hparent
  intro m' k e' x he' hx
  rw [hregistered.outcomes]
  obtain ⟨cell', hc'⟩ := hregistered.filed.card he'
  rcases hregistered.card_cases hc' with ⟨rfl, rfl, frame', hcard⟩ | ⟨c, hc, hcard⟩
  · have hwake : e'.wake = none := congrArg Card.wake hcard
    cases hwake.symm.trans hx
  · obtain ⟨e, he, -, hsame⟩ := card_eq_some_iff.mp hc
    have hwake : c.wake = some (.frame x) := (congrArg Card.wake hcard).symm.trans hx
    exact Nat.lt_succ_of_lt (h m' k e x he ((congrArg Card.wake hsame).trans hwake))

theorem steadfast_anchored : Steadfast Anchored where
  still hstill h := h.tethers (.of_still hstill) (Nat.le_of_eq hstill.size_outcomes.symm)
  deed {pumped M M'} h hvalid hstack hanchored := by
    have hsize := outcomes_le h.act hvalid
    cases h with
    | compute hstill _ _ => exact hanchored.tethers (.of_still hstill) hsize
    | register name owner frame hm hparent =>
      exact ⟨hanchored.posted.register hvalid.sound.filed.tidy _ name owner _ frame hanchored.grounded,
        hanchored.grounded.register hvalid name owner frame hm hparent⟩
    | begin _ hu _ => exact hanchored.tethers (tethers_takeFrame _ _ _ hu _) hsize
    | back context frame step => exact absurd hstack (Nat.not_succ_le_self _)
    | stop m id => exact hanchored.tethers ((closing_tethers m).stopFrame _ id) hsize
    | sweep m => exact hanchored.tethers (tethers_sweep _ m) hsize
    | detach m id => exact hanchored.tethers (tethers_detachChildren _ m id) hsize
    | notify m event payload => exact hanchored.tethers (tethers_notify _ m event payload) hsize
    | setUpdateInterval x seconds =>
      exact hanchored.tethers (.modifyEntry _ _ _ (fun _ ↦ rfl) (fun _ _ h ↦ h) fun _ ↦ rfl) hsize
    | createMind name =>
      refine ⟨hanchored.posted.createMind name, fun m id e x he hx ↦ hanchored.grounded m id e x ?_ hx⟩
      rwa [entryAt_createMind] at he

end World

/-! ### Turn by turn -/

namespace World

variable {w w₀ : World} {m : MindId} {f : FrameId}

/-- A frame is heeded unless it leaves the queue although the frame that it awaits has finished. -/
theorem Shifted.heeds (h : Shifted m w w₀) (hready : ∀ e x, w.entryAt m f = some e → e.wake = some (.frame x) →
    w.isFinished x = true → f ∈ w.ready m → f ∈ w₀.ready m) : Heeds m f w w₀ := by
  refine ⟨fun o c hc _ ↦ by rw [h.still.cell?, hc], fun e he _ _ ↦ .inr ⟨e, by rw [h.still.entryAt, he], .refl e,
    by rw [h.still.status], fun x hx halert ↦ ⟨fun hu ↦ ?_, fun hfin ↦ ?_⟩⟩⟩
  · rw [h.still.isFinished] at hu
    rw [h.still.entryAt]
    exact halert.before hu
  · rw [h.still.isFinished] at hfin
    exact hready e x he hx hfin (halert.after hfin)

end World

/-- An engine none of whose calls forgets a sleeping frame, and whose steps move the frames that they are steps of. -/
structure Engine.Rouses (P : World → Prop) (m : MindId) (E : Engine) : Prop where
  heedful : E.Satisfies (Heedful P m)
  moved : ∀ {s : List FrameKey} {w : World} {id : FrameId} {e : FrameEntry}, Moment.Valid ⟨s, w⟩ →
    w.isUpdating m = true → P w → w.entryAt m id = some e → w.isFinished e.handle = false → e.frame.isSome = true →
    (E.resume m id w).1 ≠ .error .exhausted → World.Moved m id w (E.resume m id w).2

section

variable {P : World → Prop} {m : MindId} {s : List FrameKey} {w w₀ w' : World}

theorem Watched.shift (hshifted : World.Shifted m w w₀) (h : Watched P m s w₀ w') (hvalid : Moment.Valid ⟨s, w⟩)
    (hP : P w) (hheeds : ∀ f, w.Heeds m f w') : Watched P m s w w' :=
  ⟨.head ⟨⟨_, hshifted.deed⟩, hP, hheeds⟩ h.vigil, h.still, h.updating,
    (hshifted.deed.act.held hvalid).trans h.held⟩

namespace Engine.Rouses

variable {E : Engine} (hE : E.Rouses P m) (hsteadfast : World.Steadfast P) {n : Nat} {ts : List Turn}
  (hvalid : Moment.Valid ⟨s, w⟩) (hw : w.isUpdating m = true) (hP : P w)

include hE hvalid hw hP

theorem resume {id : FrameId} (h : E.resume m id w = (.ok (), w')) : Watched P m s w w' := by
  have hwatched := hE.heedful.resume ⟨s.head?, 0, false, none⟩ m id (by simp) s w hvalid rfl (Nat.zero_le _) hw hP
  rw [h] at hwatched
  exact hwatched (by simp)

/-- A sleeping frame that is resumed has moved in the end. -/
theorem moved_resume {id : FrameId} {e : FrameEntry} (he : w.entryAt m id = some e)
    (hs : w.status e.handle = .suspended) (h : E.resume m id w = (.ok (), w')) : World.Moved m id w w' := by
  obtain ⟨hu, hframe⟩ := World.asleep hvalid he hs
  have hmoved := hE.moved hvalid hw hP he hu hframe
  rw [h] at hmoved
  exact hmoved (by simp)

include hsteadfast

/-- Nobody is left in the ready queue. -/
theorem readyTurns (hrun : Machine.readyTurns E m n w = (.ok ts, w')) : Watched P m s w w' ∧ w'.ready m = [] := by
  induction n generalizing w ts with
  | zero => cases hrun
  | succ n ih =>
    rcases readyTurns_cases hrun with ⟨hempty, rfl, rfl⟩ | ⟨id, w₀, -, hready, hshifted, hcases⟩
    · exact ⟨.refl hw hP, hempty⟩
    have hvalid₀ : Moment.Valid ⟨s, w₀⟩ := hvalid.act hshifted.deed.act
    have hw₀ := hshifted.updating.trans hw
    have hP₀ := hsteadfast.still hshifted.still hP
    have hothers : ∀ f, f ≠ id → w.Heeds m f w₀ := fun f hne ↦ hshifted.heeds fun e x _ _ _ hmem ↦ by
      rw [hready] at hmem
      exact (List.mem_cons.mp hmem).resolve_left hne
    rcases hcases with ⟨hcond, w₁, later, hresume, hlater, -⟩ | ⟨hcond, later, hlater, -⟩
    · obtain ⟨e, he, hs, -⟩ := World.conditionHolds_iff.mp hcond
      have hstep := hE.resume hvalid₀ hw₀ hP₀ hresume
      have hmoved := hE.moved_resume hvalid₀ hw₀ hP₀ he hs hresume
      obtain ⟨hdrained, hempty⟩ := ih (hvalid₀.journey hstep.vigil.journey) hstep.updating hstep.still hlater
      have hall := hstep.trans hdrained
      refine ⟨.shift hshifted hall hvalid hP fun f ↦ ?_, hempty⟩
      by_cases hf : f = id
      · subst hf
        obtain ⟨e', he', hmoves⟩ := World.Heeds.moved_left hmoved (hdrained.vigil.heeds f)
        refine .of_moved (fun o c hc hfin ↦ ?_) ⟨e', by rwa [hshifted.still.entryAt] at he', hmoves⟩
        exact (hall.vigil.heeds f).final o c (by rwa [hshifted.still.cell?]) hfin
      · exact (hothers f hf).trans (hall.vigil.heeds f)
    · obtain ⟨hdrained, hempty⟩ := ih hvalid₀ hw₀ hP₀ hlater
      refine ⟨.shift hshifted hdrained hvalid hP fun f ↦ World.Heeds.trans ?_ (hdrained.vigil.heeds f), hempty⟩
      by_cases hf : f = id
      · -- It was woken too early, so the frame that it awaits has not finished.
        subst hf
        refine hshifted.heeds fun e x he hx hfin _ ↦ ?_
        have hcond' : w₀.conditionHolds m f = true := World.conditionHolds_iff.mpr
          ⟨e, by rw [hshifted.still.entryAt, he], by rw [hshifted.still.status, World.status_of_wake hvalid he hx],
            .finished hx (by rw [hshifted.still.isFinished, hfin])⟩
        exact absurd (hcond.symm.trans hcond') Bool.false_ne_true
      · exact hothers f hf

/-- A frame is resumed, and so are those that are woken. -/
theorem turn {id : FrameId} {w₁ : World} (hresume : E.resume m id w = (.ok (), w₁))
    (hwoken : Machine.readyTurns E m n w₁ = (.ok ts, w')) :
    Watched P m s w w₁ ∧ Watched P m s w₁ w' ∧ w'.ready m = [] := by
  have hstep := hE.resume hvalid hw hP hresume
  exact ⟨hstep, hE.readyTurns hsteadfast (hvalid.journey hstep.vigil.journey) hstep.updating hstep.still hwoken⟩

theorem dueTurns {cause : Cause} {isDue : World → FrameId → Bool} {ids : List FrameId}
    (hrun : Machine.dueTurns E m cause isDue ids w = (.ok ts, w')) : Watched P m s w w' := by
  induction ids generalizing w ts with
  | nil =>
    cases hrun
    exact .refl hw hP
  | cons id rest ih =>
    rcases dueTurns_cases hrun with ⟨-, w₁, woken, w₂, later, hresume, hwoken, hlater, -⟩ | ⟨-, later, hlater, -⟩
    · obtain ⟨hstep, hdrained, -⟩ := hE.turn hsteadfast hvalid hw hP hresume hwoken
      have hturn := hstep.trans hdrained
      exact hturn.trans (ih (hvalid.journey hturn.vigil.journey) hturn.updating hturn.still hlater)
    · exact ih hvalid hw hP hlater

/-- Where what a listed frame waits for has happened, the frame has moved when all frames have had their turns. -/
theorem moved_pollTurns {ids : List FrameId}
    (hrun : Machine.dueTurns E m .poll (fun w id ↦ w.conditionHolds m id) ids w = (.ok ts, w')) {f : FrameId}
    (hf : f ∈ ids) (hcond : w.conditionHolds m f = true) : World.Moved m f w w' := by
  induction ids generalizing w ts with
  | nil => cases hf
  | cons id rest ih =>
    rcases dueTurns_cases hrun with ⟨-, w₁, woken, w₂, later, hresume, hwoken, hlater, -⟩ | ⟨hid, later, hlater, -⟩
    · obtain ⟨hstep, hdrained, -⟩ := hE.turn hsteadfast hvalid hw hP hresume hwoken
      have hturn := hstep.trans hdrained
      have hvalid₂ := hvalid.journey hturn.vigil.journey
      have hrest := hE.dueTurns hsteadfast hvalid₂ hturn.updating hturn.still hlater
      obtain ⟨e, he, hs, -⟩ := World.conditionHolds_iff.mp hcond
      obtain ⟨hu, hframe⟩ := World.asleep hvalid he hs
      rcases List.mem_cons.mp hf with rfl | hmem
      · exact World.Heeds.moved_left (hE.moved_resume hvalid hw hP he hs hresume) ((hdrained.trans hrest).vigil.heeds f)
      · rcases (hturn.vigil.heeds f).conditionHolds hvalid hcond with hmoved | hcond₂
        · exact World.Heeds.moved_left hmoved (hrest.vigil.heeds f)
        · exact (hturn.vigil.heeds f).moved_right he hframe hu
            (ih hvalid₂ hturn.updating hturn.still hlater hmem hcond₂) (hrest.vigil.heeds f)
    · rcases List.mem_cons.mp hf with rfl | hmem
      · exact absurd (hid.symm.trans hcond) Bool.false_ne_true
      · exact ih hvalid hw hP hlater hmem hcond

/-- Nobody is left in either queue. -/
theorem pendingTurns (hrun : Machine.pendingTurns E m n w = (.ok ts, w')) (hready : w.ready m = []) :
    Watched P m s w w' ∧ w'.ready m = [] ∧ w'.pending m = [] := by
  induction n generalizing w ts with
  | zero => cases hrun
  | succ n ih =>
    rcases pendingTurns_cases hrun with ⟨hpending, rfl, rfl⟩ |
      ⟨id, w₀, w₁, woken, w₂, later, -, -, hsame, hshifted, hresume, hwoken, hlater, -⟩
    · exact ⟨.refl hw hP, hready, hpending⟩
    have hvalid₀ : Moment.Valid ⟨s, w₀⟩ := hvalid.act hshifted.deed.act
    obtain ⟨hstep, hdrained, hempty⟩ := hE.turn hsteadfast hvalid₀ (hshifted.updating.trans hw)
      (hsteadfast.still hshifted.still hP) hresume hwoken
    have hturn := hstep.trans hdrained
    obtain ⟨hrest, hqueues⟩ := ih (hvalid₀.journey hturn.vigil.journey) hturn.updating hturn.still hlater hempty
    have hall := hturn.trans hrest
    refine ⟨.shift hshifted hall hvalid hP fun f ↦ ?_, hqueues⟩
    exact (hshifted.heeds fun _ _ _ _ _ hmem ↦ hsame ▸ hmem).trans (hall.vigil.heeds f)

/-- When the frames have had their turns, those that had something to do have moved, and both queues are empty. -/
theorem resumePhases {k : Nat} (hrun : Machine.resumePhases E m w = (.ok k, w')) : Watched P m s w w' ∧
    w'.ready m = [] ∧ w'.pending m = [] ∧ ∀ f ∈ w.live m, w.conditionHolds m f = true → World.Moved m f w w' := by
  rw [resumePhases_eq] at hrun
  obtain ⟨ts, w₄, hturns, hrun⟩ := exists_of_bind_eq_ok hrun
  cases hrun
  obtain ⟨timed, w₁, polled, w₂, woken, w₃, started, htimed, hpolled, hwoken, hstarted, -⟩ := exists_of_turns hturns
  have hfirst := hE.dueTurns hsteadfast hvalid hw hP htimed
  have hvalid₁ := hvalid.journey hfirst.vigil.journey
  have hsecond := hE.dueTurns hsteadfast hvalid₁ hfirst.updating hfirst.still hpolled
  have hvalid₂ := hvalid₁.journey hsecond.vigil.journey
  obtain ⟨hthird, hempty⟩ := hE.readyTurns hsteadfast hvalid₂ hsecond.updating hsecond.still hwoken
  obtain ⟨hlast, hready, hpending⟩ :=
    hE.pendingTurns hsteadfast (hvalid₂.journey hthird.vigil.journey) hthird.updating hthird.still hstarted hempty
  have hrest := hthird.trans hlast
  refine ⟨hfirst.trans (hsecond.trans hrest), hready, hpending, fun f hf hcond ↦ ?_⟩
  obtain ⟨e, he, hs, -⟩ := World.conditionHolds_iff.mp hcond
  obtain ⟨hu, hframe⟩ := World.asleep hvalid he hs
  rcases (hfirst.vigil.heeds f).conditionHolds hvalid hcond with hmoved | hcond₁
  · exact World.Heeds.moved_left hmoved ((hsecond.trans hrest).vigil.heeds f)
  · have hmoved := hE.moved_pollTurns hsteadfast hvalid₁ hfirst.updating hfirst.still hpolled hf hcond₁
    exact (hfirst.vigil.heeds f).moved_right he hframe hu (World.Heeds.moved_left hmoved (hrest.vigil.heeds f))
      ((hsecond.trans hrest).vigil.heeds f)

end Engine.Rouses

end

end MindScript
