import MindScript.Proofs.Scheduler.Groups

/-!
# What a poll makes of a group

The first step of a group starts its branches one after the other.  Each step ends with a poll of the branches that were
started: the poll settles the group, or the group goes on watching.  What a poll comes to can be told from the branches
alone, and it settles the group just when the scheduler takes the group for decided.
-/

namespace MindScript

open Machine

variable {E : Engine} {m : MindId} {id : FrameId} {g g' : Group} {count : ℕ} {step : Except EvalError Step} {s : List FrameKey}
  {w w' : World}

/-! ### Polls -/

/-- What a poll makes of the branches of a group, in the order of their declaration. -/
inductive Group.Poll (g : Group) (w : World) : Except EvalError Step → Prop where
  /-- A `sync` group fails like the first branch that has failed. -/
  | failed {before after : List Handle} {b : Handle} {err : EvalError} : g.policy = .sync →
      g.handles.toList = before ++ b :: after → (∀ a ∈ before, w.status a ≠ .failed) → w.status b = .failed →
      (w.heap.outcome b.outcome).error = some err → Poll g w (.error err)
  /-- It completes once all branches have settled and none has failed. -/
  | completed : g.policy = .sync → (∀ h ∈ g.handles, w.isFinished h = true ∧ w.status h ≠ .failed) →
      Poll g w (.ok (.done .nil))
  /-- Any other group settles like the first branch that has settled. -/
  | settled {before after : List Handle} {b : Handle} : g.policy ≠ .sync → g.handles.toList = before ++ b :: after →
      (∀ a ∈ before, w.isFinished a = false) → w.isFinished b = true → Poll g w (w.heap.outcome b.outcome).verdict
  | empty : g.policy ≠ .sync → g.handles = #[] → Poll g w (.ok (.done .nil))
  | watching : g.handles ≠ #[] → g.isDecided w.status = false → Poll g w (.ok (.suspend .children))

theorem Group.isDecided_eq_any (hpolicy : g.policy ≠ .sync) (status : Handle → FrameStatus) :
    g.isDecided status = g.handles.any fun h ↦ (status h).isFinished := by
  unfold isDecided
  cases hp : g.policy with
  | sync => exact absurd hp hpolicy
  | race => rfl
  | any => rfl

theorem Outcome.exists_ending_verdict (o : Outcome) : ∃ ending, Ending.ofStep? o.verdict = some ending := by
  unfold Outcome.verdict
  split
  · exact ⟨_, rfl⟩
  · exact ⟨_, rfl⟩

namespace Group.Poll

theorem exists_ending (h : g.Poll w step) (hdecided : g.isDecided w.status = true) :
    ∃ ending, Ending.ofStep? step = some ending := by
  cases h with
  | failed _ _ _ _ _ => exact ⟨_, rfl⟩
  | completed _ _ => exact ⟨_, rfl⟩
  | settled _ _ _ _ => exact Outcome.exists_ending_verdict _
  | empty _ _ => exact ⟨_, rfl⟩
  | watching _ hundecided => exact absurd (hundecided.symm.trans hdecided) Bool.false_ne_true

/-- A poll that does not settle the group finds it undecided. -/
theorem undecided {wake : Wake} (h : g.Poll w (.ok (.suspend wake))) :
    wake = .children ∧ g.handles ≠ #[] ∧ g.isDecided w.status = false := by
  generalize hstep : (Except.ok (Step.suspend wake) : Except EvalError Step) = step at h
  cases h with
  | failed _ _ _ _ _ => cases hstep
  | completed _ _ => cases hstep
  | settled _ _ _ _ =>
    obtain ⟨ending, hending⟩ := Outcome.exists_ending_verdict (w.heap.outcome _)
    rw [← hstep] at hending
    cases hending
  | empty _ _ => cases hstep
  | watching hne hundecided =>
    cases hstep
    exact ⟨rfl, hne, hundecided⟩

/-- The poll and the scheduler agree. -/
theorem watching_iff (h : g.Poll w step) (hne : g.handles ≠ #[]) :
    step = .ok (.suspend .children) ↔ g.isDecided w.status = false := by
  constructor
  · rintro rfl
    exact h.undecided.2.2
  · intro hundecided
    cases h with
    | @failed before after b err hpolicy htoList _ hb _ =>
      have hmem : b ∈ g.handles := by simp [← Array.mem_toList_iff, htoList]
      have hfailed : (g.handles.any fun h ↦ w.status h == .failed) = true :=
        Array.any_eq_true'.mpr ⟨b, hmem, beq_iff_eq.mpr hb⟩
      simp [isDecided, hpolicy, hfailed] at hundecided
    | completed hpolicy hall =>
      have hdone : (g.handles.all fun h ↦ (w.status h).isFinished) = true :=
        Array.all_eq_true'.mpr fun h hh ↦ (hall h hh).1
      simp [isDecided, hpolicy, hdone] at hundecided
    | @settled before after b hpolicy htoList _ hb =>
      have hmem : b ∈ g.handles := by simp [← Array.mem_toList_iff, htoList]
      rw [isDecided_eq_any hpolicy, Array.any_eq_false'] at hundecided
      exact absurd hb (hundecided b hmem)
    | empty _ hempty => exact absurd hempty hne
    | watching _ _ => rfl

theorem first_unique {p : Handle → Bool} {before after before' after' : List Handle} {b b' : Handle}
    (h : g.handles.toList = before ++ b :: after) (hbefore : ∀ a ∈ before, p a = false) (hb : p b = true)
    (h' : g.handles.toList = before' ++ b' :: after') (hbefore' : ∀ a ∈ before', p a = false) (hb' : p b' = true) :
    b = b' := by
  have hfind := List.find?_eq_some_iff_append.mpr ⟨hb, before, after, h, fun a ha ↦ by simp [hbefore a ha]⟩
  have hfind' := List.find?_eq_some_iff_append.mpr ⟨hb', before', after', h', fun a ha ↦ by simp [hbefore' a ha]⟩
  exact Option.some.inj (hfind.symm.trans hfind')

theorem of_empty (h : g.Poll w step) (hempty : g.handles = #[]) : step = .ok (.done .nil) := by
  have hnobody : ∀ {before after : List Handle} {b : Handle}, g.handles.toList ≠ before ++ b :: after := by
    intro before after b htoList
    simp [hempty] at htoList
  cases h with
  | failed _ htoList _ _ _ => exact absurd htoList hnobody
  | completed _ _ => rfl
  | settled _ htoList _ _ => exact absurd htoList hnobody
  | empty _ _ => rfl
  | watching hne _ => exact absurd hempty hne

/-- A poll comes to one thing only. -/
theorem unique {step' : Except EvalError Step} (h : g.Poll w step) (h' : g.Poll w step') : step = step' := by
  by_cases hempty : g.handles = #[]
  · rw [h.of_empty hempty, h'.of_empty hempty]
  by_cases hundecided : g.isDecided w.status = false
  · rw [(h.watching_iff hempty).mpr hundecided, (h'.watching_iff hempty).mpr hundecided]
  cases h with
  | @failed before after b err hpolicy htoList hbefore hb herr =>
    cases h' with
    | failed _ htoList' hbefore' hb' herr' =>
      obtain rfl : b = _ := first_unique (p := fun x ↦ w.status x == .failed) htoList (by simpa using hbefore)
        (beq_iff_eq.mpr hb) htoList' (by simpa using hbefore') (beq_iff_eq.mpr hb')
      rw [Option.some.inj (herr.symm.trans herr')]
    | completed _ hall =>
      have hmem : b ∈ g.handles := by simp [← Array.mem_toList_iff, htoList]
      exact absurd hb (hall b hmem).2
    | settled hne _ _ _ => exact absurd hpolicy hne
    | empty hne _ => exact absurd hpolicy hne
    | watching _ hwatching => exact absurd hwatching hundecided
  | completed hpolicy hall =>
    cases h' with
    | @failed _ _ b _ _ htoList _ hb _ =>
      have hmem : b ∈ g.handles := by simp [← Array.mem_toList_iff, htoList]
      exact absurd hb (hall b hmem).2
    | completed _ _ => rfl
    | settled hne _ _ _ => exact absurd hpolicy hne
    | empty hne _ => exact absurd hpolicy hne
    | watching _ hwatching => exact absurd hwatching hundecided
  | @settled before after b hne htoList hbefore hb =>
    cases h' with
    | failed hpolicy _ _ _ _ => exact absurd hpolicy hne
    | completed hpolicy _ => exact absurd hpolicy hne
    | settled _ htoList' hbefore' hb' => rw [first_unique htoList hbefore hb htoList' hbefore' hb']
    | empty _ h => exact absurd h hempty
    | watching _ hwatching => exact absurd hwatching hundecided
  | empty _ h => exact absurd h hempty
  | watching _ hwatching => exact absurd hwatching hundecided

end Group.Poll

/-- A coroutine that has failed has an error. -/
theorem Moment.Valid.exists_error (h : Moment.Valid ⟨s, w⟩) {x : Handle} (hfailed : w.status x = .failed) :
    ∃ err, (w.heap.outcome x.outcome).error = some err := by
  obtain ⟨cell, hcell, -⟩ := World.cell_of_isFinished (w := w) (h := x) (by rw [World.isFinished, hfailed]; rfl)
  have hbare : (w.heap.outcome x.outcome).bare = cell := World.outcome_of_cell? hcell
  have hfits : (w.heap.outcome x.outcome).bare.Fits := hbare ▸ h.sound.cells _ _ hcell
  exact Option.isSome_iff_exists.mp (hfits.error.mpr hfailed)

namespace Machine

/-- Every poll comes to something, and changes no frame but for the branches that it lets go. -/
theorem exists_poll (hvalid : Moment.Valid ⟨s, w⟩) (m : MindId) (id : FrameId) (g : Group) :
    ∃ step w', decideGroup m id g w = (.ok step, w') ∧ g.Poll w step ∧
      (w.Still w' ∨ (w.detachChildren m id).Still w') := by
  cases hpolicy : g.policy with
  | sync =>
    rw [decideGroup, get_bind]
    simp only [hpolicy]
    cases hfind : g.handles.find? fun h ↦ w.status h == .failed with
    | some b =>
      obtain ⟨hb, before, after, htoList, hbefore⟩ := List.find?_eq_some_iff_append.mp (Array.find?_toList ▸ hfind)
      have hb : w.status b = .failed := beq_iff_eq.mp hb
      obtain ⟨err, herr⟩ := hvalid.exists_error hb
      refine ⟨.error err, w, ?_, .failed hpolicy htoList (fun a ha ↦ by simpa using hbefore a ha) hb herr, .inl (.refl w)⟩
      simp only [herr, Option.getD_some]
      rfl
    | none =>
      have hnone : ∀ h ∈ g.handles, w.status h ≠ .failed := by simpa using hfind
      cases hall : g.handles.all w.isFinished with
      | true =>
        have hdone := Array.all_eq_true'.mp hall
        exact ⟨_, _, rfl, .completed hpolicy fun h hh ↦ ⟨hdone h hh, hnone h hh⟩, .inl (World.still_retain ..)⟩
      | false =>
        refine ⟨_, w, rfl, .watching (fun hempty ↦ ?_) ?_, .inl (.refl w)⟩
        · simp [hempty] at hall
        · have hfailed : (g.handles.any fun h ↦ w.status h == .failed) = false := by
            rw [Array.any_eq_false']
            exact fun h hh hfailed ↦ hnone h hh (beq_iff_eq.mp hfailed)
          have hsame : (g.handles.all fun h ↦ (w.status h).isFinished) = false := hall
          simp [Group.isDecided, hpolicy, hfailed, hsame]
  | race | any =>
    have hne : g.policy ≠ .sync := by simp [hpolicy]
    cases hfind : g.handles.find? w.isFinished with
    | some b =>
      obtain ⟨hb, before, after, htoList, hbefore⟩ := List.find?_eq_some_iff_append.mp (Array.find?_toList ▸ hfind)
      obtain ⟨w', hdecide, hstill⟩ := decideGroup_of_find m id hne hfind
      exact ⟨_, w', hdecide, .settled hne htoList (fun a ha ↦ by simpa using hbefore a ha) hb, hstill⟩
    | none =>
      have hu : ∀ h ∈ g.handles, w.isFinished h = false := by simpa using hfind
      cases hempty : g.handles.isEmpty with
      | true =>
        have hnil : g.handles = #[] := by simpa using hempty
        refine ⟨.ok (.done .nil), w.retain (.object .nil), ?_, .empty hne hnil, .inl (World.still_retain ..)⟩
        rw [decideGroup, get_bind]
        simp only [hpolicy, hfind, hempty]
        rfl
      | false =>
        refine ⟨_, w, decideGroup_of_unfinished m id hne hempty hu, .watching (by simpa using hempty) ?_, .inl (.refl w)⟩
        rw [Group.isDecided_eq_any hne, Array.any_eq_false']
        exact fun h hh hfin ↦ Bool.false_ne_true ((hu h hh).symm.trans hfin)

end Machine

/-! ### Branches -/

/-- What a step of a group has when it polls: the first one has started the branches. -/
inductive Group.Starts (E : Engine) (m : MindId) (id : FrameId) (g : Group) (w : World) : ℕ → Group → World → Prop where
  | first {handles : Array Handle} {u : World} :
      startBranches E m id g.policy (w.context.arena.listAt g.branches) g.handles w = (.ok handles, u) →
      Starts E m id g w 0 { g with handles } u
  | later {count : ℕ} : count ≠ 0 → Starts E m id g w count g w

namespace Machine

/-- All branches are started, up to the first one that settles at once where one settled branch decides. -/
theorem started_startBranches {policy : Policy} {branches : List ExprId} {handles handles' : Array Handle}
    (hrun : startBranches E m id policy branches handles w = (.ok handles', w')) :
    handles'.size = handles.size + branches.length ∨ policy ≠ .sync ∧ ∃ h ∈ handles', w'.isFinished h = true := by
  induction branches generalizing handles w with
  | nil =>
    cases hrun
    exact .inl rfl
  | cons branch rest ih =>
    obtain ⟨context, w₁, -, hrun⟩ := exists_of_bind_eq_ok hrun
    obtain ⟨h, w₂, -, hrun⟩ := exists_of_bind_eq_ok hrun
    rw [get_bind] at hrun
    cases hdecided : policy != .sync && w₂.isFinished h with
    | true =>
      rw [if_pos hdecided] at hrun
      cases hrun
      obtain ⟨hpolicy, hfin⟩ := Bool.and_eq_true_iff.mp hdecided
      exact .inr ⟨by simpa using hpolicy, h, Array.mem_push_self, hfin⟩
    | false =>
      rw [if_neg (by simp [hdecided])] at hrun
      refine (ih hrun).imp_left fun hsize ↦ ?_
      rw [hsize, Array.size_push, List.length_cons]
      omega

theorem exists_of_pollGroup (hrun : pollGroup E m id g count w = (.ok (g', step), w')) :
    ∃ u, g.Starts E m id w count g' u ∧ decideGroup m id g' u = (.ok step, w') := by
  unfold pollGroup at hrun
  by_cases hcount : count = 0
  · subst hcount
    rw [if_pos rfl, get_bind] at hrun
    obtain ⟨handles, u, hbranches, hrun⟩ := exists_of_bind_eq_ok hrun
    rw [pure_bind] at hrun
    obtain ⟨step₁, w₁, hdecide, hpure⟩ := exists_of_bind_eq_ok hrun
    cases hpure
    exact ⟨_, .first hbranches, hdecide⟩
  · rw [if_neg hcount, pure_bind] at hrun
    obtain ⟨step₁, w₁, hdecide, hpure⟩ := exists_of_bind_eq_ok hrun
    cases hpure
    exact ⟨w, .later hcount, hdecide⟩

end Machine

namespace Group.Starts

variable {u : World}

theorem policy (h : g.Starts E m id w count g' u) : g'.policy = g.policy := by
  cases h <;> rfl

theorem branches (h : g.Starts E m id w count g' u) : g'.branches = g.branches := by
  cases h <;> rfl

/-- A group that goes on watching after its first step has started all its branches, and so has a `sync` group in any
case. -/
theorem size (h : g.Starts E m id w 0 g' u) (hfresh : g.handles = #[])
    (hall : g.policy = .sync ∨ ∃ wake, g'.Poll u (.ok (.suspend wake))) :
    g'.handles.size = (w.context.arena.listAt g.branches).length := by
  generalize hcount : 0 = count at h
  cases h with
  | later hne => exact absurd hcount.symm hne
  | @first handles _ hstart =>
    rcases started_startBranches hstart with hsize | ⟨hpolicy, x, hx, hfin⟩
    · rwa [hfresh, Array.size_empty, Nat.zero_add] at hsize
    obtain ⟨wake, hpoll⟩ := hall.resolve_left hpolicy
    -- A branch that has settled decides the group.
    obtain ⟨-, -, hundecided⟩ := hpoll.undecided
    rw [isDecided_eq_any (by exact hpolicy), Array.any_eq_false'] at hundecided
    exact absurd hfin (hundecided x hx)

end Group.Starts

/-! ### Coming back -/

/-- What a frame shows when it has come back from a step. -/
inductive Card.Returned (c : Card) (frame : Frame) : Except EvalError Step → Card → Prop where
  | ended {step : Except EvalError Step} {ending : Ending} {origin : Origin} {c' : Card} :
      Ending.ofStep? step = some ending → c'.cell.status = ending.status → c'.cell.result = ending.result? →
      c'.cell.error = ending.error?.map (·.withOrigin origin) → Returned c frame step c'
  /-- It would wait for itself. -/
  | stuck {x : Handle} {c' : Card} : c'.cell.status = .failed → Returned c frame (.ok (.suspend (.frame x))) c'
  /-- It has been told to stop in its step. -/
  | stopped {wake : Wake} {c' : Card} : c.stopRequested = true → c'.cell.status = .stopped →
      Returned c frame (.ok (.suspend wake)) c'
  | asleep (wake : Wake) : c.stopRequested = false →
      Returned c frame (.ok (.suspend wake)) ({ c with frame := some frame }.asleep wake)

theorem Card.Returned.asleep_of_unfinished {c c' : Card} {frame : Frame} (h : c.Returned frame step c')
    (hu : c'.isFinished = false) : ∃ wake, step = .ok (.suspend wake) ∧ c.stopRequested = false ∧
      c' = { c with frame := some frame }.asleep wake := by
  cases h with
  | @ended _ ending _ _ _ hstatus _ _ =>
    rw [isFinished, hstatus, ending.isFinished_status] at hu
    cases hu
  | stuck hstatus =>
    rw [isFinished, hstatus] at hu
    cases hu
  | stopped _ hstatus =>
    rw [isFinished, hstatus] at hu
    cases hu
  | asleep wake hstop => exact ⟨wake, rfl, hstop, rfl⟩

namespace World

variable {stack : List FrameKey} {c : Card}

/-- A frame comes back as its step says, unless it would wait for itself or has been told to stop. -/
theorem card_returnFrame (h : Sound ∅ ((m, id) :: stack) w) (hc : w.card m id = some c) (frame : Frame)
    (step : Except EvalError Step) : ∃ c', (w.returnFrame m id frame step).card m id = some c' ∧
      c'.handle = c.handle ∧ c.Returned frame step c' := by
  have hback := h.putBack frame
  have hput := card_putBack h.filed hc frame
  have hu := h.unfinished_of_mem List.mem_cons_self hc
  have hreturn := returnFrame_of_card hc frame step
  set v := w.modifyEntry m id fun e ↦ { e with frame := some frame }
  -- A frame that has ended is not stopped any more.
  have hkept : ∀ {c'}, (v.conclude m id step).card m id = some c' → c'.isFinished = true →
      (w.returnFrame m id frame step).card m id = some c' := by
    intro c' hc' hfin
    rw [hreturn]
    dsimp only
    split
    · rw [stopFrame, stopWith_of_finished _ hc' hfin, hc']
    · exact hc'
  have hfinish : ∀ {u : World} (ending : Ending), Still v u → ∃ c' origin, (u.finishFrame m id ending).card m id = some c' ∧
      c'.handle = c.handle ∧ c'.cell.status = ending.status ∧ c'.cell.result = ending.result? ∧
      c'.cell.error = ending.error?.map (·.withOrigin origin) := by
    intro u ending hstill
    have hsound := hback.still hstill
    rw [← insert_empty_eq] at hsound
    have hcard : u.card m id = some { c with frame := some frame } := by rw [hstill.card, hput]
    exact card_finishFrame hsound hcard hu h.notMem_top ending
  have hconcludes := concludes_conclude v m id step
  generalize v.conclude m id step = v' at hreturn hkept hconcludes
  cases hconcludes with
  | ended ls hending =>
    obtain ⟨c', origin, hc', hhandle, hstatus, hresult, herror⟩ := hfinish _ (still_release v ls)
    exact ⟨c', hkept hc' (by rw [Card.isFinished, hstatus, Ending.isFinished_status]), hhandle,
      .ended hending hstatus hresult herror⟩
  | stuck _ _ =>
    obtain ⟨c', origin, hc', hhandle, hstatus, -⟩ := hfinish _ (.refl v)
    rw [← (still_release _ _).card] at hc'
    exact ⟨c', hkept hc' (by rw [Card.isFinished, hstatus]; rfl), hhandle, .stuck hstatus⟩
  | asleep wake _ =>
    obtain ⟨e', he', -⟩ := card_eq_some_iff.mp hput
    have hasleep := (revised_sleep hback.filed he' wake).card_of_card hput
    rw [atFrame_self] at hasleep
    cases hstop : c.stopRequested with
    | false =>
      rw [hreturn, hstop, if_neg Bool.false_ne_true]
      exact ⟨_, hasleep, rfl, .asleep wake hstop⟩
    | true =>
      have hsound : Sound (insert (m, id) ∅) stack (v.sleep m id wake) :=
        h.returnAsleep hc (fun _ ↦ Set.mem_insert _ _) frame wake
      obtain ⟨c', origin, hc', hhandle, hstatus, -⟩ := card_finishFrame hsound hasleep rfl h.notMem_top .stopped
      rw [hreturn, hstop, if_pos rfl, stopFrame, stopWith_of_stored _ hasleep rfl rfl]
      exact ⟨c', hc', hhandle, .stopped hstop hstatus⟩

end World

end MindScript
