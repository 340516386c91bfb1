import MindScript.Proofs.Scheduler.Lifetimes

/-!
# What decides a group

A `race` or an `any` group settles when its own step finds a branch that has settled, and takes over the
outcome of that branch.  It looks through its branches in the order of their declaration, and not in the
order in which they settled.  So it ends like the branch that settled first if no branch that is declared
before that one has settled by the time of the poll; where several branches settle before the group gets to
look, the one declared first decides.
-/

namespace MindScript

/-- The step of a group that this outcome of a branch decides. -/
def Outcome.verdict (o : Outcome) : Except EvalError Step :=
  if o.status = .failed then .error (o.error.getD (.custom "branch failed"))
  else .ok (.done (o.result.getD .nil))

theorem Outcome.verdict_bare (o : Outcome) : o.bare.verdict = o.verdict := rfl

section

variable {o : Outcome}

theorem Outcome.Fits.verdict_of_failed (h : o.Fits) (hs : o.status = .failed) :
    ∃ err, o.error = some err ∧ o.verdict = .error err := by
  obtain ⟨err, herr⟩ := Option.isSome_iff_exists.mp (h.error.mpr hs)
  exact ⟨err, herr, by rw [verdict, if_pos hs, herr, Option.getD_some]⟩

theorem Outcome.Fits.verdict_of_completed (h : o.Fits) (hs : o.status = .completed) :
    ∃ value, o.result = some value ∧ o.verdict = .ok (.done value) := by
  obtain ⟨value, hvalue⟩ := Option.isSome_iff_exists.mp (h.result.mpr hs)
  exact ⟨value, hvalue, by rw [verdict, hs, if_neg nofun, hvalue, Option.getD_some]⟩

theorem Outcome.Fits.verdict_of_neither (h : o.Fits) (hfailed : o.status ≠ .failed)
    (hcompleted : o.status ≠ .completed) : o.verdict = .ok (.done .nil) := by
  have hnone : o.result = none := Option.not_isSome_iff_eq_none.mp fun hsome ↦ hcompleted (h.result.mp hsome)
  rw [verdict, if_neg hfailed, hnone, Option.getD_none]

end

namespace Machine

theorem shareOrNil_apply (r : Option Ref) (w : World) :
    shareOrNil r w = (.ok (r.getD .nil), w.retain (.object (r.getD .nil))) := by
  cases r <;> rfl

theorem branchResult_apply (o : Outcome) (w : World) :
    ∃ w', branchResult o w = (.ok o.verdict, w') ∧ w.Still w' := by
  unfold branchResult Outcome.verdict
  split
  · exact ⟨w, rfl, .refl w⟩
  · refine ⟨w.retain (.object (o.result.getD .nil)), ?_, World.still_retain ..⟩
    rw [bind_of_ok (shareOrNil_apply o.result w)]
    rfl

/-- A group that a single branch decides ends like the first settled branch in the order of declaration. -/
theorem decideGroup_of_find (m : MindId) (id : FrameId) {g : Group} {w : World} {b : Handle}
    (hpolicy : g.policy ≠ .sync) (hfind : g.handles.find? w.isFinished = some b) :
    ∃ w', decideGroup m id g w = (.ok (w.heap.outcome b.outcome).verdict, w') ∧
      (w.Still w' ∨ (w.detachChildren m id).Still w') := by
  rw [decideGroup, get_bind]
  cases hp : g.policy with
  | sync => exact absurd hp hpolicy
  | race =>
    obtain ⟨w', hresult, hstill⟩ := branchResult_apply (w.heap.outcome b.outcome) w
    simp only [hfind]
    exact ⟨w', hresult, .inl hstill⟩
  | any =>
    obtain ⟨w', hresult, hstill⟩ := branchResult_apply (w.heap.outcome b.outcome) (w.detachChildren m id)
    simp only [hfind]
    exact ⟨w', hresult, .inr hstill⟩

/-- As long as no branch has settled, the group goes on watching. -/
theorem decideGroup_of_unfinished (m : MindId) (id : FrameId) {g : Group} {w : World}
    (hpolicy : g.policy ≠ .sync) (hne : g.handles.isEmpty = false)
    (hu : ∀ h ∈ g.handles, w.isFinished h = false) :
    decideGroup m id g w = (.ok (.ok (.suspend .children)), w) := by
  have hfind : g.handles.find? w.isFinished = none := by
    rw [Array.find?_eq_none]
    intro h hh hfin
    rw [hu h hh] at hfin
    exact absurd hfin Bool.false_ne_true
  rw [decideGroup, get_bind]
  cases hp : g.policy with
  | sync => exact absurd hp hpolicy
  | race =>
    simp only [hfind, hne]
    rfl
  | any =>
    simp only [hfind, hne]
    rfl

end Machine

/-! ### Ending with a step -/

namespace World

variable {stack : List FrameKey} {w : World} {m : MindId} {id : FrameId} {c : Card}

theorem stopRequested_detachChildren (hw : w.Filed) (hc : w.card m id = some c) :
    ∃ c', (w.detachChildren m id).card m id = some c' ∧ c'.handle = c.handle ∧
      c'.stopRequested = c.stopRequested := by
  obtain ⟨e, he, -⟩ := card_eq_some_iff.mp hc
  have hrevised := revised_detachChildren hw he
  refine ⟨_, hrevised.card_of_card hc, hrevised.handle m id c hc, ?_⟩
  unfold detaching
  rw [atFrame_self]
  split <;> rfl

/-- A frame that has not been told to stop ends as its step says. -/
theorem card_returnFrame_ended (h : Sound ∅ ((m, id) :: stack) w) (hc : w.card m id = some c)
    (hstop : c.stopRequested = false) (frame : Frame) {step : Except EvalError Step} {ending : Ending}
    (hending : Ending.ofStep? step = some ending) :
    ∃ c' origin, (w.returnFrame m id frame step).card m id = some c' ∧ c'.handle = c.handle ∧
      c'.cell.status = ending.status ∧ c'.cell.result = ending.result? ∧
      c'.cell.error = ending.error?.map (·.withOrigin origin) := by
  have hconcludes := concludes_conclude (w.modifyEntry m id fun e ↦ { e with frame := some frame }) m id step
  have hu := h.unfinished_of_mem List.mem_cons_self hc
  rw [returnFrame_of_card hc, hstop, if_neg Bool.false_ne_true]
  generalize conclude _ m id step = w' at hconcludes ⊢
  cases hconcludes with
  | ended ls hended =>
    obtain rfl := Option.some.inj (hending.symm.trans hended)
    have hstill := still_release (w.modifyEntry m id fun e ↦ { e with frame := some frame }) ls
    have hsound := (h.putBack frame).still hstill
    rw [← insert_empty_eq] at hsound
    have hcard := card_putBack h.filed hc frame
    rw [← hstill.card] at hcard
    exact card_finishFrame hsound hcard hu h.notMem_top ending
  | stuck _ _ => cases hending
  | asleep _ _ => cases hending

end World

/-! ### Groups that settle -/

/-- The first branch that has settled, in the order of declaration. -/
theorem Group.find?_settled {g : Group} {w : World} {before after : List Handle} {b : Handle}
    (hg : g.handles.toList = before ++ b :: after) (hb : w.isFinished b = true)
    (hbefore : ∀ a ∈ before, w.isFinished a = false) : g.handles.find? w.isFinished = some b := by
  rw [← Array.find?_toList, hg, List.find?_append, List.find?_eq_none.mpr fun a ha ↦ by simp [hbefore a ha],
    Option.none_or, List.find?_cons_of_pos hb]

/-- What a branch ended with stays, so the verdict of a group is the same at any later time. -/
theorem Run.verdict_of_finished {M M' : Moment} (hrun : Run M M') (h : M.Valid) {b : Handle}
    (hb : M.world.isFinished b = true) : M'.world.isFinished b = true ∧
      (M'.world.heap.outcome b.outcome).verdict = (M.world.heap.outcome b.outcome).verdict := by
  obtain ⟨cell, hcell, hfin⟩ := World.cell_of_isFinished hb
  have hcell' := hrun.cell_of_finished h hcell hfin
  rw [World.isFinished, World.status_of_cell? hcell', ← Outcome.verdict_bare,
    World.outcome_of_cell? hcell', ← Outcome.verdict_bare (M.world.heap.outcome b.outcome),
    World.outcome_of_cell? hcell]
  exact ⟨hfin, rfl⟩

theorem Moment.Valid.run_decideGroup {M : Moment} (h : M.Valid) {m : MindId} {id : FrameId} {g : Group}
    {step : Except EvalError Step} {w : World}
    (hdecide : Machine.decideGroup m id g M.world = (.ok step, w)) : Run M ⟨M.stack, w⟩ := by
  have halike : Machine.Alike (.ofBudget 0) (.ofBudget 0) ⟨M.stack.head?, 0, true, none⟩
    (Machine.decideGroup m id g) (Machine.decideGroup m id g) := .decideGroup m id g
  obtain ⟨s', hrun, hs⟩ := halike.tracked (Engine.tracked_ofBudget 0) M.stack M.world h rfl (Nat.zero_le _)
  rw [hdecide] at hrun hs
  rw [hs (by simp)] at hrun
  exact hrun.run

/-- A group that has decided, and has not been told to stop, ends as its step says. -/
theorem Moment.Valid.outcome_of_decided {M : Moment} (h : M.Valid) {m : MindId} {id : FrameId} {s : List FrameKey}
    (hstack : M.stack = (m, id) :: s) {e : FrameEntry} (he : M.world.entryAt m id = some e)
    (hstop : e.stopRequested = false) {g : Group} {step result : Except EvalError Step} {w : World}
    (hdecide : Machine.decideGroup m id g M.world = (.ok step, w))
    (hw : M.world.Still w ∨ (M.world.detachChildren m id).Still w) (context : Context) (frame : Frame)
    {ending : Ending} (hending : Ending.ofStep? result = some ending) :
    let group := ((w.enter context s.head?).returnFrame m id frame result).heap.outcome e.handle.outcome
    ∃ origin, group.status = ending.status ∧ group.result = ending.result? ∧
      group.error = ending.error?.map (·.withOrigin origin) := by
  have hsound : Sound ∅ ((m, id) :: s) w := hstack ▸ (h.run (h.run_decideGroup hdecide)).sound
  obtain ⟨cell, hc⟩ := h.sound.filed.card he
  -- The frame of the group is still the one under way, and nobody has told it to stop.
  obtain ⟨c, hcw, hhandle, hcstop⟩ : ∃ c, w.card m id = some c ∧ c.handle = e.handle ∧
      c.stopRequested = false := by
    rcases hw with hstill | hstill
    · exact ⟨_, by rw [hstill.card, hc], rfl, hstop⟩
    · obtain ⟨c, hc', hhandle, hcstop⟩ := World.stopRequested_detachChildren h.sound.filed hc
      exact ⟨c, by rw [hstill.card, hc'], hhandle, hcstop.trans hstop⟩
  have hstill := World.still_enter w context s.head?
  obtain ⟨c', origin, hc', hhandle', hstatus, hresult, herror⟩ := World.card_returnFrame_ended
    (hsound.still hstill) (by rw [hstill.card, hcw]) hcstop frame hending
  have hcell := World.outcome_of_cell? (World.cell_of_card hc')
  rw [hhandle', hhandle] at hcell
  rw [← hcell] at hstatus hresult herror
  exact ⟨origin, hstatus, hresult, herror⟩

/-- A `race` or an `any` group polls its branches in its step.  If one of them settled at some time before,
and no branch declared before that one has settled by now, then the group ends like that branch: completed
with its result, completed with nil if the branch was stopped, failed with its error if it failed. -/
theorem group_settles_like_branch {M₀ M : Moment} (h₀ : Reachable M₀) (hrun : Run M₀ M) {m : MindId}
    {id : FrameId} {s : List FrameKey} (hstack : M.stack = (m, id) :: s) {e : FrameEntry}
    (he : M.world.entryAt m id = some e) (hstop : e.stopRequested = false) {g : Group}
    (hpolicy : g.policy ≠ .sync) {before after : List Handle} {b : Handle}
    (hg : g.handles.toList = before ++ b :: after) (hb : M₀.world.isFinished b = true)
    (hbefore : ∀ a ∈ before, M.world.isFinished a = false) (context : Context) (frame : Frame)
    (callStack : CallStack) :
    ∃ step w, Machine.decideGroup m id g M.world = (.ok step, w) ∧
      let v := (w.enter context s.head?).returnFrame m id frame (step.mapError callStack.attach)
      let branch := M₀.world.heap.outcome b.outcome
      let group := v.heap.outcome e.handle.outcome
      match branch.status with
      | .failed => group.status = .failed ∧ group.result = none ∧ ∃ err origin, branch.error = some err ∧
          group.error = some ((callStack.attach err).toFailure.withOrigin origin)
      | .completed => group.status = .completed ∧ group.error = none ∧ group.result = branch.result
      | _ => group.status = .completed ∧ group.error = none ∧ group.result = some .nil := by
  have hvalid := h₀.valid.run hrun
  obtain ⟨hb', hverdict⟩ := hrun.verdict_of_finished h₀.valid hb
  obtain ⟨w, hdecide, hw⟩ := Machine.decideGroup_of_find m id hpolicy
    (Group.find?_settled hg hb' hbefore)
  rw [hverdict] at hdecide
  refine ⟨_, w, hdecide, ?_⟩
  intro v branch group
  have hends : ∀ ending, Ending.ofStep? (branch.verdict.mapError callStack.attach) = some ending →
      ∃ origin, group.status = ending.status ∧ group.result = ending.result? ∧
        group.error = ending.error?.map (·.withOrigin origin) := fun ending hending ↦
    hvalid.outcome_of_decided hstack he hstop hdecide hw context frame hending
  have hfits : branch.Fits := by
    obtain ⟨cell, hcell, -⟩ := World.cell_of_isFinished hb
    have hbare : branch.bare = cell := World.outcome_of_cell? hcell
    have hcell := hbare ▸ h₀.valid.sound.cells _ _ hcell
    exact ⟨hcell.result, hcell.error⟩
  cases hstatus : branch.status with
  | failed =>
    obtain ⟨err, herr, hv⟩ := hfits.verdict_of_failed hstatus
    obtain ⟨origin, hs, hr, herror⟩ := hends (.failed (callStack.attach err).toFailure) (by rw [hv]; rfl)
    exact ⟨hs, hr, err, origin, herr, herror⟩
  | completed =>
    obtain ⟨value, hvalue, hv⟩ := hfits.verdict_of_completed hstatus
    obtain ⟨origin, hs, hr, herror⟩ := hends (.completed value) (by rw [hv]; rfl)
    exact ⟨hs, herror, hr.trans hvalue.symm⟩
  | _ =>
    have hv := hfits.verdict_of_neither (by simp [hstatus]) (by simp [hstatus])
    obtain ⟨origin, hs, hr, herror⟩ := hends (.completed .nil) (by rw [hv]; rfl)
    exact ⟨hs, herror, hr⟩

/-! ### Two branches that settle before the group gets to look

The branch that is declared second settles first, then the other one, and only then does the group poll. -/

/-- The step that runs has started two branches. -/
def World.twoBranches : World := (parentAndChild.register ⟨0⟩ "branch" Core.object (some ⟨0, 0⟩) default).2

def Handle.firstBranch : Handle := ⟨⟨0⟩, ⟨1, 0⟩, "child", ⟨1⟩⟩

def Handle.secondBranch : Handle := ⟨⟨0⟩, ⟨2, 0⟩, "branch", ⟨2⟩⟩

def Group.ofTwo : Group := { policy := .race, branches := default, handles := #[.firstBranch, .secondBranch] }

/-- The group watches its branches. -/
def World.watching : World :=
  (twoBranches.enter default none).returnFrame ⟨0⟩ ⟨0, 0⟩ { (default : Frame) with body := .group .ofTwo }
    (.ok (.suspend .children))

/-- A frame that is not running begins a step. -/
def World.beginStep (w : World) (id : FrameId) (body : FrameBody) : World :=
  w.takeFrame ⟨0⟩ id ((w.entryAt ⟨0⟩ id).getD default) { (default : Frame) with body }

/-- A frame that runs completes. -/
def World.complete (w : World) (id : FrameId) (value : Ref) : World :=
  (w.enter default none).returnFrame ⟨0⟩ id default (.ok (.done value))

def World.secondDone : World := (watching.beginStep ⟨2, 0⟩ default).complete ⟨2, 0⟩ .nil

def World.bothDone : World := (secondDone.beginStep ⟨1, 0⟩ default).complete ⟨1, 0⟩ ⟨1⟩

/-- The group gets to look. -/
def World.polling : World := bothDone.beginStep ⟨0, 0⟩ (.group .ofTwo)

theorem reachable_secondDone : Reachable ⟨[], .secondDone⟩ := by
  have htwo : Reachable ⟨[(⟨0⟩, ⟨0, 0⟩)], .twoBranches⟩ := by
    refine reachable_parentAndChild.act (.register _ _ _ ?_ ?_)
    · decide
    · intro p hp
      rw [← Option.some.inj hp]
      rfl
  have hwatching : Reachable ⟨[], .watching⟩ := htwo.act (.back _ _ _)
  have hstep : Reachable ⟨[(⟨0⟩, ⟨2, 0⟩)], World.watching.beginStep ⟨2, 0⟩ default⟩ :=
    hwatching.act (.begin rfl rfl rfl)
  exact hstep.act (.back default default (.ok (.done .nil)))

theorem act_firstStep :
    Act ⟨[], .secondDone⟩ ⟨[(⟨0⟩, ⟨1, 0⟩)], World.secondDone.beginStep ⟨1, 0⟩ default⟩ :=
  .begin rfl rfl rfl

theorem act_bothDone :
    Act ⟨[(⟨0⟩, ⟨1, 0⟩)], World.secondDone.beginStep ⟨1, 0⟩ default⟩ ⟨[], .bothDone⟩ :=
  .back default default (.ok (.done ⟨1⟩))

theorem reachable_bothDone : Reachable ⟨[], .bothDone⟩ :=
  (reachable_secondDone.act act_firstStep).act act_bothDone

theorem run_bothDone : Run ⟨[], .secondDone⟩ ⟨[], .bothDone⟩ := .head act_firstStep (.single act_bothDone)

theorem act_polling : Act ⟨[], .bothDone⟩ ⟨[(⟨0⟩, ⟨0, 0⟩)], .polling⟩ := .begin rfl rfl rfl

theorem group_settles_like_branch_polling :
    World.bothDone.isFinished .firstBranch = true ∧
      ∃ step w, Machine.decideGroup ⟨0⟩ ⟨0, 0⟩ .ofTwo World.polling = (.ok step, w) ∧
        (((w.enter default none).returnFrame ⟨0⟩ ⟨0, 0⟩ default
          (step.mapError World.polling.callStack.attach)).heap.outcome ⟨0⟩).result = some ⟨1⟩ := by
  have horder : Group.ofTwo.handles.toList = [] ++ Handle.firstBranch :: [.secondBranch] := rfl
  obtain ⟨step, w, hdecide, hends⟩ := group_settles_like_branch reachable_bothDone (.single act_polling) rfl
    (e := (World.polling.entryAt ⟨0⟩ ⟨0, 0⟩).getD default) rfl rfl (by decide) horder rfl
    (fun a ha ↦ absurd ha List.not_mem_nil) default default World.polling.callStack
  exact ⟨rfl, step, w, hdecide, hends.2.2⟩

/-- The group takes over the result of the branch declared first, although the other one settled before it. -/
theorem group_not_settled_like_first :
    Reachable ⟨[], .secondDone⟩ ∧ Run ⟨[], .secondDone⟩ ⟨[(⟨0⟩, ⟨0, 0⟩)], .polling⟩ ∧
      World.secondDone.isFinished .secondBranch = true ∧ World.secondDone.isFinished .firstBranch = false ∧
      (World.secondDone.heap.outcome ⟨2⟩).result = some .nil ∧
      ∃ w, Machine.decideGroup ⟨0⟩ ⟨0, 0⟩ .ofTwo World.polling = (.ok (.ok (.done ⟨1⟩)), w) ∧
        ((w.complete ⟨0, 0⟩ ⟨1⟩).heap.outcome ⟨0⟩).result = some ⟨1⟩ :=
  ⟨reachable_secondDone, run_bothDone.tail act_polling, rfl, rfl, rfl, World.polling.retain (.object ⟨1⟩), rfl,
    by decide +kernel⟩

end MindScript
