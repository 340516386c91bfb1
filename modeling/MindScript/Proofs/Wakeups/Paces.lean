import MindScript.Proofs.Wakeups.Standing

/-!
# Groups that watch

A frame that can run is as it was registered, or it has come back from a step and sleeps.  A group that sleeps has started
all its branches, and sleeps until they decide it.
-/

namespace MindScript

open Machine

/-- The group sleeps until its branches decide it, and has started all of them. -/
structure Group.Watches (g : Group) (frame : Frame) (wake : Option Wake) : Prop where
  wake : wake = some .children
  ne : g.handles ≠ #[]
  size : g.handles.size = (frame.context.arena.listAt g.branches).length

/-- How a frame that is not in a step stands. -/
inductive Frame.Paced (frame : Frame) (wake : Option Wake) : Prop where
  | fresh : wake = none → frame.Fresh → Paced frame wake
  | slept : wake ≠ none → frame.updateCount ≠ 0 → (∀ g, frame.body = .group g → g.Watches frame wake) → Paced frame wake

/-- Every frame that can run is new, or sleeps after a step. -/
def World.Paced (w : World) : Prop :=
  ∀ m k e frame, w.entryAt m k = some e → e.frame = some frame → frame.Paced e.wake

theorem Frame.Paced.watches {frame : Frame} {wake : Option Wake} (h : frame.Paced wake) (hcount : frame.updateCount ≠ 0)
    {g : Group} (hbody : frame.body = .group g) : g.Watches frame wake := by
  cases h with
  | fresh _ hfresh => exact absurd hfresh.updateCount hcount
  | slept _ _ hwatches => exact hwatches g hbody

theorem Frame.Paced.handles {frame : Frame} {wake : Option Wake} (h : frame.Paced wake) (hcount : frame.updateCount = 0)
    {g : Group} (hbody : frame.body = .group g) : g.handles = #[] := by
  cases h with
  | fresh _ hfresh => exact hfresh.handles g hbody
  | slept _ hne _ => exact absurd hcount hne

/-! ### Steps of groups -/

/-- What a step of a group comes to: the call stack has no room for it, or a branch cannot be started, or the group polls
the branches that it has started. -/
inductive Group.Steps (E : Engine) (m : MindId) (id : FrameId) (i : Invocation) (g : Group) (count : ℕ) (w : World) :
    Group → Except EvalError Step → Prop where
  | overflow {err : EvalError} : w.callStack.push i = .error err → Steps E m id i g count w g (.error err)
  | unstarted {callStack : CallStack} {err : EvalError} {u : World} : count = 0 → w.callStack.push i = .ok callStack →
      startBranches E m id g.policy (w.context.arena.listAt g.branches) g.handles { w with callStack } =
        (.error (.raised err), u) → Steps E m id i g count w g (.error (callStack.attach err))
  | polled {callStack : CallStack} {g' : Group} {u : World} {step : Except EvalError Step} :
      w.callStack.push i = .ok callStack → g.Starts E m id { w with callStack } count g' u → g'.Poll u step →
      Steps E m id i g count w g' (step.mapError callStack.attach)

section

variable {E : Engine} {m : MindId} {id : FrameId} {i : Invocation} {g g' : Group} {frame : Frame} {count : ℕ}
  {delivered : Option Ref} {s : List FrameKey} {w w' u : World}

theorem Group.Starts.same (h : g.Starts E m id w count g' u) (hcount : count ≠ 0) : g' = g ∧ u = w := by
  cases h with
  | first _ => exact absurd rfl hcount
  | later _ => exact ⟨rfl, rfl⟩

theorem Group.Starts.valid (h : g.Starts E m id w count g' u) (hE : E.Tracked) (hvalid : Moment.Valid ⟨s, w⟩)
    (hhead : s.head? = some (m, id)) : Moment.Valid ⟨s, u⟩ := by
  cases h with
  | later _ => exact hvalid
  | first hstart =>
    have hm := (hvalid.holds (σ := ⟨s.head?, w.minds.size, false, none⟩) rfl (Nat.le_refl _)).rooted.current m id
      (hvalid.current.trans hhead)
    have halike : Alike E E ⟨s.head?, w.minds.size, false, none⟩
        (startBranches E m id g.policy (w.context.arena.listAt g.branches) g.handles)
        (startBranches E m id g.policy (w.context.arena.listAt g.branches) g.handles) := .startBranches hm hhead ..
    obtain ⟨s', hjourney, hs⟩ := halike.tracked hE s w hvalid rfl (Nat.le_refl _)
    rw [hstart] at hjourney hs
    exact hs (by simp) ▸ hvalid.journey hjourney

namespace Machine

/-- The group polls whatever branches it has started. -/
theorem poll_of_pollGroup (hE : E.Tracked) (hvalid : Moment.Valid ⟨s, w⟩) (hhead : s.head? = some (m, id))
    {step : Except EvalError Step} (hrun : pollGroup E m id g count w = (.ok (g', step), w')) :
    ∃ u, g.Starts E m id w count g' u ∧ g'.Poll u step := by
  obtain ⟨u, hstarts, hdecide⟩ := exists_of_pollGroup hrun
  obtain ⟨step', w₁, hdecide', hpoll, -⟩ := exists_poll (hstarts.valid hE hvalid hhead) m id g'
  cases hdecide'.symm.trans hdecide
  exact ⟨u, hstarts, hpoll⟩

/-- Only starting the branches may fail. -/
theorem interrupted_of_pollGroup (hE : E.Tracked) (hvalid : Moment.Valid ⟨s, w⟩) (hhead : s.head? = some (m, id))
    {interrupt : Interrupt} (hrun : pollGroup E m id g count w = (.error interrupt, w')) : count = 0 ∧
      startBranches E m id g.policy (w.context.arena.listAt g.branches) g.handles w = (.error interrupt, w') := by
  have hdecides : ∀ {g' u}, g.Starts E m id w count g' u →
      ((pure g' : Machine Group) >>= fun g ↦ do return (g, ← decideGroup m id g)) u ≠ (.error interrupt, w') := by
    intro g' u hstarts heq
    obtain ⟨step, w₁, hdecide, -⟩ := exists_poll (hstarts.valid hE hvalid hhead) m id g'
    rw [pure_bind, bind_of_ok hdecide] at heq
    cases heq
  unfold pollGroup at hrun
  by_cases hcount : count = 0
  · subst hcount
    refine ⟨rfl, ?_⟩
    rw [if_pos rfl, get_bind] at hrun
    rcases hstart : startBranches E m id g.policy (w.context.arena.listAt g.branches) g.handles w with ⟨i | handles, u⟩
    · rw [bind_of_error hstart] at hrun
      cases hrun
      rfl
    · exact absurd ((bind_of_ok hstart).symm.trans hrun) (hdecides (.first hstart))
  · rw [if_neg hcount] at hrun
    exact absurd hrun (hdecides (.later hcount))

/-- A step leaves a group a group, and makes no group of another body. -/
theorem exists_group_of_stepInvocation {body : FrameBody} {step : Except EvalError Step} {unused : List Ref}
    (hrun : stepInvocation E m id i frame delivered w = (.ok (body, step, unused), w')) (hgroup : body = .group g') :
    ∃ g, frame.body = .group g := by
  unfold stepInvocation at hrun
  rw [get_bind] at hrun
  cases hpush : w.callStack.push i with
  | error err =>
    simp only [hpush] at hrun
    cases hrun
    exact ⟨g', hgroup⟩
  | ok callStack =>
    simp only [hpush] at hrun
    obtain ⟨r, u, hattempt, hrun⟩ := exists_of_bind_eq_ok (f := attempt (stepBody E m id frame delivered)) hrun
    cases hrun
    rcases attempt_cases hattempt with ⟨⟨body, step⟩, rfl, hstep⟩ | ⟨err, rfl, -⟩
    · obtain rfl : body = .group g' := hgroup
      unfold stepBody at hstep
      cases hbody : frame.body with
      | group g => exact ⟨g, rfl⟩
      | script k =>
        simp only [hbody] at hstep
        obtain ⟨_, _, -, hstep⟩ := exists_of_bind_eq_ok hstep
        cases hstep
      | native code args state =>
        simp only [hbody] at hstep
        rw [get_bind] at hstep
        obtain ⟨_, _, -, hstep⟩ := exists_of_bind_eq_ok hstep
        cases hstep
    · exact ⟨g', hgroup⟩

theorem alike_stepBody_group {E' : Engine} {σ : Setting} (hcur : σ.current = some (m, id)) (hbody : frame.body = .group g) :
    Alike E E' σ (stepBody E m id frame delivered) (stepBody E' m id frame delivered) := by
  unfold stepBody
  rw [hbody]
  exact (Alike.pollGroup hcur g frame.updateCount).bind fun _ ↦ (Alike.releaseAll _).bind fun _ ↦ .pure _

/-- Where a group polls, only starting the branches may fail. -/
theorem interrupted_of_stepBody (hE : E.Tracked) (hvalid : Moment.Valid ⟨s, w⟩) (hhead : s.head? = some (m, id))
    (hbody : frame.body = .group g) {interrupt : Interrupt}
    (hrun : stepBody E m id frame delivered w = (.error interrupt, w')) : frame.updateCount = 0 ∧
      startBranches E m id g.policy (w.context.arena.listAt g.branches) g.handles w = (.error interrupt, w') := by
  unfold stepBody at hrun
  simp only [hbody] at hrun
  rcases hpoll : pollGroup E m id g frame.updateCount w with ⟨i | ⟨g', step⟩, u⟩
  · rw [bind_of_error hpoll] at hrun
    cases hrun
    exact interrupted_of_pollGroup hE hvalid hhead hpoll
  · rw [bind_of_ok hpoll] at hrun
    cases hrun

/-- The budget of a step of a group may only be used up by starting the branches. -/
theorem interrupted_of_stepInvocation (hE : E.Tracked) (hvalid : Moment.Valid ⟨s, w⟩) (hhead : s.head? = some (m, id))
    (hbody : frame.body = .group g) {interrupt : Interrupt}
    (hrun : stepInvocation E m id i frame delivered w = (.error interrupt, w')) :
    frame.updateCount = 0 ∧ interrupt = .exhausted ∧ ∃ callStack, w.callStack.push i = .ok callStack ∧
      startBranches E m id g.policy (w.context.arena.listAt g.branches) g.handles { w with callStack } =
        (.error .exhausted, w') := by
  unfold stepInvocation at hrun
  rw [get_bind] at hrun
  cases hpush : w.callStack.push i with
  | error err =>
    simp only [hpush] at hrun
    cases hrun
  | ok callStack =>
    simp only [hpush] at hrun
    have hvalid' : Moment.Valid ⟨s, { w with callStack }⟩ :=
      hvalid.act (.compute ⟨rfl, rfl, rfl⟩ ⟨rfl, rfl, rfl⟩)
    rcases hstep : stepBody E m id frame delivered { w with callStack } with ⟨(err | _) | result, u⟩
    · cases (bind_of_ok (f := attempt (stepBody E m id frame delivered)) (attempt_of_raised hstep)).symm.trans hrun
    · cases (bind_of_error (f := attempt (stepBody E m id frame delivered)) (attempt_of_exhausted hstep)).symm.trans hrun
      obtain ⟨hcount, hstart⟩ := interrupted_of_stepBody hE hvalid' hhead hbody hstep
      exact ⟨hcount, rfl, callStack, rfl, hstart⟩
    · cases (bind_of_ok (f := attempt (stepBody E m id frame delivered)) (attempt_of_ok hstep)).symm.trans hrun

/-- What a step of a group comes to, and it leaves the context as it is. -/
theorem steps_of_stepInvocation (hT : E.Tracked) (hB : E.Balanced) (hvalid : Moment.Valid ⟨s, w⟩)
    (hhead : s.head? = some (m, id)) (hbody : frame.body = .group g) {body : FrameBody} {step : Except EvalError Step}
    {unused : List Ref} (hrun : stepInvocation E m id i frame delivered w = (.ok (body, step, unused), w')) :
    w'.context = w.context ∧ ∃ g', body = .group g' ∧ g.Steps E m id i frame.updateCount w g' step := by
  have hholds : Setting.Holds ⟨s.head?, 0, false, none⟩ w := hvalid.holds rfl (Nat.zero_le _)
  have halike : Alike E E ⟨s.head?, 0, false, none⟩ (stepBody E m id frame delivered) (stepBody E m id frame delivered) :=
    alike_stepBody_group hhead hbody
  have hinner : ∀ callStack, Balanced false (stepBody E m id frame delivered) { w with callStack } := fun callStack ↦
    halike.balanced hB _ ⟨hholds.current, hholds.minds, hholds.rooted.1, hholds.rooted.2⟩
  have houter : Balanced false (stepInvocation E m id i frame delivered) w := .stepInvocation fun _ _ ↦ hinner _
  have hlevel := houter.level (by rw [hrun]; simp)
  rw [hrun] at hlevel
  refine ⟨hlevel.context rfl, ?_⟩
  unfold stepInvocation at hrun
  rw [get_bind] at hrun
  cases hpush : w.callStack.push i with
  | error err =>
    simp only [hpush] at hrun
    cases hrun
    exact ⟨g, hbody, .overflow hpush⟩
  | ok callStack =>
    simp only [hpush] at hrun
    obtain ⟨r, u, hattempt, hrun⟩ := exists_of_bind_eq_ok (f := attempt (stepBody E m id frame delivered)) hrun
    have hvalid' : Moment.Valid ⟨s, { w with callStack }⟩ :=
      hvalid.act (.compute ⟨rfl, rfl, rfl⟩ ⟨rfl, rfl, rfl⟩)
    have hcallStack : u.callStack = callStack := by
      have hattempted := (hinner callStack).attempt.level (by rw [hattempt]; simp)
      rw [hattempt] at hattempted
      exact hattempted.callStack
    cases hrun
    rw [hcallStack]
    rcases attempt_cases hattempt with ⟨⟨body, step⟩, rfl, hstep⟩ | ⟨err, rfl, hstep⟩
    -- What has been polled is the step, and only starting the branches may raise an error.
    · unfold stepBody at hstep
      simp only [hbody] at hstep
      obtain ⟨⟨g', step'⟩, u', hpoll, hstep⟩ := exists_of_bind_eq_ok hstep
      cases hstep
      obtain ⟨u₀, hstarts, hpoll⟩ := poll_of_pollGroup hT hvalid' hhead hpoll
      exact ⟨g', rfl, .polled hpush hstarts hpoll⟩
    · obtain ⟨hcount, hstart⟩ := interrupted_of_stepBody hT hvalid' hhead hbody hstep
      exact ⟨g, hbody, .unstarted hcount hpush hstart⟩

/-- A frame comes back from its step as the step says. -/
theorem exists_returned (hT : E.Tracked) (hvalid : Moment.Valid ⟨s, w⟩) {entry : FrameEntry}
    (he : w.entryAt m id = some entry) (hframe : entry.frame = some frame)
    (hi : i = ⟨w.classes.nameOf entry.owner, entry.handle.name⟩) {body : FrameBody} {step : Except EvalError Step}
    {unused : List Ref} (hrun : stepInvocation E m id i frame entry.delivered (w.takeFrame m id entry frame) =
      (.ok (body, step, unused), u)) :
    ∃ v c c', resumeFrame E m id w = (.ok (), v) ∧ Moment.Valid ⟨(m, id) :: s, u⟩ ∧ Run ⟨(m, id) :: s, u⟩ ⟨s, v⟩ ∧
      v.card m id = some c' ∧ c'.handle = entry.handle ∧
      Card.Returned c { frame with context := u.context, body, updateCount := frame.updateCount + 1 } step c' := by
  have hu := hvalid.isFinished_of_stored he hframe
  have htaken : Moment.Valid ⟨(m, id) :: s, w.takeFrame m id entry frame⟩ := hvalid.act (.begin he hu hframe)
  let after : Frame := { frame with context := u.context, body, updateCount := frame.updateCount + 1 }
  have htracked := Tracked.compositional.toComposite.ofStep (σ := ⟨s.head?, 0, true, none⟩)
    (hT.serves Tracked.compositional.toComposite) m id i frame entry.delivered
  obtain ⟨s', hjourney, hs⟩ := htracked _ _ htaken rfl (Nat.zero_le _)
  rw [hrun] at hjourney hs
  obtain rfl := hs (by simp)
  -- The frame that is under way is still the same one.
  have hvalid₁ := htaken.journey hjourney
  obtain ⟨c₁, hc₁⟩ := hvalid₁.sound.card_of_mem List.mem_cons_self
  obtain ⟨e₁, he₁, -, hcard₁⟩ := World.card_eq_some_iff.mp hc₁
  have hhandle : c₁.handle = entry.handle := by
    have hthere := World.entryAt_takeFrame he frame
    rcases (hjourney.names htaken).entry m id e₁ he₁ with ⟨e₀, he₀, heq⟩ | ⟨hnew, -⟩
    · obtain rfl := Option.some.inj (hthere.symm.trans he₀)
      exact (congrArg Card.handle hcard₁).symm.trans heq
    · exact absurd (.of_stored hthere) hnew
  have hstill : World.Still u (u.enter w.context w.current) := World.still_enter ..
  obtain ⟨c', hreturned, hsame, hreturn⟩ :=
    World.card_returnFrame (hvalid₁.sound.still hstill) ((congrFun₂ hstill.card m id).trans hc₁) after step
  have hreleased := World.still_release ((u.enter w.context w.current).returnFrame m id after step) (unused.map .object)
  rw [← hreleased.card] at hreturned
  have hback : Act ⟨(m, id) :: s, u⟩ ⟨s, (u.enter w.context w.current).returnFrame m id after step⟩ := by
    have hcurrent : w.current = s.head? := hvalid.current
    rw [hcurrent]
    exact .back w.context after step
  exact ⟨_, c₁, c', (resumeFrame_of_stored he hu hframe).trans (runFrame_of_ok hi hrun), hvalid₁,
    .tail (.single hback) (.compute hreleased ⟨rfl, rfl, rfl⟩), hreturned, hsame.trans hhandle, hreturn⟩

end Machine

/-- A group that goes on after a step watches all its branches. -/
theorem Group.Steps.watches {step : Except EvalError Step} (h : g.Steps E m id i count w g' step) {wake : Wake}
    (hstep : step = .ok (.suspend wake)) (hfresh : count = 0 → g.handles = #[])
    (hold : count ≠ 0 → g.handles.size = (w.context.arena.listAt g.branches).length) :
    wake = .children ∧ g'.handles ≠ #[] ∧ g'.handles.size = (w.context.arena.listAt g'.branches).length := by
  cases h with
  | overflow _ => cases hstep
  | unstarted _ _ _ => cases hstep
  | @polled callStack _ u step hpush hstarts hpoll =>
    obtain rfl : step = .ok (.suspend wake) := by
      cases step with
      | error err => cases hstep
      | ok step =>
        cases hstep
        rfl
    obtain ⟨hwake, hne, -⟩ := hpoll.undecided
    refine ⟨hwake, hne, ?_⟩
    rw [hstarts.branches]
    by_cases hcount : count = 0
    · subst hcount
      exact hstarts.size (hfresh rfl) (.inr ⟨wake, hpoll⟩)
    · obtain ⟨rfl, -⟩ := hstarts.same hcount
      exact hold hcount

/-- A `sync` group that completes has started all its branches. -/
theorem Group.Steps.size {step : Except EvalError Step} (h : g.Steps E m id i count w g' step) (hpolicy : g.policy = .sync)
    (hstep : step = .ok (.done .nil)) (hfresh : count = 0 → g.handles = #[])
    (hold : count ≠ 0 → g.handles.size = (w.context.arena.listAt g.branches).length) :
    g'.handles.size = (w.context.arena.listAt g.branches).length := by
  cases h with
  | overflow _ => cases hstep
  | unstarted _ _ _ => cases hstep
  | polled _ hstarts _ =>
    by_cases hcount : count = 0
    · subst hcount
      exact hstarts.size (hfresh rfl) (.inl hpolicy)
    · rw [(hstarts.same hcount).1]
      exact hold hcount

/-- A group without branches completes, unless there is no room for its step. -/
theorem Group.Steps.of_empty {step : Except EvalError Step} (h : g.Steps E m id i 0 w g' step)
    (hnone : w.context.arena.listAt g.branches = []) (hfresh : g.handles = #[]) {callStack : CallStack}
    (hpush : w.callStack.push i = .ok callStack) : step = .ok (.done .nil) := by
  cases h with
  | overflow herr => cases herr.symm.trans hpush
  | unstarted _ _ hstart =>
    rw [hnone] at hstart
    cases hstart
  | polled _ hstarts hpoll =>
    cases hstarts with
    | later hne => exact absurd rfl hne
    | @first handles _ hstart =>
      rw [hnone] at hstart
      cases hstart
      rw [hpoll.of_empty hfresh]
      rfl

/-- A step of a group that its branches decide ends it. -/
theorem Group.Steps.exists_ending {step : Except EvalError Step} (h : g.Steps E m id i count w g' step) (hcount : count ≠ 0)
    (hdecided : g.isDecided w.status = true) : ∃ ending, Ending.ofStep? step = some ending := by
  cases h with
  | overflow _ => exact ⟨_, rfl⟩
  | unstarted hzero _ _ => exact absurd hzero hcount
  | @polled callStack _ u step _ hstarts hpoll =>
    obtain ⟨rfl, rfl⟩ := hstarts.same hcount
    obtain ⟨ending, hending⟩ := hpoll.exists_ending hdecided
    cases step with
    | error err => exact ⟨_, rfl⟩
    | ok step => exact ⟨ending, hending⟩

end

/-! ### Frames of groups -/

/-- A frame that sleeps after a step watches its branches if it is a group. -/
theorem Frame.standing_paced : Frame.Standing Frame.Paced where
  fresh _ hfresh := .fresh rfl hfresh
  slept {E m id i frame before delivered s w w' body wake unused} hT hB hvalid hhead hcontext hpaced hrun := by
    refine .slept (Option.some_ne_none wake) (Nat.succ_ne_zero _) fun g' hgroup ↦ ?_
    obtain ⟨g, hbefore⟩ := exists_group_of_stepInvocation hrun hgroup
    obtain ⟨hkept, g'', hsame, hsteps⟩ := steps_of_stepInvocation hT hB hvalid hhead hbefore hrun
    obtain rfl : g' = g'' := FrameBody.group.inj (Eq.trans (Eq.symm hgroup) hsame)
    have hwatches := hsteps.watches rfl (fun hcount ↦ hpaced.handles hcount hbefore) fun hcount ↦ by
      rw [hcontext]
      exact (hpaced.watches hcount hbefore).size
    rw [← hkept] at hwatches
    exact ⟨congrArg some hwatches.1, hwatches.2.1, hwatches.2.2⟩

end MindScript
