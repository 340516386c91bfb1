import MindScript.Proofs.Custody.FirstSteps

/-!
# What an update counts

An update counts the turns in which it resumes a frame.  Whoever is resumed by the clock, by a poll or from the ready queue
sleeps, so it makes a step.  A deferred frame is resumed without a look at what has become of it: if it has been stopped
before its first step, nothing runs, but the turn counts all the same.
-/

namespace MindScript

open Machine

variable {owned : List Link} {w w' : World} {m : MindId} {n : ℕ}

namespace Turn

/-- The frame is resumed where it is stored, has not finished and is not running. -/
def runs (m : MindId) (t : Turn) : Bool :=
  t.resumed && (t.world.entryAt m t.frame).any fun e ↦ !t.world.isFinished e.handle && e.frame.isSome

/-- The first step of a frame is due that has been stopped before it. -/
def isVoid (m : MindId) (t : Turn) : Bool :=
  t.cause == .deferral && !(t.world.entryAt m t.frame).any fun e ↦ !t.world.isFinished e.handle

variable {t : Turn} {x : Handle}

theorem Runs.runs (h : t.Runs n m x) (hu : t.world.isFinished x = false) (hresumed : t.resumed = true) :
    t.runs m = true := by
  obtain ⟨e, frame, he, rfl, hframe, -⟩ := h
  simp [Turn.runs, he, hu, hframe, hresumed]

theorem not_isVoid_of_stored {e : FrameEntry} (he : t.world.entryAt m t.frame = some e)
    (hu : t.world.isFinished e.handle = false) : t.isVoid m = false := by
  simp [isVoid, he, hu]

/-- Nothing happens in a turn that comes too late. -/
theorem resume_of_isVoid (h : t.isVoid m = true) :
    (Engine.ofBudget (n + 1)).resume m t.frame t.world = (.ok (), t.world) := by
  have hall := (Bool.and_eq_true_iff.mp h).2
  change resumeFrame (.ofBudget n) m t.frame t.world = _
  rw [resumeFrame, get_bind]
  cases he : t.world.entryAt m t.frame with
  | none => rfl
  | some e =>
    have hfin : t.world.isFinished e.handle = true := by simpa [he] using hall
    simp only [hfin, if_true]
    rfl

/-- Each turn in which a frame is resumed runs a step, or comes too late. -/
theorem counts {s : List FrameKey} (hrousable : t.world.Rousable s m)
    (hrouses : t.cause ≠ .deferral → t.resumed = true → t.Rouses m)
    (hunbegun : t.cause = .deferral → t.resumed = true ∧ t.world.Unbegun m t.frame) :
    (if t.resumed then 1 else 0) = (if t.runs m then 1 else 0) + if t.isVoid m then 1 else 0 := by
  have hrun : ∀ e, t.world.entryAt m t.frame = some e → t.resumed = true →
      t.world.status e.handle = .suspended ∨ t.world.status e.handle = .pending →
      t.runs m = true ∧ t.isVoid m = false := by
    intro e he hresumed hstatus
    have hu : t.world.isFinished e.handle = false := by
      rw [World.isFinished]
      rcases hstatus with heq | heq <;> rw [heq] <;> rfl
    exact ⟨(hrousable.runs (n := 0) he hstatus).runs hu hresumed, not_isVoid_of_stored he hu⟩
  by_cases hcause : t.cause = .deferral
  · obtain ⟨hresumed, hunbegun⟩ := hunbegun hcause
    cases he : t.world.entryAt m t.frame with
    | none => simp [runs, isVoid, he, hcause, hresumed]
    | some e =>
      rcases hunbegun e he with hpending | hstopped
      · obtain ⟨hruns, hvoid⟩ := hrun e he hresumed (.inr hpending)
        simp [hresumed, hruns, hvoid]
      · have hfin : t.world.isFinished e.handle = true := by rw [World.isFinished, hstopped]; rfl
        simp [runs, isVoid, he, hcause, hresumed, hfin]
  · cases hresumed : t.resumed with
    | false => simp [runs, isVoid, hcause, hresumed]
    | true =>
      obtain ⟨e, he, hstatus⟩ := hrouses hcause hresumed
      obtain ⟨hruns, hvoid⟩ := hrun e he hresumed (.inl hstatus)
      simp [hruns, hvoid]

end Turn

namespace Machine

/-- What an update counts are the steps that it runs and the turns that come too late. -/
theorem Drain.steps_eq {s : List FrameKey} {turns : List Turn} (h : Drain s m w turns w') :
    steps turns = turns.countP (Turn.runs m) + turns.countP (Turn.isVoid m) := by
  have hcounts : ∀ t ∈ turns, (if t.resumed then 1 else 0) = (if t.runs m then 1 else 0) + if t.isVoid m then 1 else 0 :=
    fun t ht ↦ Turn.counts (h.valid t ht) (h.rouses t ht) (h.unbegun t ht)
  clear h
  induction turns with
  | nil => rfl
  | cons t rest ih =>
    obtain ⟨hfirst, hrest⟩ := List.forall_mem_cons.mp hcounts
    rw [steps_cons, List.countP_cons, List.countP_cons, hfirst, ih hrest]
    omega

/-- An update of a Mind that is not idle does nothing. -/
theorem update_of_not_idle (E : Engine) (hidle : ¬ w.Idle m) (elapsed : Float) : update E m elapsed w = (.ok 0, w) := by
  rw [update, get_bind]
  cases hmind : w.mind? m with
  | none => rfl
  | some mind =>
    have hbusy : (mind.suspended || mind.updating) = true := by
      by_contra hnot
      exact hidle ⟨mind, hmind, by simpa using hnot⟩
    simp only [hbusy, if_true]
    rfl

end Machine

/-- The number that an update gives back.  A Mind that is not idle makes no step.  Otherwise the number is that of the steps
that the update runs in its turns, and of the turns of deferred frames that have been stopped before their first steps, in
which nothing runs.  Every turn has the call stack that the update was called on; where it is at its limit, the frames that
are resumed fail. -/
theorem update_counts (hw : Reached owned w) {elapsed : Float}
    (hne : (update (.ofBudget n) m elapsed w).1 ≠ .error .exhausted) :
    (¬ w.Idle m → update (.ofBudget n) m elapsed w = (.ok 0, w)) ∧
    (w.Idle m → ∃ j turns w' w'', n = j + 1 ∧
      Machine.turns (.ofBudget n) m (beginUpdate m elapsed w).2 = (.ok turns, w') ∧
      update (.ofBudget n) m elapsed w = (.ok (turns.countP (Turn.runs m) + turns.countP (Turn.isVoid m)), w'') ∧
      (∀ t ∈ turns, t.resumed = true → t.runs m = true ∨ t.isVoid m = true) ∧
      (∀ t ∈ turns, t.runs m = true → (∃ x, t.Runs j m x) ∧ t.world.callStack = w.callStack) ∧
      (∀ t ∈ turns, t.isVoid m = true → (Engine.ofBudget n).resume m t.frame t.world = (.ok (), t.world) ∧
        (t.frame ∈ w.pending m → ∀ x, w.Shelved m t.frame x → t.world.status x = .stopped))) := by
  refine ⟨fun hidle ↦ update_of_not_idle _ hidle elapsed, fun hidle ↦ ?_⟩
  obtain ⟨s, turns, w', hrousable, hturns, hupdate⟩ := hw.turns hidle hne
  obtain ⟨j, rfl⟩ := exists_budget_of_turns hturns
  have hdrain := Drain.of_turns hrousable hturns
  have hpending : (beginUpdate m elapsed w).2.pending m = w.pending m := World.pending_modifyMind w m m fun _ ↦ rfl
  have hfirst : FirstSteps j m w turns := hdrain.firstSteps (w.still_beginUpdate m elapsed) hpending
  rcases hrun : update (.ofBudget (j + 1)) m elapsed w with ⟨(e | _) | k, w''⟩
  · exact absurd (congrArg Prod.fst hrun) (Calm.update (Calm.resume_ofBudget (j + 1)) m elapsed w e)
  · exact absurd (congrArg Prod.fst hrun) hne
  obtain ⟨⟨⟩, w₁, -, hrest⟩ := exists_of_bind_eq_ok (hupdate.symm.trans hrun)
  obtain ⟨ran, w₂, -, hpure⟩ := exists_of_bind_eq_ok hrest
  cases hpure
  refine ⟨j, turns, w', w'', rfl, hturns, by rw [hdrain.steps_eq], fun t ht hresumed ↦ ?_, fun t ht hruns ↦ ⟨?_, ?_⟩,
    fun t ht hvoid ↦ ⟨Turn.resume_of_isVoid hvoid, fun hmem x hx ↦ ?_⟩⟩
  · have hcounts := Turn.counts (hdrain.valid t ht) (hdrain.rouses t ht) (hdrain.unbegun t ht)
    rw [hresumed] at hcounts
    by_contra hnone
    obtain ⟨hruns, hvoid⟩ := not_or.mp hnone
    simp [hruns, hvoid] at hcounts
  · obtain ⟨hresumed, hstored⟩ := Bool.and_eq_true_iff.mp hruns
    obtain ⟨e, he, hlooks⟩ := (Option.any_eq_true _ _).mp hstored
    have hu : t.world.isFinished e.handle = false := by simpa using (Bool.and_eq_true_iff.mp hlooks).1
    refine ⟨e.handle, (hdrain.valid t ht).runs he ?_⟩
    by_cases hcause : t.cause = .deferral
    · refine .inr (((hdrain.unbegun t ht hcause).2 e he).resolve_right fun hstopped ↦ ?_)
      rw [World.isFinished, hstopped] at hu
      cases hu
    · obtain ⟨e', he', hstatus⟩ := hdrain.rouses t ht hcause hresumed
      obtain rfl := Option.some.inj (he.symm.trans he')
      exact .inl hstatus
  · exact hdrain.callStack t ht
  · obtain ⟨hcause, hgone⟩ := Bool.and_eq_true_iff.mp hvoid
    refine (hfirst.kept t ht (beq_iff_eq.mp hcause) hmem x hx).resolve_right fun hwaits ↦ ?_
    obtain ⟨hstatus, e, he, hhandle⟩ := hwaits
    have hu : t.world.isFinished e.handle = false := by rw [hhandle, World.isFinished, hstatus]; rfl
    exact absurd ((Turn.not_isVoid_of_stored he hu).symm.trans hvoid) Bool.false_ne_true

/-- The update runs the first step of the coroutine and counts it. -/
theorem update_counts_deferring : ∃ owned turns w', Reached owned World.deferring ∧
    (update (.ofBudget 3) ⟨0⟩ 0.5 World.deferring).1 ≠ .error .exhausted ∧
    Machine.turns (.ofBudget 3) ⟨0⟩ (beginUpdate ⟨0⟩ 0.5 World.deferring).2 = (.ok turns, w') ∧
    (update (.ofBudget 3) ⟨0⟩ 0.5 World.deferring).1 =
      .ok (turns.countP (Turn.runs ⟨0⟩) + turns.countP (Turn.isVoid ⟨0⟩)) := by
  obtain ⟨owned, hdeferring⟩ := Reached.started true
  obtain ⟨-, hcounts⟩ := update_counts hdeferring update_deferring
  obtain ⟨-, turns, w', w'', -, hturns, hupdate, -⟩ := hcounts World.idle_deferring
  exact ⟨owned, turns, w', hdeferring, update_deferring, hturns, congrArg Prod.fst hupdate⟩

/-- The host has stopped the coroutine before its first step. -/
def World.cancelled : World := World.deferring.stop ⟨⟨0⟩, ⟨0, 0⟩, "_wait_event", ⟨0⟩⟩

/-- The update counts one step although it runs none. -/
theorem not_update_counts_steps : ∃ owned turns w', Reached owned World.cancelled ∧ World.cancelled.Idle ⟨0⟩ ∧
    Machine.turns (.ofBudget 3) ⟨0⟩ (beginUpdate ⟨0⟩ 0.5 World.cancelled).2 = (.ok turns, w') ∧
    (update (.ofBudget 3) ⟨0⟩ 0.5 World.cancelled).1 = .ok 1 ∧ ∀ t ∈ turns, t.runs ⟨0⟩ = false := by
  obtain ⟨owned, hdeferring⟩ := Reached.started true
  have hcancelled := hdeferring.returns 0 (.stop ⟨⟨0⟩, ⟨0, 0⟩, "_wait_event", ⟨0⟩⟩) (modify_apply _ _)
  have hnone : ((Machine.turns (.ofBudget 3) ⟨0⟩ (beginUpdate ⟨0⟩ 0.5 World.cancelled).2).1.toOption.any
      fun turns ↦ turns.all fun t ↦ !t.runs ⟨0⟩) = true := by decide +kernel
  have hone : (update (.ofBudget 3) ⟨0⟩ 0.5 World.cancelled).1.toOption = some 1 := by decide +kernel
  rcases hturns : Machine.turns (.ofBudget 3) ⟨0⟩ (beginUpdate ⟨0⟩ 0.5 World.cancelled).2 with ⟨_ | turns, w'⟩
  · rw [hturns] at hnone
    cases hnone
  rw [hturns] at hnone
  have hall : (turns.all fun t ↦ !t.runs ⟨0⟩) = true := hnone
  refine ⟨_, turns, w', hcancelled, World.idle_of_any (by decide +kernel), rfl, ?_, by simpa using hall⟩
  rcases hupdate : (update (.ofBudget 3) ⟨0⟩ 0.5 World.cancelled).1 with _ | k
  · rw [hupdate] at hone
    cases hone
  · rw [hupdate] at hone
    exact congrArg Except.ok (Option.some.inj hone)

end MindScript
