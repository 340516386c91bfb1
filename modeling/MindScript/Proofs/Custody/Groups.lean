import MindScript.Proofs.Custody.Runs
import MindScript.Proofs.Custody.Standing
import MindScript.Proofs.Wakeups.Paces

/-!
# When groups settle

The scheduler resumes a group that sleeps once its branches decide it, and then the group settles.  So the decision of the
scheduler and the poll of the group agree, in whichever order the branches settle: in steps of their own, while their
siblings are being started, or because they are stopped.
-/

namespace MindScript

open Machine

variable {owned : List Link} {w : World}

/-! ### Resuming groups -/

/-- What becomes of a group with a step: it ends as the step says, or it watches its branches on, unless it was told to stop
in the step. -/
inductive Group.Comes (m : MindId) (k : FrameId) (x : Handle) (g : Group) (w : World) : Except EvalError Step → Prop where
  | ended {step : Except EvalError Step} {ending : Ending} {origin : Origin} : Ending.ofStep? step = some ending →
      (w.heap.outcome x.outcome).status = ending.status → (w.heap.outcome x.outcome).result = ending.result? →
      (w.heap.outcome x.outcome).error = ending.error?.map (·.withOrigin origin) → Comes m k x g w step
  | stopped : w.status x = .stopped → Comes m k x g w (.ok (.suspend .children))
  | watching {e : FrameEntry} {frame : Frame} : w.entryAt m k = some e → e.handle = x → e.frame = some frame →
      frame.body = .group g → frame.updateCount ≠ 0 → g.Watches frame e.wake → Comes m k x g w (.ok (.suspend .children))

namespace Machine

variable {s : List FrameKey} {m : MindId} {k : FrameId} {e : FrameEntry} {frame : Frame} {g g' : Group} {v v' : World}
  {step : Except EvalError Step} {j : ℕ}

/-- A resumption of a group makes a step of it, unless starting its branches uses up the budget. -/
theorem exists_of_resume_group (hvalid : Moment.Valid ⟨s, v⟩) (hpaced : v.Paced) (he : v.entryAt m k = some e)
    (hframe : e.frame = some frame) (hbody : frame.body = .group g) (j : ℕ) :
    (frame.updateCount = 0 ∧ ∃ callStack u,
      v.callStack.push ⟨v.classes.nameOf e.owner, e.handle.name⟩ = .ok callStack ∧
      startBranches (.ofBudget j) m k g.policy (frame.context.arena.listAt g.branches) g.handles
        { v.takeFrame m k e frame with callStack } = (.error .exhausted, u) ∧
      (Engine.ofBudget (j + 1)).resume m k v = (.error .exhausted, u)) ∨
    ∃ v' g' step, (Engine.ofBudget (j + 1)).resume m k v = (.ok (), v') ∧
      g.Steps (.ofBudget j) m k ⟨v.classes.nameOf e.owner, e.handle.name⟩ frame.updateCount (v.takeFrame m k e frame) g'
        step ∧ g'.Comes m k e.handle v' step := by
  have hu := hvalid.isFinished_of_stored he hframe
  have hresume : (Engine.ofBudget (j + 1)).resume m k v = runFrame (.ofBudget j) m k e frame v :=
    resumeFrame_of_stored he hu hframe
  have htaken : Moment.Valid ⟨(m, k) :: s, v.takeFrame m k e frame⟩ := hvalid.act (.begin he hu hframe)
  have hT := Engine.tracked_ofBudget j
  have hB := Engine.balanced_ofBudget j
  let i : Invocation := ⟨v.classes.nameOf e.owner, e.handle.name⟩
  rcases hrun : stepInvocation (.ofBudget j) m k i frame e.delivered (v.takeFrame m k e frame) with
    ⟨interrupt | ⟨body, step, unused⟩, w₁⟩
  · obtain ⟨hcount, rfl, callStack, hpush, hstart⟩ := interrupted_of_stepInvocation hT htaken rfl hbody hrun
    exact .inl ⟨hcount, callStack, w₁, hpush, hstart, hresume.trans (runFrame_of_error rfl hrun)⟩
  obtain ⟨hcontext, g', rfl, hsteps⟩ := steps_of_stepInvocation hT hB htaken rfl hbody hrun
  obtain ⟨v', c, c', hends, -, -, hreturned, hhandle, hreturn⟩ := exists_returned hT hvalid he hframe rfl hrun
  refine .inr ⟨v', g', step, hends, hsteps, ?_⟩
  have hpaced' : ((Engine.ofBudget (j + 1)).resume m k v).2.Paced :=
    ((Engine.stands_ofBudget Frame.standing_paced (j + 1)).resume ⟨s.head?, 0, true, none⟩ m k).leads s v hvalid rfl
      (Nat.zero_le _) hpaced hpaced
  have hends' : (Engine.ofBudget (j + 1)).resume m k v = (.ok (), v') := hends
  rw [hends'] at hpaced'
  let after : Frame := { frame with context := w₁.context, body := .group g', updateCount := frame.updateCount + 1 }
  obtain ⟨e', he', -, hcard⟩ := World.card_eq_some_iff.mp hreturned
  have hcell := World.outcome_of_cell? (World.cell_of_card hreturned)
  rw [hhandle] at hcell
  have hwatches : ∀ wake, step = .ok (.suspend wake) → _ := fun wake hstep ↦ hsteps.watches hstep
    (fun hcount ↦ (hpaced m k e frame he hframe).handles hcount hbody)
    fun hcount ↦ ((hpaced m k e frame he hframe).watches hcount hbody).size
  cases hreturn with
  | ended hending hstatus hresult herror =>
    rw [← hcell] at hstatus hresult herror
    exact .ended hending hstatus hresult herror
  | stuck _ => cases (hwatches _ rfl).1
  | stopped _ hstatus =>
    obtain rfl := (hwatches _ rfl).1
    rw [← hcell] at hstatus
    exact .stopped hstatus
  | asleep wake _ =>
    obtain rfl := (hwatches _ rfl).1
    have hstored : e'.frame = some after := congrArg Card.frame hcard
    have hcount : after.updateCount ≠ 0 := Nat.succ_ne_zero _
    exact .watching he' ((congrArg Card.handle hcard).trans hhandle) hstored rfl hcount
      ((hpaced' m k e' after he' hstored).watches hcount rfl)

end Machine

theorem Group.Comes.isFinished {m : MindId} {k : FrameId} {x : Handle} {g : Group} {step : Except EvalError Step}
    (h : g.Comes m k x w step) {ending : Ending} (hending : Ending.ofStep? step = some ending) : w.isFinished x = true := by
  cases h with
  | @ended _ ending _ _ hstatus _ _ =>
    rw [World.isFinished, World.status, hstatus, ending.isFinished_status]
  | stopped _ => cases hending
  | watching _ _ _ _ _ _ => cases hending

/-- What wakes a group that watches its branches is their decision. -/
theorem Group.Watches.isDue {s : List FrameKey} {m : MindId} {k : FrameId} {e : FrameEntry} {frame : Frame} {g : Group}
    (h : g.Watches frame e.wake) (hvalid : Moment.Valid ⟨s, w⟩) (he : w.entryAt m k = some e)
    (hframe : e.frame = some frame) (hbody : frame.body = .group g) : w.isDue m k = g.isDecided w.status := by
  have hs : w.status e.handle = .suspended := World.status_of_wake hvalid he h.wake
  have htimed : w.timeWakeDue m k = false := by
    obtain ⟨mind, hmind, he⟩ := Option.bind_eq_some_iff.mp he
    simp [World.timeWakeDue, hmind, he, h.wake]
  rw [World.isDue, htimed, Bool.false_or, World.conditionHolds, he]
  simp [hs, h.wake, hframe, hbody]

/-- In all that a call passes, a group that can run is new, or it watches its branches and is due just if they decide it;
and a poll leaves such a group watching just if they do not.  When the call resumes a group that watches, the branches decide
it, and it settles.  Whenever it resumes a group, the call stack has no room for its step, or a branch cannot be started, or
the group polls the branches it has started, and ends or watches on as the poll says. A `sync` group that completes has
started all its branches, and a group without branches completes in its first step, if there is room for it. -/
theorem group_settles_when_resumed (hw : Reached owned w) {n : ℕ} {α : Type} {f : Machine α} {key : Option FrameKey}
    {v : World} (hpasses : Passes n w.setting f w key v) {m : MindId} {k : FrameId} {e : FrameEntry} {frame : Frame}
    {g : Group} (he : v.entryAt m k = some e) (hframe : e.frame = some frame) (hbody : frame.body = .group g) :
    (frame.updateCount = 0 ∧ g.handles = #[] ∨
      frame.updateCount ≠ 0 ∧ g.Watches frame e.wake ∧ v.isDue m k = g.isDecided v.status) ∧
    (∃ step v', decideGroup m k g v = (.ok step, v') ∧ g.Poll v step ∧
      (frame.updateCount ≠ 0 → (step = .ok (.suspend .children) ↔ g.isDecided v.status = false))) ∧
    (key = some (m, k) → (frame.updateCount ≠ 0 → g.isDecided v.status = true) ∧ ∀ j,
      (frame.updateCount = 0 ∧ frame.context.arena.listAt g.branches ≠ [] ∧
        ((Engine.ofBudget (j + 1)).resume m k v).1 = .error .exhausted) ∨
      ∃ v' g' step, (Engine.ofBudget (j + 1)).resume m k v = (.ok (), v') ∧
        g.Steps (.ofBudget j) m k ⟨v.classes.nameOf e.owner, e.handle.name⟩ frame.updateCount (v.takeFrame m k e frame) g'
          step ∧
        g'.Comes m k e.handle v' step ∧
        (frame.updateCount ≠ 0 → v'.isFinished e.handle = true) ∧
        (g.policy = .sync → step = .ok (.done .nil) →
          g'.handles.size = (frame.context.arena.listAt g.branches).length) ∧
        (frame.updateCount = 0 → frame.context.arena.listAt g.branches = [] → ∀ callStack,
          v.callStack.push ⟨v.classes.nameOf e.owner, e.handle.name⟩ = .ok callStack →
            (v'.heap.outcome e.handle.outcome).status = .completed ∧
              (v'.heap.outcome e.handle.outcome).result = some .nil)) := by
  obtain ⟨σ, hsane⟩ := hw.sane
  have hvalid := hsane.books.valid
  have hstarts : Starts w.setting σ.stack w := ⟨hvalid, hvalid.current.symm, Nat.le_refl _, hw.deferred⟩
  obtain ⟨s, hthere, hpaced⟩ := hw.passes Frame.standing_paced hpasses
  have hstands := hpaced m k e frame he hframe
  have hu := hthere.isFinished_of_stored he hframe
  have hhandles := fun hcount ↦ hstands.handles hcount hbody
  have hwatches := fun hcount ↦ hstands.watches hcount hbody
  refine ⟨?_, ?_, fun hkey ↦ ?_⟩
  · by_cases hcount : frame.updateCount = 0
    · exact .inl ⟨hcount, hhandles hcount⟩
    · exact .inr ⟨hcount, hwatches hcount, (hwatches hcount).isDue hthere he hframe hbody⟩
  · obtain ⟨step, v', hdecide, hpoll, -⟩ := exists_poll hthere m k g
    exact ⟨step, v', hdecide, hpoll, fun hcount ↦ hpoll.watching_iff (hwatches hcount).ne⟩
  have hdecided : frame.updateCount ≠ 0 → g.isDecided v.status = true := by
    intro hcount
    have hripe := hpasses.satisfies passing_ripe σ.stack hstarts m k hkey e he
    obtain ⟨hdue, -⟩ := hripe.resolve_left (by simp [(hwatches hcount).wake])
    rwa [(hwatches hcount).isDue hthere he hframe hbody] at hdue
  refine ⟨hdecided, fun j ↦ ?_⟩
  rcases exists_of_resume_group hthere hpaced he hframe hbody j with
    ⟨hcount, callStack, u, -, hstart, hends⟩ | ⟨v', g', step, hends, hsteps, hcomes⟩
  · refine .inl ⟨hcount, fun hnone ↦ ?_, congrArg Prod.fst hends⟩
    rw [hnone] at hstart
    cases hstart
  refine .inr ⟨v', g', step, hends, hsteps, hcomes, fun hcount ↦ ?_, fun hpolicy hstep ↦ ?_,
    fun hcount hnone callStack hpush ↦ ?_⟩
  · have hbegin : Act ⟨s, v⟩ ⟨(m, k) :: s, v.takeFrame m k e frame⟩ := .begin he hu hframe
    have hstays : g.isDecided (v.takeFrame m k e frame).status = true := by
      refine World.isDecided_mono (fun x hx ↦ ?_) (hdecided hcount)
      obtain ⟨c, hc, hfin⟩ := World.cell_of_isFinished hx
      rw [World.status_of_cell? (hbegin.final hthere hc hfin), World.status_of_cell? hc]
    obtain ⟨ending, hending⟩ := hsteps.exists_ending hcount hstays
    exact hcomes.isFinished hending
  · exact hsteps.size hpolicy hstep hhandles fun hcount ↦ (hwatches hcount).size
  · rw [hcount] at hsteps
    obtain rfl := hsteps.of_empty hnone (hhandles hcount) hpush
    cases hcomes with
    | ended hending hstatus hresult _ =>
      cases hending
      exact ⟨hstatus, hresult⟩

/-! ### A group of two branches

A host evaluates code that starts a group.  The first branch has ended when the group is polled for the first time, and the
second one waits for an event.  Then the host stops the second one. -/

namespace Gathering

def arena : Arena where
  nodes := #[.nil, .sym "ping", .coroutineCall none "_wait_event" ⟨0, 1⟩ none, .concurrent .sync ⟨0, 2⟩, .branch ⟨3⟩]
  durational := #[false, false, true, true, false]
  lists := #[⟨0⟩, ⟨2⟩]
  args := #[⟨none, ⟨1⟩⟩]

/-- The group before it has started its branches. -/
def group : Group := { policy := .sync, branches := ⟨0, 2⟩ }

/-! Its frame has one child for each branch, and its parent goes on when it has settled. -/

def parentHandle : Handle := ⟨⟨0⟩, ⟨0, 0⟩, "branch", ⟨0⟩⟩

def groupHandle : Handle := ⟨⟨0⟩, ⟨1, 0⟩, "sync", ⟨1⟩⟩

def firstHandle : Handle := ⟨⟨0⟩, ⟨2, 0⟩, "branch", ⟨2⟩⟩

def secondHandle : Handle := ⟨⟨0⟩, ⟨3, 0⟩, "branch", ⟨3⟩⟩

def waitHandle : Handle := ⟨⟨0⟩, ⟨4, 0⟩, "_wait_event", ⟨4⟩⟩

def started : Group := { group with handles := #[firstHandle, secondHandle] }

/-- The host is about to evaluate the code. -/
def begun : World :=
  let w := (nil (.new {})).2
  let (env, heap) := Environment.new w.heap
  { w with heap, context := { arena, env, this := .nil, thisClass := Core.object } }

/-! The parent has been registered, and its step has begun. -/

def parentMade : World := (registerHere ⟨0⟩ branchName none (.script (.new ⟨3⟩)) begun).2

def parentEntry : FrameEntry := (parentMade.entryAt ⟨0⟩ ⟨0, 0⟩).get (by decide +kernel)

def parentFrame : Frame := parentEntry.frame.get (by decide +kernel)

def parentStep : World := parentMade.stepping ⟨0⟩ ⟨0, 0⟩ parentEntry parentFrame

/-! So has the group. -/

def groupMade : World := (registerHere ⟨0⟩ Policy.sync.name (some ⟨0, 0⟩) (.group group) parentStep).2

def groupEntry : FrameEntry := (groupMade.entryAt ⟨0⟩ ⟨1, 0⟩).get (by decide +kernel)

def groupFrame : Frame := groupEntry.frame.get (by decide +kernel)

def groupStep : World := groupMade.stepping ⟨0⟩ ⟨1, 0⟩ groupEntry groupFrame

/-! The first branch has been registered, and it has ended. -/

def firstMade : World := (registerHere ⟨0⟩ branchName (some ⟨1, 0⟩) (.script (.new ⟨0⟩)) groupStep).2

def firstDone : World := ((Engine.ofBudget 5).resume ⟨0⟩ ⟨2, 0⟩ firstMade).2

/-! The second branch makes the name of the event in its step and starts the coroutine that waits for it. -/

def secondMade : World := (registerHere ⟨0⟩ branchName (some ⟨1, 0⟩) (.script (.new ⟨2⟩)) firstDone).2

def secondEntry : FrameEntry := (secondMade.entryAt ⟨0⟩ ⟨3, 0⟩).get (by decide +kernel)

def secondFrame : Frame := secondEntry.frame.get (by decide +kernel)

def secondStep : World := secondMade.stepping ⟨0⟩ ⟨3, 0⟩ secondEntry secondFrame

def named : World := (symbol "ping" secondStep).2.retain (.object .nil)

def found : World := { named with classes := (named.classes.find ⟨1⟩ "_wait_event").2 }

def waiting : World := (spawnMember (.ofBudget 4) ⟨0⟩ (some ⟨3, 0⟩) .nil waitEvent [(none, ⟨1⟩)] false found).2

/-! From the innermost to the outermost one, the frames fall asleep. -/

def secondBack : World :=
  secondMade.putBack (waiting.retain (.outcome waitHandle.outcome)) ⟨0⟩ ⟨3, 0⟩ secondFrame (.script ⟨[.await waitHandle], .empty⟩)

def secondAsleep : World := secondBack.sleep ⟨0⟩ ⟨3, 0⟩ (.frame waitHandle)

def groupAsleep : World :=
  (groupMade.putBack secondAsleep ⟨0⟩ ⟨1, 0⟩ groupFrame (.group started)).sleep ⟨0⟩ ⟨1, 0⟩ .children

def parentBack : World :=
  parentMade.putBack (groupAsleep.retain (.outcome groupHandle.outcome)) ⟨0⟩ ⟨0, 0⟩ parentFrame
    (.script ⟨[.await groupHandle], .empty⟩)

def parentAsleep : World := parentBack.sleep ⟨0⟩ ⟨0, 0⟩ (.frame groupHandle)

/-! The host has the handle of the parent as a value, stops the second branch, and updates the Mind. -/

def evaluated : World :=
  ((handleValue parentHandle >>= fun value ↦ releaseLinks [.outcome parentHandle.outcome] >>= fun _ ↦ pure value)
    (parentAsleep.settleMind ⟨0⟩)).2

def asleep : World := { evaluated with context := (World.new {}).context }.release evaluated.context.links

def stopped : World := asleep.stop secondHandle

def updating : World := (beginUpdate ⟨0⟩ 0.5 stopped).2

/-! What follows is computed, and each part of it would be from the beginning, so it is told in few places. -/

/-- The frames have these handles. -/
theorem handles_made :
    (registerHere ⟨0⟩ branchName none (.script (.new ⟨3⟩)) begun).1.toOption = some parentHandle ∧
    (registerHere ⟨0⟩ Policy.sync.name (some ⟨0, 0⟩) (.group group) parentStep).1.toOption = some groupHandle ∧
    (registerHere ⟨0⟩ branchName (some ⟨1, 0⟩) (.script (.new ⟨0⟩)) groupStep).1.toOption = some firstHandle ∧
    ((Engine.ofBudget 5).resume ⟨0⟩ firstHandle.frame firstMade).1.toOption = some () ∧
    (registerHere ⟨0⟩ branchName (some ⟨1, 0⟩) (.script (.new ⟨2⟩)) firstDone).1.toOption = some secondHandle ∧
    (spawnMember (.ofBudget 4) ⟨0⟩ (some ⟨3, 0⟩) .nil waitEvent [(none, ⟨1⟩)] false found).1.toOption = some waitHandle ∧
    ((handleValue parentHandle >>= fun value ↦ releaseLinks [.outcome parentHandle.outcome] >>= fun _ ↦ pure value)
      (parentAsleep.settleMind ⟨0⟩)).1.toOption = some ⟨2⟩ := by
  decide +kernel

/-- The steps of the second branch, the group and the parent are under way in these worlds, and they are to sleep. -/
theorem steps_begun :
    (named.heap.classOf .nil = ⟨1⟩ ∧ named.current = some (⟨0⟩, ⟨3, 0⟩) ∧ waiting.status waitHandle = .suspended ∧
      secondMade.isFinished secondEntry.handle = false ∧ secondMade.callStack.depth < secondMade.callStack.maxDepth ∧
      ((waiting.retain (.outcome waitHandle.outcome)).entryAt ⟨0⟩ ⟨3, 0⟩).any (fun e ↦ !e.stopRequested) = true ∧
      ([⟨4, 0⟩].all fun a ↦ ((secondBack.waitsFor ⟨0⟩ a).getD []).all [⟨4, 0⟩].contains) = true) ∧
    (groupStep.context.arena.listAt group.branches = [⟨0⟩, ⟨2⟩] ∧
      started.handles.find? (fun h ↦ secondAsleep.status h == .failed) = none ∧
      started.handles.all secondAsleep.isFinished = false ∧ groupMade.isFinished groupEntry.handle = false ∧
      groupMade.callStack.depth < groupMade.callStack.maxDepth ∧
      (secondAsleep.entryAt ⟨0⟩ ⟨1, 0⟩).any (fun e ↦ !e.stopRequested) = true) ∧
    parentStep.current = some (⟨0⟩, ⟨0, 0⟩) ∧ groupAsleep.status groupHandle = .suspended ∧
      parentMade.isFinished parentEntry.handle = false ∧ parentMade.callStack.depth < parentMade.callStack.maxDepth ∧
      ((groupAsleep.retain (.outcome groupHandle.outcome)).entryAt ⟨0⟩ ⟨0, 0⟩).any (fun e ↦ !e.stopRequested) = true ∧
      ([⟨1, 0⟩, ⟨2, 0⟩, ⟨3, 0⟩, ⟨4, 0⟩].all fun a ↦
        ((parentBack.waitsFor ⟨0⟩ a).getD []).all [⟨1, 0⟩, ⟨2, 0⟩, ⟨3, 0⟩, ⟨4, 0⟩].contains) = true := by
  decide +kernel

/-- The update comes to the group, for which everything is decided. -/
theorem looks_updating :
    ((stopped.mind? ⟨0⟩).any fun mind ↦ !mind.suspended && !mind.updating) = true ∧
    updating.live ⟨0⟩ = [⟨0, 0⟩] ++ ⟨1, 0⟩ :: [] ∧ (∀ id ∈ updating.live ⟨0⟩, updating.timeWakeDue ⟨0⟩ id = false) ∧
    (∀ id ∈ [(⟨0, 0⟩ : FrameId)], updating.conditionHolds ⟨0⟩ id = false) ∧
    updating.conditionHolds ⟨0⟩ ⟨1, 0⟩ = true ∧ updating.status firstHandle = .completed ∧
    updating.status secondHandle = .stopped := by
  decide +kernel

theorem callCoroutine_named :
    callCoroutine (.ofBudget 4) .nil waitEvent.name none [(none, ⟨1⟩)] named = (.ok (.running waitHandle), waiting) := by
  have hr : (CoreClass.all.foldl Registry.adding {}).Remembers named.classes :=
    World.classes_new {} ▸ CoreClass.registry_remembers
  obtain ⟨⟨hc, hcurrent, -⟩, -⟩ := steps_begun
  obtain ⟨-, -, -, -, -, hspawned, -⟩ := handles_made
  rw [callCoroutine_of_search hr hc (CoreClass.lt_size (by decide)) search_waitEvent rfl hcurrent, map_eq_pure_bind]
  exact bind_of_ok (eq_ok_of_toOption hspawned)

theorem runTasks_second : runTasks (.ofBudget 4) arena 3 (.new ⟨2⟩) secondStep =
    (.ok (⟨[.await waitHandle], .empty⟩, .ok (.suspend (.frame waitHandle))),
      waiting.retain (.outcome waitHandle.outcome)) := by
  let call : Task := .apply (.coroutine false waitEvent.name ⟨0, 1⟩ none)
  let k : Continuation := ⟨[], Stack.empty.push ⟨1⟩⟩
  have hnamed : runTasks (.ofBudget 4) arena 3 (.new ⟨2⟩) secondStep =
      runTasks (.ofBudget 4) arena 1 (k.todo [call]) (symbol "ping" secondStep).2 := rfl
  have hcall : runTask (.ofBudget 4) arena k call (symbol "ping" secondStep).2 =
      awaitInvoked ⟨[], .empty⟩ (callCoroutine (.ofBudget 4) .nil waitEvent.name none [(none, ⟨1⟩)]) named := rfl
  obtain ⟨⟨-, -, hs, -⟩, -⟩ := steps_begun
  rw [hnamed, runTasks]
  exact bind_of_ok (hcall.trans (awaitInvoked_of_suspended callCoroutine_named hs))

theorem resume_second : (Engine.ofBudget 5).resume ⟨0⟩ secondHandle.frame secondMade = (.ok (), secondAsleep) := by
  have hbody : stepBody (.ofBudget 4) ⟨0⟩ ⟨3, 0⟩ secondFrame none secondStep =
      (.ok (.script ⟨[.await waitHandle], .empty⟩, .ok (.suspend (.frame waitHandle))),
        waiting.retain (.outcome waitHandle.outcome)) := by
    have hscript : secondFrame.body = .script (.new ⟨2⟩) := rfl
    have harena : secondStep.context.arena = arena := rfl
    exact stepBody_of_runTasks hscript (harena ▸ runTasks_second)
  obtain ⟨⟨-, -, -, hu, hroom, hback, hclosed⟩, -⟩ := steps_begun
  have hfree : secondBack.waitsOn ⟨0⟩ waitHandle.frame ⟨3, 0⟩ = false :=
    World.waitsOn_eq_false [⟨4, 0⟩] (by decide) (by decide) hclosed
  exact resume_of_suspends (Option.some_get _).symm hu (Option.some_get _).symm rfl hroom hbody hback
    fun x hx ↦ Wake.frame.inj hx ▸ hfree

theorem startBranches_group :
    startBranches (.ofBudget 5) ⟨0⟩ ⟨1, 0⟩ .sync [⟨0⟩, ⟨2⟩] #[] groupStep = (.ok started.handles, secondAsleep) := by
  obtain ⟨-, -, hfirst, hended, hsecond, -⟩ := handles_made
  have hended : (Engine.ofBudget 5).resume ⟨0⟩ firstHandle.frame firstMade = (.ok (), firstDone) := eq_ok_of_toOption hended
  have hsecond : registerHere ⟨0⟩ branchName (some ⟨1, 0⟩) (.script (.new ⟨2⟩)) firstDone = (.ok secondHandle, secondMade) :=
    eq_ok_of_toOption hsecond
  rw [startBranches_of_resume (eq_ok_of_toOption hfirst) hended, startBranches_of_resume hsecond resume_second]
  rfl

theorem pollGroup_group :
    pollGroup (.ofBudget 5) ⟨0⟩ ⟨1, 0⟩ group 0 groupStep = (.ok (started, .ok (.suspend .children)), secondAsleep) := by
  obtain ⟨-, ⟨hbranches, hfailed, hopen, -⟩, -⟩ := steps_begun
  have hdecide : decideGroup ⟨0⟩ ⟨1, 0⟩ started secondAsleep = (.ok (.ok (.suspend .children)), secondAsleep) := by
    rw [decideGroup, get_bind, show started.policy = .sync from rfl]
    dsimp only
    rw [hfailed, hopen]
    rfl
  rw [pollGroup, if_pos rfl, get_bind]
  dsimp only
  rw [hbranches, show group.policy = .sync from rfl, show group.handles = #[] from rfl, bind_of_ok startBranches_group,
    pure_bind]
  exact bind_of_ok hdecide

theorem resume_group : (Engine.ofBudget 6).resume ⟨0⟩ groupHandle.frame groupMade = (.ok (), groupAsleep) := by
  have hbody : stepBody (.ofBudget 5) ⟨0⟩ ⟨1, 0⟩ groupFrame none groupStep =
      (.ok (.group started, .ok (.suspend .children)), secondAsleep) := by
    have hgroup : groupFrame.body = .group group := rfl
    have hcount : groupFrame.updateCount = 0 := rfl
    exact stepBody_of_pollGroup hgroup (hcount ▸ pollGroup_group)
  obtain ⟨-, ⟨-, -, -, hu, hroom, hback⟩, -⟩ := steps_begun
  exact resume_of_suspends (Option.some_get _).symm hu (Option.some_get _).symm rfl hroom hbody hback nofun

theorem runTasks_parent : runTasks (.ofBudget 6) arena 5 (.new ⟨3⟩) parentStep =
    (.ok (⟨[.await groupHandle], .empty⟩, .ok (.suspend (.frame groupHandle))),
      groupAsleep.retain (.outcome groupHandle.outcome)) := by
  obtain ⟨-, -, hcurrent, hs, -⟩ := steps_begun
  obtain ⟨-, hregister, -⟩ := handles_made
  have hspawned : (Invoked.running <$> spawnGroup (.ofBudget 6) .sync ⟨0, 2⟩) parentStep =
      (.ok (.running groupHandle), groupAsleep) := by
    rw [map_eq_pure_bind]
    exact bind_of_ok (spawnGroup_of_resume hcurrent (eq_ok_of_toOption hregister) resume_group)
  have htask : runTask (.ofBudget 6) arena ⟨[], .empty⟩ (.eval ⟨3⟩) =
      awaitInvoked ⟨[], .empty⟩ (Invoked.running <$> spawnGroup (.ofBudget 6) .sync ⟨0, 2⟩) := rfl
  have hended : runTask (.ofBudget 6) arena ⟨[], .empty⟩ (.eval ⟨3⟩) parentStep =
      (.ok (⟨[.await groupHandle], .empty⟩, .suspend (.frame groupHandle)),
        groupAsleep.retain (.outcome groupHandle.outcome)) := by
    rw [htask]
    exact awaitInvoked_of_suspended hspawned hs
  exact bind_of_ok hended

theorem resume_parent : (Engine.ofBudget 7).resume ⟨0⟩ parentHandle.frame parentMade = (.ok (), parentAsleep) := by
  have hbody : stepBody (.ofBudget 6) ⟨0⟩ ⟨0, 0⟩ parentFrame none parentStep =
      (.ok (.script ⟨[.await groupHandle], .empty⟩, .ok (.suspend (.frame groupHandle))),
        groupAsleep.retain (.outcome groupHandle.outcome)) := by
    have hscript : parentFrame.body = .script (.new ⟨3⟩) := rfl
    have harena : parentStep.context.arena = arena := rfl
    exact stepBody_of_runTasks hscript (harena ▸ runTasks_parent)
  obtain ⟨-, -, -, -, hu, hroom, hback, hclosed⟩ := steps_begun
  have hfree : parentBack.waitsOn ⟨0⟩ groupHandle.frame ⟨0, 0⟩ = false :=
    World.waitsOn_eq_false [⟨1, 0⟩, ⟨2, 0⟩, ⟨3, 0⟩, ⟨4, 0⟩] (by decide) (by decide) hclosed
  exact resume_of_suspends (Option.some_get _).symm hu (Option.some_get _).symm rfl hroom hbody hback
    fun x hx ↦ Wake.frame.inj hx ▸ hfree

theorem eval_begun : (Engine.ofBudget 8).eval ⟨4⟩ begun = (.ok ⟨2⟩, evaluated) := by
  have hnode : begun.context.arena.node ⟨4⟩ = .branch ⟨3⟩ := rfl
  have hbranch : (Engine.ofBudget 8).eval ⟨4⟩ begun = evalBranch (.ofBudget 7) ⟨3⟩ begun := by
    show evalNode (.ofBudget 7) ⟨4⟩ begun = _
    rw [evalNode, get_bind, hnode]
  have hmind : (begun.current.map Prod.fst).or begun.defaultMind = some ⟨0⟩ := rfl
  obtain ⟨hregister, -, -, -, -, -, hvalue⟩ := handles_made
  have hvalue : (handleValue parentHandle >>= fun value ↦ releaseLinks [.outcome parentHandle.outcome] >>= fun _ ↦
      pure value) (parentAsleep.settleMind ⟨0⟩) = (.ok ⟨2⟩, evaluated) := eq_ok_of_toOption hvalue
  rw [hbranch, evalBranch, bind_of_ok (spawnBranch_of_resume hmind (eq_ok_of_toOption hregister) resume_parent)]
  exact hvalue

theorem reached_stopped : Reached [.object ⟨2⟩] stopped := by
  have hnil : nil (.new {}) = (.ok .nil, (nil (.new {})).2) := rfl
  have hcontext : newContext arena .nil Core.object (nil (.new {})).2 =
      (.ok begun.context, { begun with context := (World.new {}).context }) := rfl
  have hasleep : Reached [.object ⟨2⟩] asleep :=
    (Reached.start {}).safePoint 8 (.evaluate arena ⟨4⟩) (evaluateBody_of_eval hnil hcontext eval_begun)
  have hcall : FairCall (.ofBudget 0) asleep [.object ⟨2⟩] (modify fun w ↦ w.stop secondHandle) fun _ ↦ [.object ⟨2⟩] :=
    .stop secondHandle
  have hstop : (modify fun w ↦ w.stop secondHandle : Machine Unit) asleep = (.ok (), stopped) := modify_apply _ asleep
  have hreturns := hasleep.returns 0 hcall hstop
  exact hreturns

/-- The update comes to the group. -/
theorem passes_updating :
    Passes 8 stopped.setting (update (.ofBudget 8) ⟨0⟩ 0.5) stopped (some (⟨0⟩, ⟨1, 0⟩)) updating := by
  obtain ⟨hpresent, hlive, htimed, hbefore, hdue, -⟩ := looks_updating
  have hbegin : beginUpdate ⟨0⟩ 0.5 stopped = (.ok (), updating) := modify_apply _ stopped
  obtain ⟨mind, hmind, hsuspended, hupdating⟩ : stopped.Idle ⟨0⟩ := World.idle_of_any hpresent
  refine .whenIdle hmind (by rw [hsuspended, hupdating]; rfl) (.next (.basic (.beginUpdate rfl 0.5)) hbegin (.first ?_))
  exact passes_resumePhases rfl hlive htimed hbefore hdue

end Gathering

set_option maxRecDepth 4000 in
open Gathering in
/-- It has started both branches, the first of which has completed and the second of which was stopped.  They decide it, so
it settles when it is resumed. -/
theorem group_settles_when_resumed_stopped : ∃ e frame, Reached [.object ⟨2⟩] stopped ∧
    updating.entryAt ⟨0⟩ ⟨1, 0⟩ = some e ∧ e.frame = some frame ∧ frame.body = .group started ∧ frame.updateCount = 1 ∧
    updating.status firstHandle = .completed ∧ updating.status secondHandle = .stopped ∧
    started.isDecided updating.status = true ∧
    ∃ v', (Engine.ofBudget 8).resume ⟨0⟩ ⟨1, 0⟩ updating = (.ok (), v') ∧ v'.isFinished e.handle = true := by
  let e : FrameEntry := (updating.entryAt ⟨0⟩ ⟨1, 0⟩).get (by decide +kernel)
  let frame : Frame := e.frame.get (by decide +kernel)
  have he : updating.entryAt ⟨0⟩ ⟨1, 0⟩ = some e := (Option.some_get _).symm
  have hframe : e.frame = some frame := (Option.some_get _).symm
  have hbody : frame.body = .group started := rfl
  have hcount : frame.updateCount = 1 := by decide +kernel
  obtain ⟨-, -, -, -, -, hfirst, hsecond⟩ := looks_updating
  obtain ⟨-, -, hresumed⟩ := group_settles_when_resumed reached_stopped passes_updating he hframe hbody
  obtain ⟨hdecided, hsettles⟩ := hresumed rfl
  refine ⟨e, frame, reached_stopped, he, hframe, hbody, hcount, hfirst, hsecond, hdecided (by rw [hcount]; decide), ?_⟩
  rcases hsettles 7 with ⟨hnew, -, -⟩ | ⟨v', -, -, hends, -, -, hfinished, -, -⟩
  · exact absurd (hcount.symm.trans hnew) (by decide)
  · exact ⟨v', hends, hfinished (by rw [hcount]; decide)⟩

end MindScript
