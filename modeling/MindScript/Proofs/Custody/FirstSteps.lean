import MindScript.Proofs.Custody.Deferrals
import MindScript.Proofs.Custody.Runs
import MindScript.Proofs.Destructors.Instances

/-!
# When deferred coroutines begin

A coroutine that is started with its first step left to the next update waits in the queue of its Mind.  No call takes the
step as long as the tick of the Mind stands still, and no step of an update does.  The update takes the first steps in its
last phase, in the order in which the coroutines were registered, and goes on to those that were deferred while it runs.
-/

namespace MindScript

open Machine

variable {owned : List Link} {w w' : World} {m : MindId} {n : ℕ}

/-! ### Before the update -/

/-- As long as the tick stands where it stood, no call runs the first step of a frame in the queue. -/
theorem Reached.awaits (hw : Reached owned w) {α : Type} {f : Machine α} {gains : α → List Link} {stop : World → Bool}
    (hcall : FairCall (.pausing stop n) w owned f gains) (htick : (f w).2.tick m = w.tick m) :
    w.pending m <+: (f w).2.pending m ∧ ∀ k ∈ w.pending m, ∀ x, w.Shelved m k x → (f w).2.Shelved m k x := by
  obtain ⟨σ, hsane⟩ := hw.sane
  have hvalid := hsane.books.valid
  let τ : Setting := ⟨σ.stack.head?, 0, true, none⟩
  have hqueues : Queues τ f := hcall.host.served Queues.hosting (Engine.queues_pausing stop n).serves τ
  have hpostpones : Postpones m (w.tick m) τ f := hcall.host.served (Postpones.hospitable m (w.tick m)).toHosting
    ((Engine.satisfies_pausing (Postpones.hospitable m (w.tick m)).toCompositional stop n).serves
      (Postpones.hospitable m (w.tick m)).toComposite) τ
  have hreserves := hqueues.leads σ.stack w hvalid rfl (Nat.zero_le _) hw.deferred
  have hlengthens := hpostpones.leads σ.stack w hvalid rfl (Nat.zero_le _)
    ⟨Nat.le_refl _, fun heq ↦ absurd heq.symm (Option.some_ne_none m)⟩
  have hfront := hlengthens.pending rfl htick
  exact ⟨hfront, fun k hk x ↦ hreserves.shelved hw.deferred m k x hk (hfront.subset hk)⟩

/-! ### The turns of an update -/

/-- Where an update begins, frames may be resumed. -/
theorem Reached.rousable (hw : Reached owned w) (hidle : w.Idle m) (elapsed : Float) :
    ∃ s, (beginUpdate m elapsed w).2.Rousable s m := by
  obtain ⟨σ, hsane⟩ := hw.sane
  have hbegun : World.Sane σ owned (beginUpdate m elapsed w).2 := hsane.beginUpdate m elapsed
  have hreserves : w.Reserves (beginUpdate m elapsed w).2 :=
    .of_still (w.still_beginUpdate m elapsed) fun m' ↦ World.pending_modifyMind w m' m fun _ ↦ rfl
  exact ⟨σ.stack, ⟨hbegun.books.valid, hidle.isUpdating_beginUpdate elapsed, hreserves.deferred hw.deferred⟩,
    hreserves.untried hw.queued.2⟩

/-- The turns of an update that ends. -/
theorem Reached.turns (hw : Reached owned w) (hidle : w.Idle m) {elapsed : Float}
    (hne : (update (.ofBudget n) m elapsed w).1 ≠ .error .exhausted) :
    ∃ s turns w', (beginUpdate m elapsed w).2.Rousable s m ∧
      Machine.turns (.ofBudget n) m (beginUpdate m elapsed w).2 = (.ok turns, w') ∧
      update (.ofBudget n) m elapsed w =
        (endUpdate m >>= fun _ ↦ runDestructors (.ofBudget n) >>= fun _ ↦ pure (steps turns)) w' := by
  obtain ⟨s, hrousable⟩ := hw.rousable hidle elapsed
  obtain ⟨k, w', hphases, hupdate⟩ := phases_of_update hidle hne
  rw [resumePhases_eq] at hphases
  obtain ⟨turns, w'', hturns, hsteps⟩ := exists_of_bind_eq_ok hphases
  cases hsteps
  exact ⟨s, turns, _, hrousable, hturns, hupdate⟩

/-- Only an engine with a budget runs updates to their ends. -/
theorem Machine.exists_budget_of_turns {turns : List Turn} (h : Machine.turns (.ofBudget n) m w = (.ok turns, w')) :
    ∃ j, n = j + 1 := by
  cases n with
  | succ j => exact ⟨j, rfl⟩
  | zero =>
    obtain ⟨_, _, _, _, _, _, _, -, -, hwoken, -⟩ := exists_of_turns h
    cases hwoken

theorem FrameStatus.Moves.ne_pending {s s' : FrameStatus} (h : s.Moves s') : s' ≠ .pending := by
  cases h <;> simp

/-- Whoever has begun its first step has begun it for good. -/
theorem Journey.ne_pending {M M' : Moment} (h : Journey M M') (hvalid : M.Valid) {o : OutcomeId} {c : Outcome}
    (hc : M.world.cell? o = some c) (hne : c.status ≠ .pending) :
    ∃ c', M'.world.cell? o = some c' ∧ c'.status ≠ .pending := by
  induction h with
  | refl => exact ⟨c, hc, hne⟩
  | tail hbefore hdeed ih =>
    obtain ⟨c₁, hc₁, hne₁⟩ := ih
    obtain ⟨pumped, hdeed⟩ := hdeed
    obtain ⟨c', hc', hadvances⟩ := ((hvalid.journey hbefore).advances hdeed.act).cell o c₁ hc₁
    refine ⟨c', hc', ?_⟩
    rcases hadvances with rfl | hmoves
    · exact hne₁
    · exact hmoves.ne_pending

/-- In its turn the frame, stored under the handle, makes a step, before or with which it has begun. -/
def Turn.Runs (n : ℕ) (m : MindId) (x : Handle) (t : Turn) : Prop :=
  ∃ e frame, t.world.entryAt m t.frame = some e ∧ e.handle = x ∧ e.frame = some frame ∧
    (Engine.ofBudget (n + 1)).resume m t.frame t.world = runFrame (.ofBudget n) m t.frame e frame t.world ∧
    ((Engine.ofBudget (n + 1)).resume m t.frame t.world).2.status x ≠ .pending

/-- After a step nobody waits for its first step. -/
theorem Machine.runFrame_ne_pending {s : List FrameKey} {k : FrameId} {e : FrameEntry} {frame : Frame}
    (hvalid : Moment.Valid ⟨s, w⟩) (he : w.entryAt m k = some e) (hu : w.isFinished e.handle = false)
    (hframe : e.frame = some frame) : (runFrame (.ofBudget n) m k e frame w).2.status e.handle ≠ .pending := by
  have hserves := (Engine.tracked_ofBudget n).serves Tracked.compositional.toComposite
  obtain ⟨s', hjourney, -⟩ := journey_runFrame (σ := ⟨s.head?, 0, true, none⟩)
    (fun i frame delivered ↦ Tracked.compositional.toComposite.ofStep hserves m k i frame delivered) hvalid (Nat.zero_le _)
    he hu hframe
  have htaken := hvalid.act (.begin he hu hframe)
  obtain ⟨b, hb⟩ := htaken.sound.card_of_mem List.mem_cons_self
  obtain ⟨e', he', -, hcard⟩ := World.card_eq_some_iff.mp hb
  have hhandle : b.handle = e.handle := by
    obtain ⟨e₀, he₀, heq⟩ := (World.bookkept_takeFrame w m k e frame).entry he'
    obtain rfl := Option.some.inj (he.symm.trans he₀)
    exact (congrArg Card.handle hcard).symm.trans heq
  have hrun : b.cell.status = .running := htaken.sound.running_of_mem List.mem_cons_self hb
  obtain ⟨c', hc', hne⟩ := hjourney.ne_pending htaken (World.cell_of_card hb) (by rw [hrun]; simp)
  rw [hhandle] at hc'
  rwa [World.status_of_cell? hc']

namespace World.Rousable

variable {s : List FrameKey} {t : Turn}

/-- A frame that sleeps or waits for its first step runs when it is resumed. -/
theorem runs (h : t.world.Rousable s m) {e : FrameEntry} (he : t.world.entryAt m t.frame = some e)
    (hstatus : t.world.status e.handle = .suspended ∨ t.world.status e.handle = .pending) : t.Runs n m e.handle := by
  obtain ⟨cell, hc⟩ := h.valid.sound.filed.card he
  have hcell : cell.status = t.world.status e.handle := (status_of_card hc).symm
  have hu : cell.status.isFinished = false := by
    rw [hcell]
    rcases hstatus with heq | heq <;> rw [heq] <;> rfl
  have hframe : e.frame ≠ none := fun hnone ↦ by
    have hrun : cell.status = .running := ((h.valid.sound.fits m t.frame _ hc).framed hu hnone).1
    rw [← hcell, hrun] at hstatus
    rcases hstatus with heq | heq <;> cases heq
  obtain ⟨frame, hframe⟩ := Option.ne_none_iff_exists'.mp hframe
  have hu : t.world.isFinished e.handle = false := (isFinished_of_card hc).trans hu
  have hrun : (Engine.ofBudget (n + 1)).resume m t.frame t.world = runFrame (.ofBudget n) m t.frame e frame t.world :=
    resumeFrame_of_stored he hu hframe
  exact ⟨e, frame, he, rfl, hframe, hrun, hrun ▸ runFrame_ne_pending h.valid he hu hframe⟩

end World.Rousable

/-- What an update does with the first steps that were left to it.  The frames that were in the queue have one turn each, in
the order in which they were registered, and after them those that have come into the queue meanwhile.  A frame that has
not been stopped until its turn runs its first step in it.  All other turns resume frames that have begun. -/
structure Machine.FirstSteps (n : ℕ) (m : MindId) (w : World) (turns : List Turn) : Prop where
  queue : ∃ new, Turn.deferred turns = w.pending m ++ new ∧ ∀ k ∈ new, ¬ w.Issued m k
  once : (Turn.deferred turns).Nodup
  ordered : turns.Pairwise (Turn.Precedes m)
  resumed : ∀ t ∈ turns, t.cause = .deferral → t.resumed = true
  kept : ∀ t ∈ turns, t.cause = .deferral → t.frame ∈ w.pending m → ∀ x, w.Shelved m t.frame x →
    t.world.Shelved m t.frame x
  stored : ∀ t ∈ turns, t.cause = .deferral → ∀ e, t.world.entryAt m t.frame = some e →
    t.world.Shelved m t.frame e.handle
  begins : ∀ t ∈ turns, t.cause = .deferral → ∀ x, t.world.Shelved m t.frame x →
    t.world.status x = .stopped ∨ t.world.status x = .pending ∧ t.Runs n m x
  others : ∀ t ∈ turns, t.cause ≠ .deferral → t.resumed = true → t.Rouses m

theorem Machine.Drain.firstSteps {s : List FrameKey} {w₁ : World} {turns : List Turn} (h : Drain s m w₁ turns w')
    (hstill : w.Still w₁) (hpending : w₁.pending m = w.pending m) : FirstSteps n m w turns where
  queue := by
    obtain ⟨new, hnew, hfresh⟩ := h.queue
    exact ⟨new, hpending ▸ hnew, fun k hk hold ↦ hfresh k hk (hold.still hstill)⟩
  once := h.once
  ordered := h.ordered
  resumed t ht hcause := (h.unbegun t ht hcause).1
  kept t ht hcause hmem x hx := h.shelved t ht hcause (hpending ▸ hmem) x (by
    rwa [World.Shelved, hstill.status, hstill.entryAt])
  stored t ht hcause _ he := (h.unbegun t ht hcause).2.shelved he
  begins t ht hcause x hx := by
    refine hx.imp_right fun hwaits ↦ ?_
    obtain ⟨hstatus, e, he, rfl⟩ := hwaits
    exact ⟨hstatus, (h.valid t ht).runs he (.inr hstatus)⟩
  others := h.rouses

/-- The queues of deferred frames hold frames that wait for their first steps or have been stopped.  A coroutine that is
started with its first step left to the next update joins the queue of its Mind.  No call, wherever it may be interrupted,
runs the first step of a frame in the queue or takes the frame out of it as long as no update of the Mind has begun, that
is as long as the tick stands where it stood; that goes also for calls from a step of a running update.  An update that
ends empties the queue, also of the frames that were deferred while it ran. -/
theorem first_steps_wait (hw : Reached owned w) (m : MindId) :
    (∀ k ∈ w.pending m, ∀ e, w.entryAt m k = some e → w.Shelved m k e.handle) ∧
    (∀ n target member args x w', startBody (.ofBudget n) target member args m true w = (.ok (.ok x), w') →
      ¬ w.Issued m x.frame ∧ x.frame ∈ w'.pending m ∧ w'.Shelved m x.frame x) ∧
    (∀ {α : Type} {f : Machine α} {gains : α → List Link} stop n, FairCall (.pausing stop n) w owned f gains →
      (f w).2.tick m = w.tick m →
        w.pending m <+: (f w).2.pending m ∧ ∀ k ∈ w.pending m, ∀ x, w.Shelved m k x → (f w).2.Shelved m k x) ∧
    (w.Idle m → ∀ n elapsed, (update (.ofBudget n) m elapsed w).1 ≠ .error .exhausted →
      ∃ j turns w', n = j + 1 ∧ Machine.turns (.ofBudget n) m (beginUpdate m elapsed w).2 = (.ok turns, w') ∧
        update (.ofBudget n) m elapsed w =
          (endUpdate m >>= fun _ ↦ runDestructors (.ofBudget n) >>= fun _ ↦ pure (steps turns)) w' ∧
        w'.pending m = [] ∧ FirstSteps j m w turns) := by
  refine ⟨fun k hk e he ↦ World.Unbegun.shelved (hw.queued.2 m k hk) he, fun n target member args x w' hrun ↦ ?_,
    fun stop n hcall htick ↦ hw.awaits hcall htick, fun hidle n elapsed hne ↦ ?_⟩
  · obtain ⟨σ, hsane⟩ := hw.sane
    have hstarts : Starts ⟨σ.stack.head?, 0, true, none⟩ σ.stack w := ⟨hsane.books.valid, rfl, Nat.zero_le _, hw.deferred⟩
    exact hstarts.startBody hrun
  · obtain ⟨s, turns, w', hrousable, hturns, hupdate⟩ := hw.turns hidle hne
    obtain ⟨j, rfl⟩ := exists_budget_of_turns hturns
    have hdrain := Drain.of_turns hrousable hturns
    have hpending : (beginUpdate m elapsed w).2.pending m = w.pending m := World.pending_modifyMind w m m fun _ ↦ rfl
    exact ⟨j, turns, w', rfl, hturns, hupdate, hdrain.empty, hdrain.firstSteps (w.still_beginUpdate m elapsed) hpending⟩

/-- The host has started a coroutine that waits for an event and has left its first step to the next update. -/
def World.deferring : World := (foundStart true World.found).2

theorem World.looks_deferring : World.deferring.pending ⟨0⟩ = [⟨0, 0⟩] ∧
    ((World.deferring.mind? ⟨0⟩).any fun mind ↦ !mind.suspended && !mind.updating) = true ∧
    (update (.ofBudget 3) ⟨0⟩ 0.5 World.deferring).1.toOption.isSome = true := by
  decide +kernel

theorem World.idle_deferring : World.deferring.Idle ⟨0⟩ := World.idle_of_any World.looks_deferring.2.1

theorem Machine.update_deferring : (update (.ofBudget 3) ⟨0⟩ 0.5 World.deferring).1 ≠ .error .exhausted :=
  ne_exhausted_of_isSome World.looks_deferring.2.2

/-- The coroutine is in the queue, and the next update runs its first step. -/
theorem first_steps_wait_deferring : ∃ owned turns w', Reached owned World.deferring ∧
    World.deferring.pending ⟨0⟩ = [⟨0, 0⟩] ∧ World.deferring.Idle ⟨0⟩ ∧
    (update (.ofBudget 3) ⟨0⟩ 0.5 World.deferring).1 ≠ .error .exhausted ∧
    Machine.turns (.ofBudget 3) ⟨0⟩ (beginUpdate ⟨0⟩ 0.5 World.deferring).2 = (.ok turns, w') ∧
    w'.pending ⟨0⟩ = [] ∧ FirstSteps 2 ⟨0⟩ World.deferring turns := by
  obtain ⟨owned, hdeferring⟩ := Reached.started true
  obtain ⟨-, -, -, hupdate⟩ := first_steps_wait hdeferring ⟨0⟩
  obtain ⟨j, turns, w', hj, hturns, -, hempty, hfirst⟩ := hupdate World.idle_deferring 3 0.5 update_deferring
  obtain rfl : 2 = j := Nat.succ.inj hj
  exact ⟨owned, turns, w', hdeferring, World.looks_deferring.1, World.idle_deferring, update_deferring, hturns, hempty, hfirst⟩

/-! ### A coroutine that is started in an update

What a search has found is remembered in a hash table, which does not reduce.  So the two calls that search are replaced by
what they come to, and everything else is evaluated. -/

/-- A coroutine starts another one, leaves its first step to the next update, and is done. -/
def relayProgram : Program Poll :=
  .request (.literal (.symbol "ping")) fun r ↦
    .request (.startCoroutine 0 "_wait_event" [r] ⟨0⟩ true) fun _ ↦ .done (.ok (.ready 0))

def relay : MemberDecl := .nativeCoroutine "relay" [] (.host fun _ ↦ relayProgram)

def relayMember : Member := .ofDecl relay Core.object

/-- The classes of a new interpreter, where the root has that coroutine as well. -/
def coreAndRelay : Registry := (CoreClass.all.foldl Registry.adding {}).storeMember Core.object relay

set_option maxRecDepth 100000 in
theorem search_relay : coreAndRelay.search ⟨1⟩ "relay" = some relayMember := by
  with_unfolding_all rfl

set_option maxRecDepth 100000 in
theorem search_relay_waitEvent : coreAndRelay.search ⟨1⟩ "_wait_event" = some waitEvent := by
  with_unfolding_all rfl

theorem size_relay : coreAndRelay.size = 11 := (Registry.size_storeMember _ _ _).trans CoreClass.plain_foldl.1

/-- A host has added the coroutine to the root. -/
def World.relaying : World :=
  { World.new {} with classes := (Registry.define Core.object relay (World.new {}).classes).2 }

theorem Reached.relaying : coreAndRelay.Remembers World.relaying.classes ∧ Reached [] World.relaying := by
  let core := CoreClass.all.foldl Registry.adding {}
  have hlooks : core.Admits (core.supertypes Core.object) (core.nameOf Core.object) relay ∧
      (Member.lookup (core.ownMembers Core.object) relay.name).isNone = true := by decide +kernel
  obtain ⟨hadmits, hlookup⟩ := hlooks
  have hreplace : core.checkReplace Core.object relay = .ok () := by
    rw [Registry.checkReplace, Option.isNone_iff_eq_none.mp hlookup]
  have hdecent : relay.body.Decent (·.index < (World.new {}).classes.size) :=
    fun _ ↦ ⟨trivial, fun _ _ ↦ ⟨trivial, fun _ _ ↦ contained_ok _⟩⟩
  obtain ⟨classes, hdefine, hremembers⟩ :=
    Registry.define_of_admits (World.classes_new {} ▸ CoreClass.registry_remembers) (CoreClass.lt_size (by decide)) hadmits
      hreplace
  have hclasses : World.relaying.classes = classes := congrArg Prod.snd hdefine
  have hstored : defineMember Core.object relay (World.new {}) = (.ok (), World.relaying) :=
    onClasses_of_ok (hdefine.trans (by rw [hdefine]))
  exact ⟨hclasses ▸ hremembers, (Reached.start {}).returns 0 (.defineMember Core.object hdecent) hstored⟩

/-- The host has found it. -/
def World.relayFound : World :=
  { World.relaying with classes := (World.relaying.classes.find ⟨1⟩ "relay").2 }

/-- The host has started it, with its first step left to the next update. -/
def World.relayed : World := (startFrom (.ofBudget 0) .nil relayMember [] ⟨0⟩ true .relayFound).2

theorem Reached.relayed : coreAndRelay.Remembers World.relayed.classes ∧ ∃ owned, Reached owned World.relayed := by
  obtain ⟨hremembers, hrelaying⟩ := Reached.relaying
  have hfound : coreAndRelay.Remembers World.relayFound.classes := hremembers.find (size_relay ▸ by decide) "relay"
  have hshare : shareArgs [] World.relaying = (.ok [], World.relaying) := rfl
  have hc : World.relaying.heap.classOf .nil = ⟨1⟩ := rfl
  have hends : (startFrom (.ofBudget 0) .nil relayMember [] ⟨0⟩ true .relayFound).1.toOption.isSome = true := by
    decide +kernel
  have hclasses : World.relayed.classes = World.relayFound.classes := rfl
  exact ⟨hclasses ▸ hfound, hrelaying.hostStarts (.inl rfl) (fun r hr ↦ by cases hr) hshare hremembers hc
    (size_relay ▸ by decide) search_relay hends⟩

def World.relayBegun : World := (beginUpdate ⟨0⟩ 0.5 .relayed).2

/-- The next update has come to the first step. -/
def World.relayTurn : World := (popPending ⟨0⟩ .relayBegun).2

def relayEntry : FrameEntry := (World.relayTurn.entryAt ⟨0⟩ ⟨0, 0⟩).get (by decide +kernel)

def relayFrame : Frame := relayEntry.frame.get (by decide +kernel)

/-- In the step. -/
def World.relayStep : World :=
  let w := World.relayTurn.takeFrame ⟨0⟩ ⟨0, 0⟩ relayEntry relayFrame
  let i : Invocation := ⟨w.classes.nameOf relayEntry.owner, relayEntry.handle.name⟩
  { w with callStack := { w.callStack with invocations := w.callStack.invocations.push i } }

/-- The coroutine has made the name of the event. -/
def World.relayNamed : World := (literal (.symbol "ping") .relayStep).2

/-- It has started the other one. -/
def World.relayStarted : World :=
  let w := World.relayNamed.retain (.object ⟨1⟩)
  let start := startFrom (.ofBudget 3) .nil waitEvent [(none, ⟨1⟩)] ⟨0⟩ true >>= finishHostCall (.ofBudget 3)
  ((start >>= fun h ↦ handleValue h >>= fun value ↦ releaseLinks [.outcome h.outcome] >>= fun _ ↦ pure value)
    { w with classes := (w.classes.find ⟨1⟩ "_wait_event").2 }).2

theorem startValue_relay :
    startValue (.ofBudget 3) .nil waitEvent.name [⟨1⟩] ⟨0⟩ true .relayNamed = (.ok ⟨2⟩, .relayStarted) := by
  have hremembers : coreAndRelay.Remembers (World.relayNamed.retain (.object ⟨1⟩)).classes := Reached.relayed.1
  have hshare : shareArgs [⟨1⟩] World.relayNamed = (.ok [(none, ⟨1⟩)], World.relayNamed.retain (.object ⟨1⟩)) := rfl
  have hc : (World.relayNamed.retain (.object ⟨1⟩)).heap.classOf .nil = ⟨1⟩ := rfl
  exact (startValue_of_search _ ⟨0⟩ true hshare hremembers hc (size_relay ▸ by decide) search_relay_waitEvent).trans
    (Prod.ext rfl rfl)

theorem runProgram_relay : runProgram (.ofBudget 3) relayProgram { registers := #[.nil] } .relayStep =
    (.ok (.ok (.ready 0), { registers := #[.nil, ⟨1⟩, ⟨2⟩] }), .relayStarted) := by
  have hnamed : perform (.ofBudget 3) { registers := #[.nil] } (.literal (.symbol "ping")) .relayStep =
      (.ok ((1 : Reg), { registers := #[.nil, ⟨1⟩] }), .relayNamed) := rfl
  have hstarted : perform (.ofBudget 3) { registers := #[.nil, ⟨1⟩] } (.startCoroutine 0 "_wait_event" [1] ⟨0⟩ true)
      .relayNamed = (.ok (.ok 2, { registers := #[.nil, ⟨1⟩, ⟨2⟩] }), .relayStarted) :=
    bind_of_ok (attempt_of_ok startValue_relay)
  exact (bind_of_ok hnamed).trans (bind_of_ok hstarted)

/-- The step is done. -/
def World.relayDone : World :=
  let w := (World.relayStarted.retain (.object .nil)).release [.object ⟨2⟩, .object ⟨1⟩]
  { w with callStack := w.callStack.pop }

theorem stepInvocation_relay : stepInvocation (.ofBudget 3) ⟨0⟩ ⟨0, 0⟩
    ⟨World.relayTurn.classes.nameOf relayEntry.owner, relayEntry.handle.name⟩ relayFrame relayEntry.delivered
    (World.relayTurn.takeFrame ⟨0⟩ ⟨0, 0⟩ relayEntry relayFrame) =
      (.ok (relayFrame.body, .ok (.done .nil), []), .relayDone) := by
  have hpolled (info : PollInfo) : pollNative (.ofBudget 3) (.host fun _ ↦ relayProgram) info .nil [] none none
      .relayStep = (.ok (.ok (.done .nil), none),
        (World.relayStarted.retain (.object .nil)).release [.object ⟨2⟩, .object ⟨1⟩]) :=
    bind_of_ok runProgram_relay
  have hframe : relayFrame.body = .native (.host fun _ ↦ relayProgram) [] none := rfl
  have hthis : World.relayStep.context.this = .nil := rfl
  have hbody : stepBody (.ofBudget 3) ⟨0⟩ ⟨0, 0⟩ relayFrame none .relayStep = (.ok (relayFrame.body, .ok (.done .nil)),
      (World.relayStarted.retain (.object .nil)).release [.object ⟨2⟩, .object ⟨1⟩]) := by
    rw [stepBody, hframe]
    dsimp only
    rw [get_bind, hthis]
    exact bind_of_ok (hpolled _)
  have hpushed : (World.relayTurn.takeFrame ⟨0⟩ ⟨0, 0⟩ relayEntry relayFrame).callStack.push
      ⟨World.relayTurn.classes.nameOf relayEntry.owner, relayEntry.handle.name⟩ = .ok World.relayStep.callStack := rfl
  have hdelivered : relayEntry.delivered = none := rfl
  rw [hdelivered]
  exact stepInvocation_of_stepBody hpushed hbody

/-- The update goes on. -/
def World.relayPast : World :=
  ((World.relayDone.enter World.relayTurn.context World.relayTurn.current).returnFrame ⟨0⟩ ⟨0, 0⟩
    { relayFrame with context := World.relayDone.context, updateCount := relayFrame.updateCount + 1 }
    (.ok (.done .nil))).release []

theorem resume_relay : (Engine.ofBudget 4).resume ⟨0⟩ ⟨0, 0⟩ .relayTurn = (.ok (), .relayPast) := by
  have he : World.relayTurn.entryAt ⟨0⟩ ⟨0, 0⟩ = some relayEntry := rfl
  have hu : World.relayTurn.isFinished relayEntry.handle = false := rfl
  have hframe : relayEntry.frame = some relayFrame := rfl
  exact (resumeFrame_of_stored he hu hframe).trans (runFrame_of_ok rfl stepInvocation_relay)

theorem pendingTurns_relay : pendingTurns (.ofBudget 4) ⟨0⟩ 3 .relayBegun =
    (readyTurns (.ofBudget 4) ⟨0⟩ 3 >>= fun woken ↦ pendingTurns (.ofBudget 4) ⟨0⟩ 2 >>= fun later ↦
      pure (⟨.deferral, ⟨0, 0⟩, .relayTurn, true⟩ :: (woken ++ later))) .relayPast := by
  have hpopped : popPending ⟨0⟩ .relayBegun = (.ok (some ⟨0, 0⟩), .relayTurn) := rfl
  have hbudget : (Engine.ofBudget 4).budget = 3 := rfl
  rw [pendingTurns, bind_of_ok hpopped]
  dsimp only
  rw [get_bind, bind_of_ok resume_relay, hbudget]

theorem turns_relay : Machine.turns (.ofBudget 4) ⟨0⟩ .relayBegun =
    (pendingTurns (.ofBudget 4) ⟨0⟩ 3 >>= fun started ↦
      pure (⟨.clock, ⟨0, 0⟩, .relayBegun, false⟩ :: ⟨.poll, ⟨0, 0⟩, .relayBegun, false⟩ :: started)) .relayBegun := by
  have htimed : dueTurns (.ofBudget 4) ⟨0⟩ .clock (fun w id ↦ w.timeWakeDue ⟨0⟩ id) (World.relayBegun.live ⟨0⟩)
      .relayBegun = (.ok [⟨.clock, ⟨0, 0⟩, .relayBegun, false⟩], .relayBegun) := rfl
  have hpolled : dueTurns (.ofBudget 4) ⟨0⟩ .poll (fun w id ↦ w.conditionHolds ⟨0⟩ id) (World.relayBegun.live ⟨0⟩)
      .relayBegun = (.ok [⟨.poll, ⟨0, 0⟩, .relayBegun, false⟩], .relayBegun) := rfl
  have hwoken : readyTurns (.ofBudget 4) ⟨0⟩ 3 .relayBegun = (.ok [], .relayBegun) := rfl
  have hbudget : (Engine.ofBudget 4).budget = 3 := rfl
  rw [Machine.turns, get_bind, hbudget, bind_of_ok htimed, bind_of_ok hpolled, bind_of_ok hwoken]
  rfl

/-- The update runs the first step of a coroutine that was started in it, although no other update has begun. -/
theorem not_every_first_step_waits : ∃ owned turns w', Reached owned World.relayed ∧ World.relayed.Idle ⟨0⟩ ∧
    (update (.ofBudget 4) ⟨0⟩ 0.5 World.relayed).1 ≠ .error .exhausted ∧
    Machine.turns (.ofBudget 4) ⟨0⟩ (beginUpdate ⟨0⟩ 0.5 World.relayed).2 = (.ok turns, w') ∧
    ∃ t ∈ turns, ¬ World.relayed.Issued ⟨0⟩ t.frame ∧ ∃ x, t.world.status x = .pending ∧ t.Runs 3 ⟨0⟩ x := by
  obtain ⟨-, owned, hrelayed⟩ := Reached.relayed
  have hidle : World.relayed.Idle ⟨0⟩ := World.idle_of_any (by decide +kernel)
  have hpending : World.relayed.pending ⟨0⟩ = [⟨0, 0⟩] := by decide +kernel
  have hrun : Machine.turns (.ofBudget 4) ⟨0⟩ (beginUpdate ⟨0⟩ 0.5 World.relayed).2 = _ :=
    turns_relay.trans (bind_of_eq pendingTurns_relay)
  have hends : (update (.ofBudget 4) ⟨0⟩ 0.5 World.relayed).1.toOption.isSome = true := by
    rw [update_of_idle _ hidle, resumePhases_eq, bind_of_eq (bind_of_eq hrun)]
    decide +kernel
  have hlater : ((Machine.turns (.ofBudget 4) ⟨0⟩ (beginUpdate ⟨0⟩ 0.5 World.relayed).2).1.toOption.any fun turns ↦
      turns.any fun t ↦ t.cause == .deferral && t.frame == ⟨1, 0⟩ && (t.world.entryAt ⟨0⟩ t.frame).any fun e ↦
        t.world.status e.handle == .pending) = true := by
    rw [hrun]
    decide +kernel
  obtain ⟨turns, w', hturns, hlater⟩ := exists_of_any hlater
  obtain ⟨s, hrousable⟩ := hrelayed.rousable hidle 0.5
  have hfirst : FirstSteps 3 ⟨0⟩ World.relayed turns :=
    (Drain.of_turns hrousable hturns).firstSteps (World.relayed.still_beginUpdate ⟨0⟩ 0.5)
      (World.pending_modifyMind _ ⟨0⟩ ⟨0⟩ fun _ ↦ rfl)
  obtain ⟨t, ht, hlooks⟩ := List.any_eq_true.mp hlater
  simp only [Bool.and_eq_true, beq_iff_eq, Option.any_eq_true] at hlooks
  obtain ⟨⟨hcause, hframe⟩, e, he, hstatus⟩ := hlooks
  refine ⟨owned, turns, w', hrelayed, hidle, ne_exhausted_of_isSome hends, hturns, t, ht, ?_, e.handle, hstatus, ?_⟩
  · obtain ⟨new, hnew, hfresh⟩ := hfirst.queue
    have hmem : t.frame ∈ Turn.deferred turns := List.mem_map.mpr ⟨t, by simp [ht, hcause], rfl⟩
    rw [hnew, hpending, hframe] at hmem
    exact hfresh t.frame (by simpa [hframe] using hmem)
  · have hshelved := hfirst.stored t ht hcause e he
    exact ((hfirst.begins t ht hcause e.handle hshelved).resolve_left (by simp [hstatus])).2

end MindScript
