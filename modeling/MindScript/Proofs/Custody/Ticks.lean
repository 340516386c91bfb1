import MindScript.Proofs.Custody.Restored
import MindScript.Proofs.Custody.Resumptions
import MindScript.Proofs.Custody.Wakeups
import MindScript.Proofs.Wakeups.Rounds

/-!
# Which frames wake by the clock

An update that has begun gives each frame of its Mind one turn by the clock, in the order in which they were registered.
Frames that are due then are resumed in their turns unless they have settled before, and no other frame that sleeps until
a time comes is resumed, be it in another turn or within a step.
-/

namespace MindScript

open Machine

variable {owned : List Link} {w : World} {m : MindId}

/-- The frames of a Mind are listed in the order in which they were registered. -/
theorem World.Lived.live_eq (h : w.Lived) {mind : Mind} (hmind : w.mind? m = some mind) :
    ∃ l, Mind.Life l mind ∧ w.live m = l.present := by
  obtain ⟨l, hl⟩ := h m mind hmind
  refine ⟨l, hl, ?_⟩
  rw [World.live, hmind]
  exact hl.records_live.2

/-- What sleeps when an update begins has slept since an earlier tick. -/
theorem World.Slept.beginUpdate (h : w.Slept) {mind : Mind} (hmind : w.mind? m = some mind) (elapsed : Float) {k : FrameId}
    {e : FrameEntry} (he : (beginUpdate m elapsed w).2.entryAt m k = some e) (hwake : e.wake.isSome = true) :
    e.suspendedTick < (Machine.beginUpdate m elapsed w).2.tick m := by
  rw [(w.still_beginUpdate m elapsed).entryAt] at he
  refine Nat.lt_of_le_of_lt (h.tick m k e he hwake) ?_
  simp [Machine.beginUpdate, modify_apply, World.tick, World.mind?_modifyMind, hmind]

/-- Within a step of a frame of a Mind that is being updated, no frame of this Mind that sleeps until a time comes is
resumed. -/
theorem World.Pumped.untimed {s : List FrameKey} (h : w.Pumped s m) {n : ℕ} {α : Type} {f : Machine α} {k : FrameId}
    {v : World} (hpasses : Passes n w.setting f w (some (m, k)) v) : ¬ v.Timed m k := by
  rintro ⟨e, he, htimed⟩
  have hstarts : Starts w.setting s w := ⟨h.valid, h.valid.current.symm, Nat.le_refl _, h.deferred⟩
  rcases hpasses.satisfies passing_ripe s hstarts m k rfl e he with hawake | ⟨-, hpumping⟩
  · rcases htimed with hwake | ⟨t, hwake⟩
    · cases hawake.symm.trans hwake
    · cases hawake.symm.trans hwake
  · cases hpumping h.updating

/-- The turns of an update, when its clock and its tick have been advanced: each frame of the Mind has one turn by the
clock, in the order in which the frames were registered, and it is resumed in this turn just if it was due at the beginning
and has not been settled since.  In all other turns, and within the steps of all turns, only frames are resumed that do not
sleep until a time comes.  Destructors run after the update has ended; an update that one of them calls for is another
one. -/
theorem update_resumes_due (hw : Reached owned w) (hidle : w.Idle m) {n : ℕ} {elapsed : Float}
    (hne : (update (.ofBudget n) m elapsed w).1 ≠ .error .exhausted) :
    ∃ w₁ turns w', w₁ = (beginUpdate m elapsed w).2 ∧ Machine.turns (.ofBudget n) m w₁ = (.ok turns, w') ∧
      update (.ofBudget n) m elapsed w =
        (endUpdate m >>= fun _ ↦ runDestructors (.ofBudget n) >>= fun _ ↦ pure (steps turns)) w' ∧
      Turn.clocked turns = w₁.live m ∧ (w₁.live m).Nodup ∧
      (∃ mind l, w₁.mind? m = some mind ∧ Mind.Life l mind ∧ w₁.live m = l.present) ∧
      (∀ f e, w₁.entryAt m f = some e → w₁.Due m e → f ∈ w₁.live m) ∧
      (∀ t ∈ turns, t.cause = .clock →
        (t.resumed = true ↔ ∃ e, w₁.entryAt m t.frame = some e ∧ w₁.Due m e ∧ t.world.isFinished e.handle = false)) ∧
      (∀ t ∈ turns, t.cause ≠ .clock → t.resumed = true → ¬ t.world.Timed m t.frame) ∧
      ∀ t ∈ turns, ∀ k v, Passes n t.world.setting ((Engine.ofBudget n).resume m t.frame) t.world (some (m, k)) v →
        ¬ v.Timed m k := by
  obtain ⟨σ, hsane⟩ := hw.sane
  obtain ⟨k, w', hphases, hupdate⟩ := phases_of_update hidle hne
  obtain ⟨mind, hmind, hmind₁⟩ := hidle.mind?_beginUpdate elapsed
  have hbegun : World.Sane σ owned (beginUpdate m elapsed w).2 := hsane.beginUpdate m elapsed
  have hpending : ∀ m', (beginUpdate m elapsed w).2.pending m' = w.pending m' := fun m' ↦
    World.pending_modifyMind w m' m fun _ ↦ rfl
  have hreserves : w.Reserves (beginUpdate m elapsed w).2 := .of_still (w.still_beginUpdate m elapsed) hpending
  have hslept : ∀ k e, (beginUpdate m elapsed w).2.entryAt m k = some e → e.wake.isSome = true →
      e.suspendedTick < (beginUpdate m elapsed w).2.tick m := fun k e he hwake ↦ hw.slept.beginUpdate hmind elapsed he hwake
  have hpumped : (beginUpdate m elapsed w).2.Pumped σ.stack m :=
    ⟨hbegun.books.valid, hidle.isUpdating_beginUpdate elapsed, hreserves.deferred hw.deferred⟩
  obtain ⟨l, hl, hlive⟩ := ((World.deed_beginUpdate σ.stack w m elapsed).lived hw.lived).live_eq hmind₁
  have honce : ((beginUpdate m elapsed w).2.live m).Nodup := hbegun.books.listed.once m
  rw [resumePhases_eq] at hphases
  obtain ⟨turns, w'', hturns, hsteps⟩ := exists_of_bind_eq_ok hphases
  cases hsteps
  obtain ⟨-, hclocked, hsound⟩ :=
    hpumped.turns (Engine.hushes_ofBudget m n) (Engine.queues_ofBudget n) hslept honce hturns
  refine ⟨_, turns, _, rfl, hturns, hupdate, hclocked, honce, ⟨_, l, hmind₁, hl, hlive⟩, fun f e he _ ↦ ?_,
    fun t ht ↦ (hsound t ht).2, fun t ht ↦ (hsound t ht).1.untimed, fun t ht k v ↦ (hsound t ht).1.pumped.untimed⟩
  exact (hbegun.books.listed.mem m f).mpr (by rw [he]; rfl)

/-! ### Two coroutines that sleep until a time comes -/

/-- The coroutine that completes when some seconds have passed. -/
def waitSeconds : Member := ⟨"_wait", ⟨0⟩, .coroutine, .coroutine ["seconds"] (.core .wait)⟩

set_option maxRecDepth 100000 in
theorem search_waitSeconds : (CoreClass.all.foldl Registry.adding {}).search ⟨1⟩ "_wait" = some waitSeconds := by
  with_unfolding_all rfl

/-- A host has made a number, which this reference stands for, and has found the coroutine. -/
def World.timing (w : World) (seconds : Float) (number : Ref) : World :=
  let w := ((literal (.real seconds) w).2).retain (.object number)
  { w with classes := (w.classes.find ⟨1⟩ "_wait").2 }

def startWait (number : Ref) : Machine (Except EvalError Handle) :=
  startFrom (.ofBudget 2) .nil waitSeconds [(none, number)] ⟨0⟩ false

theorem Reached.wait (h : Reached owned w) (hr : (CoreClass.all.foldl Registry.adding {}).Remembers w.classes)
    {seconds : Float} {number : Ref} (hmade : (literal (.real seconds) w).1.toOption = some number)
    (hroot : (w.timing seconds number).heap.classOf .nil = ⟨1⟩)
    (hends : (startWait number (w.timing seconds number)).1.toOption.isSome = true) :
    ∃ owned', Reached owned' (startWait number (w.timing seconds number)).2 := by
  have hliteral := eq_ok_of_toOption hmade
  have hnamed : Reached (.object number :: owned) (literal (.real seconds) w).2 := by
    have hcall : FairCall (.ofBudget 0) w owned (literal (.real seconds)) fun r ↦ .object r :: owned := .literal _
    have hreturns := h.returns 0 hcall hliteral
    exact hreturns
  have hshare : shareArgs [number] (literal (.real seconds) w).2 =
      (.ok [(none, number)], (literal (.real seconds) w).2.retain (.object number)) := rfl
  exact hnamed.hostStarts (.inl rfl) (fun r hr ↦ .inr (by simp [List.mem_singleton.mp hr])) hshare hr hroot
    (CoreClass.lt_size (by decide)) search_waitSeconds hends

/-- The first one sleeps for half a second. -/
def World.napping : World := (startWait ⟨1⟩ ((World.new {}).timing 0.5 ⟨1⟩)).2

/-- The second one sleeps for five seconds. -/
def World.sleeping : World := (startWait ⟨2⟩ (World.napping.timing 5 ⟨2⟩)).2

theorem Reached.sleeping : ∃ owned, Reached owned World.sleeping := by
  have hr : (CoreClass.all.foldl Registry.adding {}).Remembers (World.new {}).classes :=
    World.classes_new {} ▸ CoreClass.registry_remembers
  have hmade : (literal (.real 0.5) (World.new {})).1.toOption = some ⟨1⟩ := rfl
  have hlooks : (startWait ⟨1⟩ ((World.new {}).timing 0.5 ⟨1⟩)).1.toOption.isSome = true ∧
      (literal (.real 5) World.napping).1.toOption = some ⟨2⟩ ∧ (World.napping.timing 5 ⟨2⟩).heap.classOf .nil = ⟨1⟩ ∧
      (startWait ⟨2⟩ (World.napping.timing 5 ⟨2⟩)).1.toOption.isSome = true := by
    decide +kernel
  obtain ⟨hends, hmade', hroot, hends'⟩ := hlooks
  have hclasses : World.napping.classes = ((World.new {}).timing 0.5 ⟨1⟩).classes := rfl
  obtain ⟨owned, hnapping⟩ := (Reached.start {}).wait hr hmade rfl hends
  exact hnapping.wait (hclasses ▸ hr.find (CoreClass.lt_size (by decide)) "_wait") hmade' hroot hends'

/-- An update by half a second comes to its end and settles nobody before the turn by the clock. -/
theorem World.looks_sleeping :
    ((World.sleeping.mind? ⟨0⟩).any fun mind ↦ !mind.suspended && !mind.updating) = true ∧
    (beginUpdate ⟨0⟩ 0.5 World.sleeping).2.live ⟨0⟩ = [⟨0, 0⟩, ⟨1, 0⟩] ∧
    (beginUpdate ⟨0⟩ 0.5 World.sleeping).2.timeWakeDue ⟨0⟩ ⟨0, 0⟩ = true ∧
    (beginUpdate ⟨0⟩ 0.5 World.sleeping).2.timeWakeDue ⟨0⟩ ⟨1, 0⟩ = false ∧
    (((beginUpdate ⟨0⟩ 0.5 World.sleeping).2.entryAt ⟨0⟩ ⟨1, 0⟩).all fun e ↦
      e.suspendedTick < (beginUpdate ⟨0⟩ 0.5 World.sleeping).2.tick ⟨0⟩) = true ∧
    (update (.ofBudget 2) ⟨0⟩ 0.5 World.sleeping).1.toOption.isSome = true ∧
    ((Machine.turns (.ofBudget 2) ⟨0⟩ (beginUpdate ⟨0⟩ 0.5 World.sleeping).2).1.toOption.all fun turns ↦
      turns.all fun t ↦ t.cause != .clock || ((beginUpdate ⟨0⟩ 0.5 World.sleeping).2.entryAt ⟨0⟩ t.frame).all fun e ↦
        !t.world.isFinished e.handle) = true := by
  decide +kernel

/-- Half a second later the first one is due and the second one is not. -/
theorem World.due_sleeping : ∃ e, (beginUpdate ⟨0⟩ 0.5 World.sleeping).2.entryAt ⟨0⟩ ⟨0, 0⟩ = some e ∧
    (beginUpdate ⟨0⟩ 0.5 World.sleeping).2.Due ⟨0⟩ e := by
  obtain ⟨-, -, hdue, -⟩ := World.looks_sleeping
  obtain ⟨e, he, hdue, -⟩ := World.timeWakeDue_iff.mp hdue
  exact ⟨e, he, hdue⟩

theorem World.not_due_sleeping {e : FrameEntry}
    (he : (beginUpdate ⟨0⟩ 0.5 World.sleeping).2.entryAt ⟨0⟩ ⟨1, 0⟩ = some e) :
    ¬ (beginUpdate ⟨0⟩ 0.5 World.sleeping).2.Due ⟨0⟩ e := by
  obtain ⟨-, -, -, hdue, hslept, -⟩ := World.looks_sleeping
  rw [he] at hslept
  exact fun h ↦ Bool.eq_false_iff.mp hdue (World.timeWakeDue_iff.mpr ⟨e, he, h, of_decide_eq_true hslept⟩)

/-- An update by half a second gives both of them a turn and resumes the one that is due. -/
theorem update_resumes_due_sleeping : ∃ owned turns w', Reached owned World.sleeping ∧ World.sleeping.Idle ⟨0⟩ ∧
    (update (.ofBudget 2) ⟨0⟩ 0.5 World.sleeping).1 ≠ .error .exhausted ∧
    Machine.turns (.ofBudget 2) ⟨0⟩ (beginUpdate ⟨0⟩ 0.5 World.sleeping).2 = (.ok turns, w') ∧
    Turn.clocked turns = [⟨0, 0⟩, ⟨1, 0⟩] ∧
    ∀ t ∈ turns, t.cause = .clock → (t.resumed = true ↔ t.frame = ⟨0, 0⟩) := by
  obtain ⟨owned, hsleeping⟩ := Reached.sleeping
  obtain ⟨hpresent, hlive, -, -, -, hends, hopen⟩ := World.looks_sleeping
  have hidle : World.sleeping.Idle ⟨0⟩ := World.idle_of_any hpresent
  have hne := ne_exhausted_of_isSome hends
  obtain ⟨_, turns, w', rfl, hturns, -, hclocked, -, -, -, hclock, -⟩ := update_resumes_due hsleeping hidle hne
  refine ⟨owned, turns, w', hsleeping, hidle, hne, hturns, hclocked.trans hlive, fun t ht hcause ↦ ?_⟩
  have hmem : t.frame ∈ Turn.clocked turns :=
    List.mem_map.mpr ⟨t, List.mem_filter.mpr ⟨ht, by simpa using hcause⟩, rfl⟩
  rw [hclocked, hlive, List.mem_pair] at hmem
  rw [hclock t ht hcause]
  constructor
  · rintro ⟨e, he, hdue, -⟩
    refine hmem.resolve_right fun hframe ↦ ?_
    rw [hframe] at he
    exact World.not_due_sleeping he hdue
  · intro hframe
    obtain ⟨e, he, hdue⟩ := World.due_sleeping
    refine ⟨e, by rwa [hframe], hdue, ?_⟩
    rw [hturns] at hopen
    have hunsettled := List.all_eq_true.mp hopen t ht
    rw [hframe, he, hcause] at hunsettled
    simpa using hunsettled

end MindScript
