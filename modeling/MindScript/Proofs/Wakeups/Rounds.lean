import MindScript.Proofs.Wakeups.Deferred
import MindScript.Proofs.Wakeups.Quiet

/-!
# The turns by the clock

In each update, every frame of the list has one turn by the clock: it is resumed there just if it was due when the update
began and has not settled since.  What is known of the world at each turn comes from what the turns before it have left
as it was.
-/

namespace MindScript

open Machine

/-! ### Frames that sleep until a time comes -/

/-- The frame sleeps until a time comes, or the next tick. -/
def FrameEntry.IsTimed (e : FrameEntry) : Prop := e.wake = some .tick ∨ ∃ t, e.wake = some (.atTime t)

namespace World

/-- The stored frame sleeps until a time comes, or the next tick. -/
def Timed (w : World) (m : MindId) (k : FrameId) : Prop := ∃ e, w.entryAt m k = some e ∧ e.IsTimed

/-- The frame sleeps, its update interval has elapsed, and the time that it sleeps until has come. -/
structure Due (w : World) (m : MindId) (e : FrameEntry) : Prop where
  suspended : w.status e.handle = .suspended
  interval : ¬ w.clock m < e.nextUpdate
  time : e.wake = some .tick ∨ ∃ t, e.wake = some (.atTime t) ∧ w.clock m ≥ t

variable {v w w' : World} {m : MindId} {k id : FrameId} {e e' : FrameEntry} {s : List FrameKey}

theorem Due.isTimed (h : w.Due m e) : e.IsTimed := h.time.imp_right fun ⟨t, ht, _⟩ ↦ ⟨t, ht⟩

theorem timeWakeDue_iff : w.timeWakeDue m k = true ↔
    ∃ e, w.entryAt m k = some e ∧ w.Due m e ∧ e.suspendedTick < w.tick m := by
  unfold timeWakeDue
  cases hmind : w.mind? m with
  | none => simp [entryAt, hmind]
  | some mind =>
    have hclock : w.clock m = mind.clock := by rw [World.clock, hmind]; rfl
    have htick : w.tick m = mind.tick := by rw [World.tick, hmind]; rfl
    cases he : mind.entryAt k with
    | none => simp [entryAt, hmind, he]
    | some e =>
      have hentry : w.entryAt m k = some e := Option.bind_eq_some_iff.mpr ⟨mind, hmind, he⟩
      simp only [he, hentry, Option.some.injEq, exists_eq_left', Bool.and_eq_true, beq_iff_eq, decide_eq_true_eq,
        Bool.not_eq_true', decide_eq_false_iff_not, hclock.symm, htick.symm]
      constructor
      · rintro ⟨⟨⟨hs, hlt⟩, hinterval⟩, htime⟩
        refine ⟨⟨hs, hinterval, ?_⟩, hlt⟩
        split at htime
        · next hwake => exact .inl hwake
        · next t hwake => exact .inr ⟨t, hwake, of_decide_eq_true htime⟩
        · cases htime
      · rintro ⟨hdue, hlt⟩
        refine ⟨⟨⟨hdue.suspended, hlt⟩, hdue.interval⟩, ?_⟩
        rcases hdue.time with hwake | ⟨t, hwake, ht⟩
        · rw [hwake]
        · rw [hwake]
          exact decide_eq_true ht

theorem not_timed_of_conditionHolds (h : w.conditionHolds m k = true) : ¬ w.Timed m k := by
  rintro ⟨e, he, htimed⟩
  obtain ⟨e', he', -, hhappened⟩ := conditionHolds_iff.mp h
  obtain rfl := Option.some.inj (he.symm.trans he')
  have hwake : ∀ wake, e.wake = some wake → (∀ t, wake ≠ .atTime t) → wake ≠ .tick → False := by
    intro wake hwake htime htick
    rcases htimed with h | ⟨t, h⟩
    · exact htick (Option.some.inj (hwake.symm.trans h))
    · exact htime t (Option.some.inj (hwake.symm.trans h))
  cases hhappened with
  | delivered h _ => exact hwake _ h (by simp) (by simp)
  | finished h _ => exact hwake _ h (by simp) (by simp)
  | decided h _ _ _ => exact hwake _ h (by simp) (by simp)
  | childless h _ _ => exact hwake _ h (by simp) (by simp)

/-- As long as the frame has not settled, it is due where it was due when the update began, and no other frame is. -/
theorem Quiet.timeWakeDue_iff {X : Set FrameId} (h : Quiet m X v w) (hv : Moment.Valid ⟨s, v⟩)
    (hslept : ∀ e, v.entryAt m k = some e → e.wake.isSome = true → e.suspendedTick < v.tick m)
    (hk : v.Timed m k → k ∉ X) : w.timeWakeDue m k = true ↔
      ∃ e, v.entryAt m k = some e ∧ v.Due m e ∧ w.isFinished e.handle = false := by
  rw [World.timeWakeDue_iff]
  constructor
  · rintro ⟨e', he', hdue, hlt⟩
    have hwake : e'.wake.isSome = true := by
      rcases hdue.time with h | ⟨t, h, -⟩
      · rw [h]; rfl
      · rw [h]; rfl
    obtain ⟨e, he, hsleeps⟩ := h.slept k e' he' hwake hlt
    obtain ⟨wake, hwake⟩ := Option.isSome_iff_exists.mp (hsleeps.wake ▸ hwake)
    refine ⟨e, he, ⟨status_of_wake hv he hwake, ?_, ?_⟩, ?_⟩
    · rw [← h.sameTick.clock, ← hsleeps.nextUpdate]
      exact hdue.interval
    · rw [← h.sameTick.clock, ← hsleeps.wake]
      exact hdue.time
    · rw [← hsleeps.handle, World.isFinished, hdue.suspended]
      rfl
  · rintro ⟨e, he, hdue, hu⟩
    have htimed : v.Timed m k := ⟨e, he, hdue.isTimed⟩
    obtain ⟨hu₀, hframe⟩ := asleep hv he hdue.suspended
    rcases h.stays k (hk htimed) e he hframe hu₀ with hfin | ⟨e', he', hkeeps, hstatus⟩
    · exact absurd (hu.symm.trans hfin) Bool.false_ne_true
    refine ⟨e', he', ⟨?_, ?_, ?_⟩, ?_⟩
    · rw [hkeeps.handle, hstatus, hdue.suspended]
    · rw [h.sameTick.clock, hkeeps.nextUpdate]
      exact hdue.interval
    · rw [h.sameTick.clock, hkeeps.wake]
      exact hdue.time
    · have hwake : e.wake.isSome = true := by
        rcases hdue.time with h | ⟨t, h, -⟩
        · rw [h]; rfl
        · rw [h]; rfl
      rw [h.sameTick.tick, hkeeps.suspendedTick]
      exact hslept e he hwake

end World

/-! ### What the turns leave as it was -/

/-- A world in the middle of an update, between two turns. -/
structure World.Pumped (s : List FrameKey) (m : MindId) (w : World) : Prop where
  valid : Moment.Valid ⟨s, w⟩
  updating : w.isUpdating m = true
  deferred : w.Deferred

/-- Only a turn by the clock resumes a frame that sleeps until a time comes. -/
structure Turn.Sound (s : List FrameKey) (m : MindId) (t : Turn) : Prop where
  pumped : t.world.Pumped s m
  untimed : t.cause ≠ .clock → t.resumed = true → ¬ t.world.Timed m t.frame

/-- Some turns other than those by the clock, and the world after them. -/
structure Machine.Round (s : List FrameKey) (m : MindId) (w : World) (turns : List Turn) (w' : World) : Prop where
  pumped : w'.Pumped s m
  quiet : w.Quiet m {k | ¬ w.Timed m k} w'
  sound : ∀ t ∈ turns, t.Sound s m
  cause : ∀ t ∈ turns, t.cause ≠ .clock

section

variable {s : List FrameKey} {m : MindId} {w w₀ w' : World} {id : FrameId}

/-- A frame that still sleeps in the same way sleeps until a time comes if it did so before. -/
theorem World.Timed.kept {e e' : FrameEntry} (h : w.Timed m id) (he : w.entryAt m id = some e)
    (he' : w'.entryAt m id = some e') (hkeeps : e.Keeps e') : w'.Timed m id := by
  obtain ⟨e₁, he₁, htimed⟩ := h
  obtain rfl := Option.some.inj (he.symm.trans he₁)
  exact ⟨e', he', by rwa [FrameEntry.IsTimed, hkeeps.wake]⟩

/-- Frames that sleep until a time comes are left alone by two runs that leave them alone. -/
theorem World.Quiet.trans_timed (h : w.Quiet m {k | ¬ w.Timed m k} w₀) (h' : w₀.Quiet m {k | ¬ w₀.Timed m k} w') :
    w.Quiet m {k | ¬ w.Timed m k} w' :=
  h.chain h' subset_rfl fun _ hk _ _ he he' hkeeps _ hmem ↦ hmem ((not_not.mp hk).kept he he' hkeeps)

theorem World.Shifted.quiet (h : Shifted m w w₀) (X : Set FrameId) : w.Quiet m X w₀ :=
  .of_still h.still ⟨h.updating, h.clock, h.tick⟩

namespace Machine.Round

variable {turns turns' : List Turn}

theorem nil (h : w.Pumped s m) : Round s m w [] w := ⟨h, .refl m _ w, by simp, by simp⟩

theorem append (h : Round s m w turns w₀) (h' : Round s m w₀ turns' w') : Round s m w (turns ++ turns') w' where
  pumped := h'.pumped
  quiet := h.quiet.trans_timed h'.quiet
  sound t ht := (List.mem_append.mp ht).elim (h.sound t) (h'.sound t)
  cause t ht := (List.mem_append.mp ht).elim (h.cause t) (h'.cause t)

theorem single {cause : Cause} {resumed : Bool} (h : w.Pumped s m) (huntimed : resumed = true → ¬ w.Timed m id)
    (hcause : cause ≠ .clock) (hquiet : w.Quiet m {k | ¬ w.Timed m k} w') (h' : w'.Pumped s m) :
    Round s m w [⟨cause, id, w, resumed⟩] w' := by
  refine ⟨h', hquiet, fun t ht ↦ ?_, fun t ht ↦ ?_⟩
  · obtain rfl := List.mem_singleton.mp ht
    exact ⟨h, fun _ ↦ huntimed⟩
  · obtain rfl := List.mem_singleton.mp ht
    exact hcause

/-- Between two turns a queue may change. -/
theorem shift (hshifted : World.Shifted m w w₀) (h : Round s m w₀ turns w') : Round s m w turns w' :=
  ⟨h.pumped, (hshifted.quiet _).trans_timed h.quiet, h.sound, h.cause⟩

end Machine.Round

namespace World.Pumped

theorem shift (h : w.Pumped s m) {α : Type} {f : Machine α} {a : α} (hf : Basic ⟨s.head?, 0, true, some m⟩ f)
    (hrun : f w = (.ok a, w₀)) (hshifted : Shifted m w w₀) : w₀.Pumped s m := by
  have hreserves := hf.reserves h.valid rfl (Nat.zero_le _)
  rw [hrun] at hreserves
  exact ⟨h.valid.act hshifted.deed.act, hshifted.updating.trans h.updating, hreserves.deferred h.deferred⟩

variable {E : Engine} (hhushes : E.Hushes m) (hqueues : E.Queues) {n : Nat} {turns : List Turn}

include hhushes hqueues

theorem resume (h : w.Pumped s m) (hid : id ∉ w.pending m) (hrun : E.resume m id w = (.ok (), w')) :
    w'.Pumped s m ∧ w.Quiet m {id} w' := by
  have hhushed := hhushes.resume (σ := ⟨s.head?, 0, true, none⟩) m id fun _ ↦ Set.mem_singleton id
  have hqueued := hqueues.resume ⟨s.head?, 0, true, none⟩ m id
  have hquiet := hhushed.leads s w h.valid rfl (Nat.zero_le _) ⟨(Option.some_ne_none m).symm, h.updating⟩
  have hreserves := hqueued.leads s w h.valid rfl (Nat.zero_le _) ⟨h.deferred, hid⟩
  obtain ⟨s', hjourney, hs⟩ := hhushed.tracked s w h.valid rfl (Nat.zero_le _)
  rw [hrun] at hquiet hreserves hjourney hs
  obtain rfl := hs (by simp)
  exact ⟨⟨h.valid.journey hjourney, hquiet.sameTick.updating.trans h.updating, hreserves.deferred h.deferred⟩, hquiet⟩

/-- A frame that does not sleep until a time comes is resumed. -/
theorem turn (h : w.Pumped s m) (hid : id ∉ w.pending m) (huntimed : ¬ w.Timed m id) (cause : Cause)
    (hcause : cause ≠ .clock) (hrun : E.resume m id w = (.ok (), w')) : Round s m w [⟨cause, id, w, true⟩] w' := by
  obtain ⟨h', hquiet⟩ := h.resume hhushes hqueues hid hrun
  exact .single h (fun _ ↦ huntimed) hcause (hquiet.mono fun k hk ↦ hk ▸ huntimed) h'

omit hhushes hqueues in
/-- A frame is passed over. -/
theorem pass (h : w.Pumped s m) (cause : Cause) (hcause : cause ≠ .clock) : Round s m w [⟨cause, id, w, false⟩] w :=
  .single h (fun hresumed ↦ absurd hresumed Bool.false_ne_true) hcause (.refl m _ w) h

/-- What a frame waits for has happened. -/
theorem turn_of_condition (h : w.Pumped s m) (hcond : w.conditionHolds m id = true) (cause : Cause)
    (hcause : cause ≠ .clock) (hrun : E.resume m id w = (.ok (), w')) : Round s m w [⟨cause, id, w, true⟩] w' :=
  h.turn hhushes hqueues (h.deferred.not_mem_of_isDue (by rw [isDue, hcond, Bool.or_true]))
    (not_timed_of_conditionHolds hcond) cause hcause hrun

theorem readyTurns (h : w.Pumped s m) (hrun : Machine.readyTurns E m n w = (.ok turns, w')) : Round s m w turns w' := by
  induction n generalizing w turns with
  | zero => cases hrun
  | succ n ih =>
    rcases readyTurns_cases hrun with ⟨-, rfl, rfl⟩ | ⟨id, w₀, hpop, -, hshifted, hcases⟩
    · exact .nil h
    have h₀ := h.shift (.popReady rfl) hpop hshifted
    refine .shift hshifted ?_
    rcases hcases with ⟨hcond, w₁, later, hresume, hlater, rfl⟩ | ⟨-, later, hlater, rfl⟩
    · have hturn := h₀.turn_of_condition hhushes hqueues hcond .queue (by simp) hresume
      exact hturn.append (ih hturn.pumped hlater)
    · exact (h₀.pass .queue (by simp)).append (ih h₀ hlater)

theorem pollTurns (h : w.Pumped s m) {ids : List FrameId}
    (hrun : Machine.dueTurns E m .poll (fun w id ↦ w.conditionHolds m id) ids w = (.ok turns, w')) :
    Round s m w turns w' := by
  induction ids generalizing w turns with
  | nil =>
    cases hrun
    exact .nil h
  | cons id rest ih =>
    rcases dueTurns_cases hrun with
      ⟨hcond, w₁, woken, w₂, later, hresume, hwoken, hlater, rfl⟩ | ⟨-, later, hlater, rfl⟩
    · have hturn := h.turn_of_condition hhushes hqueues hcond .poll (by simp) hresume
      have hround := hturn.pumped.readyTurns hhushes hqueues hwoken
      exact hturn.append (hround.append (ih hround.pumped hlater))
    · exact (h.pass .poll (by simp)).append (ih h hlater)

theorem pendingTurns (h : w.Pumped s m) (hrun : Machine.pendingTurns E m n w = (.ok turns, w')) :
    Round s m w turns w' := by
  induction n generalizing w turns with
  | zero => cases hrun
  | succ n ih =>
    rcases pendingTurns_cases hrun with ⟨-, rfl, rfl⟩ |
      ⟨id, w₀, w₁, woken, w₂, later, hpop, hpending, -, hshifted, hresume, hwoken, hlater, rfl⟩
    · exact .nil h
    have h₀ := h.shift (.popPending rfl) hpop hshifted
    refine .shift hshifted ?_
    have honce := h.deferred.once m
    rw [hpending] at honce
    have huntimed : ¬ w₀.Timed m id := by
      rintro ⟨e, he, htimed⟩
      rw [hshifted.still.entryAt] at he
      have hawake := h.deferred.awake m id (hpending ▸ List.mem_cons_self) e he
      rcases htimed with hwake | ⟨t, hwake⟩
      · cases hawake.symm.trans hwake
      · cases hawake.symm.trans hwake
    have hturn := h₀.turn hhushes hqueues (List.nodup_cons.mp honce).1 huntimed .deferral (by simp) hresume
    have hround := hturn.pumped.readyTurns hhushes hqueues hwoken
    exact hturn.append (hround.append (ih hround.pumped hlater))

end World.Pumped

/-! ### Turns by the clock -/

/-- The frames that have a turn by the clock, in order. -/
def Turn.clocked (turns : List Turn) : List FrameId := (turns.filter fun t ↦ t.cause = .clock).map Turn.frame

/-- A turn by the clock resumes the frame just if it was due in a world at the beginning and has not settled since. -/
def Turn.Timely (w₁ : World) (m : MindId) (t : Turn) : Prop := t.cause = .clock →
  (t.resumed = true ↔ ∃ e, w₁.entryAt m t.frame = some e ∧ w₁.Due m e ∧ t.world.isFinished e.handle = false)

theorem Machine.Round.clocked {turns : List Turn} (h : Round s m w turns w') : Turn.clocked turns = [] := by
  rw [Turn.clocked, List.filter_eq_nil_iff.mpr fun t ht ↦ by simpa using h.cause t ht]
  rfl

namespace Turn

@[simp] theorem clocked_append (turns turns' : List Turn) :
    clocked (turns ++ turns') = clocked turns ++ clocked turns' := by
  rw [clocked, List.filter_append, List.map_append]
  rfl

theorem clocked_cons (id : FrameId) (w : World) (resumed : Bool) (turns : List Turn) :
    clocked (⟨.clock, id, w, resumed⟩ :: turns) = id :: clocked turns := rfl

end Turn

open Turn in
/-- Each frame of a list has its turn by the clock. -/
theorem World.Pumped.clockTurns {E : Engine} (hhushes : E.Hushes m) (hqueues : E.Queues) {w₁ : World}
    (hvalid : Moment.Valid ⟨s, w₁⟩)
    (hslept : ∀ k e, w₁.entryAt m k = some e → e.wake.isSome = true → e.suspendedTick < w₁.tick m)
    (done : Set FrameId) (hpast : w₁.Quiet m {k | k ∈ done ∨ ¬ w₁.Timed m k} w) (h : w.Pumped s m) {ids : List FrameId}
    (hids : ids.Nodup) (hnew : ∀ k ∈ ids, k ∉ done) {turns : List Turn}
    (hrun : Machine.dueTurns E m .clock (fun w id ↦ w.timeWakeDue m id) ids w = (.ok turns, w')) :
    w'.Pumped s m ∧ clocked turns = ids ∧ ∀ t ∈ turns, t.Sound s m ∧ t.Timely w₁ m := by
  induction ids generalizing w turns done with
  | nil =>
    cases hrun
    exact ⟨h, rfl, by simp⟩
  | cons id rest ih =>
    obtain ⟨hid, hrest⟩ := List.nodup_cons.mp hids
    have hdue := hpast.timeWakeDue_iff hvalid (hslept id) fun htimed hmem ↦
      hmem.elim (hnew id List.mem_cons_self) fun hnot ↦ hnot htimed
    rcases dueTurns_cases hrun with
      ⟨hcond, w₂, woken, w₃, later, hresume, hwoken, hlater, rfl⟩ | ⟨hcond, later, hlater, rfl⟩
    · have hpending : id ∉ w.pending m := h.deferred.not_mem_of_isDue (by rw [isDue, hcond, Bool.true_or])
      obtain ⟨h₂, hstep⟩ := h.resume hhushes hqueues hpending hresume
      have hround := h₂.readyTurns hhushes hqueues hwoken
      -- Frames that have not had their turns and sleep until a time comes are as they were.
      have hpast₂ : w₁.Quiet m {k | k ∈ insert id done ∨ ¬ w₁.Timed m k} w₂ :=
        hpast.chain hstep (fun k hk ↦ hk.imp_left .inr) fun k hk _ _ _ _ _ _ heq ↦ hk (.inl (.inl heq))
      have hpast₃ : w₁.Quiet m {k | k ∈ insert id done ∨ ¬ w₁.Timed m k} w₃ :=
        hpast₂.chain hround.quiet subset_rfl fun k hk _ _ he he' hkeeps _ hmem ↦
          hmem ((not_not.mp fun hnot ↦ hk (.inr hnot)).kept he he' hkeeps)
      obtain ⟨h', hclocked, hturns⟩ := ih _ hpast₃ hround.pumped hrest
        (fun k hk hmem ↦ hmem.elim (fun heq ↦ hid (heq ▸ hk)) (hnew k (List.mem_cons_of_mem id hk))) hlater
      refine ⟨h', ?_, ?_⟩
      · rw [clocked_cons, clocked_append, hround.clocked, List.nil_append, hclocked]
      · simp only [List.mem_cons, List.mem_append]
        rintro t (rfl | ht | ht)
        · exact ⟨⟨h, fun hne ↦ absurd rfl hne⟩, fun _ ↦ by rw [← hdue, hcond]⟩
        · exact ⟨hround.sound t ht, fun hclock ↦ absurd hclock (hround.cause t ht)⟩
        · exact hturns t ht
    · obtain ⟨h', hclocked, hturns⟩ := ih done hpast h hrest (fun k hk ↦ hnew k (List.mem_cons_of_mem id hk)) hlater
      refine ⟨h', by rw [clocked_cons, hclocked], ?_⟩
      simp only [List.mem_cons]
      rintro t (rfl | ht)
      · exact ⟨⟨h, fun hne ↦ absurd rfl hne⟩, fun _ ↦ by rw [← hdue, hcond]⟩
      · exact hturns t ht

open Turn in
/-- The turns of an update that has begun. -/
theorem World.Pumped.turns {E : Engine} (hhushes : E.Hushes m) (hqueues : E.Queues) (h : w.Pumped s m)
    (hslept : ∀ k e, w.entryAt m k = some e → e.wake.isSome = true → e.suspendedTick < w.tick m)
    (honce : (w.live m).Nodup) {turns : List Turn} (hrun : Machine.turns E m w = (.ok turns, w')) :
    w'.Pumped s m ∧ clocked turns = w.live m ∧ ∀ t ∈ turns, t.Sound s m ∧ t.Timely w m := by
  obtain ⟨timed, w₂, polled, w₃, woken, w₄, started, htimed, hpolled, hwoken, hstarted, rfl⟩ := exists_of_turns hrun
  obtain ⟨h₂, hclocked, hturns⟩ := h.clockTurns hhushes hqueues h.valid hslept ∅ (.refl m _ w) honce (by simp) htimed
  have hround₃ := h₂.pollTurns hhushes hqueues hpolled
  have hround₄ := hround₃.pumped.readyTurns hhushes hqueues hwoken
  have hround₅ := hround₄.pumped.pendingTurns hhushes hqueues hstarted
  have hround := hround₃.append (hround₄.append hround₅)
  refine ⟨hround₅.pumped, ?_, fun t ht ↦ ?_⟩
  · rw [clocked_append, hround.clocked, List.append_nil, hclocked]
  · rcases List.mem_append.mp ht with ht | ht
    · exact hturns t ht
    · exact ⟨hround.sound t ht, fun hclock ↦ absurd hclock (hround.cause t ht)⟩

end

end MindScript
