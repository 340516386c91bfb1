import MindScript.Proofs.Balance
import MindScript.Proofs.Custody.Ticks
import MindScript.Proofs.Wakeups.Postponed

/-!
# First steps that were left to an update

The last phase of an update takes the queue of deferred frames from its front, until nobody is left in it.  The frames that
were in the queue when the update began come first, in the order in which they were registered; whoever is deferred while
the update runs comes after them, in the same update.  All other turns in which a frame is resumed are turns of frames that
sleep.
-/

namespace MindScript

open Machine

/-- The frames whose first steps were left to the update, in the order of their turns. -/
def Turn.deferred (turns : List Turn) : List FrameId := (turns.filter fun t ↦ t.cause = .deferral).map Turn.frame

/-- Of two frames whose first steps were left to the update, the one that has its turn first was registered first: it has
the lower outcome. -/
def Turn.Precedes (m : MindId) (t t' : Turn) : Prop := t.cause = .deferral → t'.cause = .deferral → ∀ e e',
  t.world.entryAt m t.frame = some e → t'.world.entryAt m t'.frame = some e' →
    e.handle.outcome.index < e'.handle.outcome.index

/-- The turn resumes a frame that sleeps. -/
def Turn.Rouses (m : MindId) (t : Turn) : Prop :=
  ∃ e, t.world.entryAt m t.frame = some e ∧ t.world.status e.handle = .suspended

namespace World

/-- A world in the middle of an update, between two turns, in which no frame in a queue has begun its first step. -/
structure Rousable (s : List FrameKey) (m : MindId) (w : World) : Prop extends w.Pumped s m where
  untried : w.Untried

/-- The update goes on, and nobody leaves the queue. -/
structure Proceeds (s : List FrameKey) (m : MindId) (v w : World) : Prop where
  rousable : w.Rousable s m
  reserves : v.Reserves w
  names : v.Names w
  callStack : w.callStack = v.callStack
  queue : v.pending m <+: w.pending m

variable {s : List FrameKey} {m : MindId} {u v w w₀ w' : World} {id : FrameId} {n : ℕ}

namespace Proceeds

theorem refl (h : w.Rousable s m) : w.Proceeds s m w := ⟨h, .refl w, .refl w, rfl, List.prefix_rfl⟩

theorem trans (h : u.Proceeds s m v) (h' : v.Proceeds s m w) : u.Proceeds s m w :=
  ⟨h'.rousable, h.reserves.trans h'.reserves, h.names.trans h'.names, h'.callStack.trans h.callStack,
    h.queue.trans h'.queue⟩

/-- Frames that have come into the queue meanwhile are new. -/
theorem exists_append (h : v.Proceeds s m w) :
    ∃ new, w.pending m = v.pending m ++ new ∧ ∀ k ∈ new, ¬ v.Issued m k := by
  obtain ⟨new, hnew⟩ := h.queue
  have honce := h.rousable.deferred.once m
  rw [← hnew] at honce
  refine ⟨new, hnew.symm, fun k hk ↦ ?_⟩
  have hmem : k ∈ w.pending m := hnew ▸ List.mem_append_right _ hk
  exact (h.reserves.added m k hmem).resolve_left fun hold ↦ (List.disjoint_of_nodup_append honce) hold hk

end Proceeds

namespace Rousable

theorem resume (h : w.Rousable s m) (hid : id ∉ w.pending m)
    (hrun : (Engine.ofBudget n).resume m id w = (.ok (), w')) : w.Proceeds s m w' := by
  let σ : Setting := ⟨s.head?, 0, true, none⟩
  have hpostpones : Postpones m (w.tick m) σ ((Engine.ofBudget n).resume m id) :=
    (Engine.satisfies_ofBudget (Postpones.hospitable m (w.tick m)).toCompositional n).resume σ m id
  obtain ⟨hpumped, hquiet⟩ := h.toPumped.resume (Engine.hushes_ofBudget m n) (Engine.queues_ofBudget n) hid hrun
  have hreserves := ((Engine.queues_ofBudget n).resume σ m id).leads s w h.valid rfl (Nat.zero_le _) ⟨h.deferred, hid⟩
  have hlengthens := hpostpones.leads s w h.valid rfl (Nat.zero_le _)
    ⟨Nat.le_refl _, fun heq ↦ absurd heq.symm (Option.some_ne_none m)⟩
  have hbalanced := (Engine.balanced_ofBudget n).resume σ m id w (h.valid.holds rfl (Nat.zero_le _))
  obtain ⟨s', hjourney, -⟩ := hpostpones.tracked s w h.valid rfl (Nat.zero_le _)
  have hlevel := hbalanced.level (by rw [hrun]; simp)
  rw [hrun] at hreserves hlengthens hlevel hjourney
  exact ⟨⟨hpumped, hreserves.untried h.untried⟩, hreserves, hjourney.names h.valid, hlevel.callStack,
    hlengthens.pending rfl hquiet.sameTick.tick⟩

theorem popReady (h : w.Rousable s m) {id? : Option FrameId} (hpop : Machine.popReady m w = (.ok id?, w₀))
    (hshifted : Shifted m w w₀) : w.Proceeds s m w₀ := by
  have hbasic : Basic ⟨s.head?, 0, true, some m⟩ (Machine.popReady m) := .popReady rfl
  have hreserves := hbasic.reserves h.valid rfl (Nat.zero_le _)
  have hlevel := hbasic.level w
  have hpending := pending_popReady w m m
  rw [hpop] at hreserves hlevel hpending
  exact ⟨⟨h.toPumped.shift hbasic hpop hshifted, hreserves.untried h.untried⟩, hreserves, hshifted.deed.names h.valid,
    hlevel.callStack, hpending ▸ List.prefix_rfl⟩

end Rousable

/-- A frame that is due sleeps. -/
theorem suspended_of_isDue (hvalid : Moment.Valid ⟨s, w⟩) (h : w.isDue m id = true) :
    ∃ e, w.entryAt m id = some e ∧ w.status e.handle = .suspended := by
  obtain ⟨e, he, hwake⟩ := exists_of_isDue h
  obtain ⟨wake, hwake⟩ := Option.isSome_iff_exists.mp hwake
  exact ⟨e, he, status_of_wake hvalid he hwake⟩

end World

/-! ### Turns of frames that sleep -/

namespace Machine

/-- Some turns before the first steps are run, and the world after them. -/
structure Spell (s : List FrameKey) (m : MindId) (w : World) (turns : List Turn) (w' : World) : Prop where
  proceeds : w.Proceeds s m w'
  before : ∀ t ∈ turns, w.Proceeds s m t.world
  cause : ∀ t ∈ turns, t.cause ≠ .deferral
  rouses : ∀ t ∈ turns, t.resumed = true → t.Rouses m

namespace Spell

variable {s : List FrameKey} {m : MindId} {w w₀ w' : World} {id : FrameId} {n : ℕ} {turns turns' : List Turn} {cause : Cause}

theorem nil (h : w.Proceeds s m w') : Spell s m w [] w' := ⟨h, by simp, by simp, by simp⟩

theorem append (h : Spell s m w turns w₀) (h' : Spell s m w₀ turns' w') : Spell s m w (turns ++ turns') w' where
  proceeds := h.proceeds.trans h'.proceeds
  before t ht := (List.mem_append.mp ht).elim (h.before t) fun ht ↦ h.proceeds.trans (h'.before t ht)
  cause t ht := (List.mem_append.mp ht).elim (h.cause t) (h'.cause t)
  rouses t ht := (List.mem_append.mp ht).elim (h.rouses t) (h'.rouses t)

theorem single (hcause : cause ≠ .deferral) {resumed : Bool} (h : w.Rousable s m)
    (hdue : resumed = true → w.isDue m id = true) (h' : w.Proceeds s m w') : Spell s m w [⟨cause, id, w, resumed⟩] w' := by
  refine ⟨h', fun t ht ↦ ?_, fun t ht ↦ ?_, fun t ht hresumed ↦ ?_⟩
  · obtain rfl := List.mem_singleton.mp ht
    exact .refl h
  · obtain rfl := List.mem_singleton.mp ht
    exact hcause
  · obtain rfl := List.mem_singleton.mp ht
    exact World.suspended_of_isDue h.valid (hdue hresumed)

theorem turn (hcause : cause ≠ .deferral) (h : w.Rousable s m) (hdue : w.isDue m id = true)
    (hrun : (Engine.ofBudget n).resume m id w = (.ok (), w')) : Spell s m w [⟨cause, id, w, true⟩] w' :=
  single hcause h (fun _ ↦ hdue) (h.resume (h.deferred.not_mem_of_isDue hdue) hrun)

theorem pass (hcause : cause ≠ .deferral) (h : w.Rousable s m) : Spell s m w [⟨cause, id, w, false⟩] w :=
  single hcause h (fun hresumed ↦ absurd hresumed Bool.false_ne_true) (.refl h)

theorem ready {j : ℕ} (h : w.Rousable s m) (hrun : readyTurns (.ofBudget n) m j w = (.ok turns, w')) :
    Spell s m w turns w' := by
  induction j generalizing w turns with
  | zero => cases hrun
  | succ j ih =>
    rcases readyTurns_cases hrun with ⟨-, rfl, rfl⟩ | ⟨id, w₀, hpop, -, hshifted, hcases⟩
    · exact .nil (.refl h)
    have hpopped := h.popReady hpop hshifted
    refine (nil hpopped).append ?_
    rcases hcases with ⟨hcond, w₁, later, hresume, hlater, rfl⟩ | ⟨-, later, hlater, rfl⟩
    · have hturn : Spell s m w₀ [⟨.queue, id, w₀, true⟩] w₁ :=
        turn (by simp) hpopped.rousable (by rw [World.isDue, hcond, Bool.or_true]) hresume
      exact hturn.append (ih hturn.proceeds.rousable hlater)
    · exact (pass (by simp) hpopped.rousable).append (ih hpopped.rousable hlater)

theorem due (hcause : cause ≠ .deferral) {isDue : World → FrameId → Bool}
    (hdue : ∀ w id, isDue w id = true → w.isDue m id = true) {ids : List FrameId} (h : w.Rousable s m)
    (hrun : dueTurns (.ofBudget n) m cause isDue ids w = (.ok turns, w')) : Spell s m w turns w' := by
  induction ids generalizing w turns with
  | nil =>
    cases hrun
    exact .nil (.refl h)
  | cons id rest ih =>
    rcases dueTurns_cases hrun with
      ⟨hcond, w₁, woken, w₂, later, hresume, hwoken, hlater, rfl⟩ | ⟨-, later, hlater, rfl⟩
    · have hturn := turn hcause h (hdue w id hcond) hresume
      have hspell := ready hturn.proceeds.rousable hwoken
      exact hturn.append (hspell.append (ih hspell.proceeds.rousable hlater))
    · exact (pass hcause h).append (ih h hlater)

end Spell

end Machine

namespace Turn

@[simp] theorem deferred_append (turns turns' : List Turn) :
    deferred (turns ++ turns') = deferred turns ++ deferred turns' := by
  rw [deferred, List.filter_append, List.map_append]
  rfl

theorem deferred_cons (id : FrameId) (w : World) (resumed : Bool) (turns : List Turn) :
    deferred (⟨.deferral, id, w, resumed⟩ :: turns) = id :: deferred turns := rfl

theorem mem_deferred {turns : List Turn} {t : Turn} (ht : t ∈ turns) (hcause : t.cause = .deferral) :
    t.frame ∈ deferred turns :=
  List.mem_map.mpr ⟨t, List.mem_filter.mpr ⟨ht, by simpa using hcause⟩, rfl⟩

end Turn

/-! ### Turns of frames whose first steps were left to the update -/

namespace Machine

open Turn in
/-- The turns of an update up to its end, and the world after them. -/
structure Drain (s : List FrameKey) (m : MindId) (w : World) (turns : List Turn) (w' : World) : Prop where
  rousable : w'.Rousable s m
  empty : w'.pending m = []
  callStack : ∀ t ∈ turns, t.world.callStack = w.callStack
  valid : ∀ t ∈ turns, t.world.Rousable s m
  names : ∀ t ∈ turns, w.Names t.world
  rouses : ∀ t ∈ turns, t.cause ≠ .deferral → t.resumed = true → t.Rouses m
  unbegun : ∀ t ∈ turns, t.cause = .deferral → t.resumed = true ∧ t.world.Unbegun m t.frame
  queue : ∃ new, deferred turns = w.pending m ++ new ∧ ∀ k ∈ new, ¬ w.Issued m k
  once : (deferred turns).Nodup
  ordered : turns.Pairwise (Precedes m)
  shelved : ∀ t ∈ turns, t.cause = .deferral → t.frame ∈ w.pending m → ∀ x, w.Shelved m t.frame x →
    t.world.Shelved m t.frame x

namespace Drain

variable {s : List FrameKey} {m : MindId} {w w₀ w' : World} {id : FrameId} {n : ℕ} {turns turns' : List Turn}

theorem nil (h : w.Rousable s m) (hempty : w.pending m = []) : Drain s m w [] w where
  rousable := h
  empty := hempty
  callStack := by simp
  valid := by simp
  names := by simp
  rouses := by simp
  unbegun := by simp
  queue := ⟨[], by rw [hempty]; rfl, by simp⟩
  once := List.nodup_nil
  ordered := .nil
  shelved := by simp

theorem prepend (h : Spell s m w turns w₀) (h' : Drain s m w₀ turns' w') (hw : w.Deferred) :
    Drain s m w (turns ++ turns') w' := by
  have hnone : Turn.deferred turns = [] := by
    rw [Turn.deferred, List.filter_eq_nil_iff.mpr fun t ht ↦ by simpa using h.cause t ht]
    rfl
  have hdeferred : Turn.deferred (turns ++ turns') = Turn.deferred turns' := by
    rw [Turn.deferred_append, hnone, List.nil_append]
  have hqueue := h.proceeds.queue.subset
  refine ⟨h'.rousable, h'.empty, fun t ht ↦ ?_, fun t ht ↦ ?_, fun t ht ↦ ?_, fun t ht hcause hresumed ↦ ?_,
    fun t ht hcause ↦ ?_, ?_, hdeferred ▸ h'.once, ?_, fun t ht hcause hmem x hx ↦ ?_⟩
  · rcases List.mem_append.mp ht with ht | ht
    · exact (h.before t ht).callStack
    · exact (h'.callStack t ht).trans h.proceeds.callStack
  · exact (List.mem_append.mp ht).elim (fun ht ↦ (h.before t ht).rousable) (h'.valid t)
  · exact (List.mem_append.mp ht).elim (fun ht ↦ (h.before t ht).names) fun ht ↦ h.proceeds.names.trans (h'.names t ht)
  · exact (List.mem_append.mp ht).elim (fun ht ↦ h.rouses t ht hresumed) fun ht ↦ h'.rouses t ht hcause hresumed
  · exact (List.mem_append.mp ht).elim (fun ht ↦ absurd hcause (h.cause t ht)) fun ht ↦ h'.unbegun t ht hcause
  · obtain ⟨joined, hjoined, hfresh⟩ := h.proceeds.exists_append
    obtain ⟨new, hnew, hlater⟩ := h'.queue
    refine ⟨joined ++ new, by rw [hdeferred, hnew, hjoined, List.append_assoc], fun k hk ↦ ?_⟩
    rcases List.mem_append.mp hk with hk | hk
    · exact hfresh k hk
    · exact fun hissued ↦ hlater k hk (h.proceeds.names.issued m k hissued)
  · refine List.pairwise_append.mpr ⟨List.pairwise_of_forall_mem_list ?_, h'.ordered,
      fun t ht _ _ hcause ↦ absurd hcause (h.cause t ht)⟩
    exact fun t ht _ _ hcause ↦ absurd hcause (h.cause t ht)
  · refine (List.mem_append.mp ht).elim (fun ht ↦ absurd hcause (h.cause t ht)) fun ht ↦ ?_
    exact h'.shelved t ht hcause (hqueue hmem) x (h.proceeds.reserves.shelved hw m _ x hmem (hqueue hmem) hx)

/-- The first frame leaves the queue and has its turn. -/
theorem cons (hw : w.Rousable s m) (hpending : w.pending m = id :: w₀.pending m) (hshifted : World.Shifted m w w₀)
    (hcallStack : w₀.callStack = w.callStack) (h₀ : w₀.Rousable s m) (h : Drain s m w₀ turns w') :
    Drain s m w (⟨.deferral, id, w₀, true⟩ :: turns) w' := by
  have hid : id ∈ w.pending m := hpending ▸ List.mem_cons_self
  have honce := hw.deferred.once m
  rw [hpending] at honce
  have hissued : w.Issued m id := hw.deferred.issued m id hid
  have hnames : w.Names w₀ := hshifted.deed.names hw.valid
  obtain ⟨new, hnew, hfresh⟩ := h.queue
  have hshelved : ∀ k x, w.Shelved m k x → w₀.Shelved m k x := fun k x hx ↦ by
    rwa [World.Shelved, hshifted.still.status, hshifted.still.entryAt]
  refine ⟨h.rousable, h.empty, ?_, ?_, ?_, ?_, ?_, ⟨new, ?_, fun k hk hold ↦ hfresh k hk (hold.still hshifted.still)⟩, ?_, ?_, ?_⟩
  · exact List.forall_mem_cons.mpr ⟨hcallStack, fun t ht ↦ (h.callStack t ht).trans hcallStack⟩
  · exact List.forall_mem_cons.mpr ⟨h₀, h.valid⟩
  · exact List.forall_mem_cons.mpr ⟨hnames, fun t ht ↦ hnames.trans (h.names t ht)⟩
  · exact List.forall_mem_cons.mpr ⟨fun hne ↦ absurd rfl hne, h.rouses⟩
  · refine List.forall_mem_cons.mpr ⟨fun _ ↦ ⟨rfl, fun e he ↦ ?_⟩, h.unbegun⟩
    rw [hshifted.still.entryAt] at he
    rw [hshifted.still.status]
    exact hw.untried m id hid e he
  · rw [Turn.deferred_cons, hnew, hpending, List.cons_append]
  · rw [Turn.deferred_cons]
    refine List.nodup_cons.mpr ⟨fun hmem ↦ ?_, h.once⟩
    rcases List.mem_append.mp (hnew ▸ hmem) with hmem | hmem
    · exact (List.nodup_cons.mp honce).1 hmem
    · exact hfresh id hmem (hissued.still hshifted.still)
  · refine List.pairwise_cons.mpr ⟨fun t ht _ hcause e e' he he' ↦ ?_, h.ordered⟩
    have hmem := Turn.mem_deferred ht hcause
    have he : w.entryAt m id = some e := by rwa [← hshifted.still.entryAt]
    rcases (hnames.trans (h.names t ht)).entry m t.frame e' he' with ⟨e₀, he₀, hhandle⟩ | ⟨-, hlast⟩
    · rw [hhandle]
      have hqueued : t.frame ∈ w₀.pending m := (List.mem_append.mp (hnew ▸ hmem)).resolve_right fun hmem ↦
        hfresh _ hmem ((World.Issued.of_stored he₀).still hshifted.still)
      have hordered := hw.deferred.ordered m
      rw [hpending] at hordered
      exact (List.pairwise_cons.mp hordered).1 t.frame hqueued e e₀ he he₀
    · exact Nat.lt_of_lt_of_le (World.index_of_cell? (hw.valid.sound.filed.stored m id e he)) hlast
  · refine List.forall_mem_cons.mpr ⟨fun _ _ x hx ↦ hshelved id x hx, fun t ht hcause hmem x hx ↦ ?_⟩
    have hmem : t.frame ∈ w₀.pending m := (List.mem_append.mp (hnew ▸ Turn.mem_deferred ht hcause)).resolve_right fun hmem' ↦
      hfresh _ hmem' ((hw.deferred.issued m _ hmem).still hshifted.still)
    exact h.shelved t ht hcause hmem x (hshelved _ x hx)

theorem pending {j : ℕ} (h : w.Rousable s m) (hrun : pendingTurns (.ofBudget n) m j w = (.ok turns, w')) :
    Drain s m w turns w' := by
  induction j generalizing w turns with
  | zero => cases hrun
  | succ j ih =>
    rcases pendingTurns_cases hrun with ⟨hempty, rfl, rfl⟩ |
      ⟨id, w₀, w₁, woken, w₂, later, hpop, hpending, -, hshifted, hresume, hwoken, hlater, rfl⟩
    · exact .nil h hempty
    have hbasic : Basic ⟨s.head?, 0, true, some m⟩ (popPending m) := .popPending rfl
    have hreserves := hbasic.reserves h.valid rfl (Nat.zero_le _)
    have hlevel := hbasic.level w
    rw [hpop] at hreserves hlevel
    have h₀ : w₀.Rousable s m := ⟨h.toPumped.shift hbasic hpop hshifted, hreserves.untried h.untried⟩
    have honce := h.deferred.once m
    rw [hpending] at honce
    have hstep := h₀.resume (List.nodup_cons.mp honce).1 hresume
    have hspell := Spell.ready hstep.rousable hwoken
    have hrest := prepend ((Spell.nil hstep).append hspell) (ih hspell.proceeds.rousable hlater) h₀.deferred
    exact cons h hpending hshifted hlevel.callStack h₀ hrest

/-- The turns of an update that has begun. -/
theorem of_turns (h : w.Rousable s m) (hrun : Machine.turns (.ofBudget n) m w = (.ok turns, w')) :
    Drain s m w turns w' := by
  obtain ⟨timed, w₂, polled, w₃, woken, w₄, started, htimed, hpolled, hwoken, hstarted, rfl⟩ := exists_of_turns hrun
  have hfirst := Spell.due (by simp) (fun w id hdue ↦ by rw [World.isDue, hdue, Bool.true_or]) h htimed
  have hsecond := Spell.due (by simp) (fun w id hdue ↦ by rw [World.isDue, hdue, Bool.or_true]) hfirst.proceeds.rousable hpolled
  have hthird := Spell.ready hsecond.proceeds.rousable hwoken
  have hlast := pending hthird.proceeds.rousable hstarted
  have hall := prepend (hfirst.append (hsecond.append hthird)) hlast h.deferred
  simpa only [List.append_assoc] using hall

end Drain

end Machine

/-! ### Whoever is deferred -/

section

variable {σ : Setting} {s : List FrameKey} {m : MindId} {w w' : World} {x : Handle} {n : ℕ}

/-- A new frame comes to the end of the queue and waits there for its first step. -/
theorem Machine.Starts.deferFrame (h : Starts σ s w) (hm : m.index < w.minds.size) (name : String) (owner : ClassId)
    {parent : Option FrameId} (hparent : ∀ p, parent = some p → s.head? = some (m, p)) (frame : Frame)
    (hrun : Machine.deferFrame m name owner parent frame w = (.ok x, w')) :
    ¬ w.Issued m x.frame ∧ x.frame ∈ w'.pending m ∧ w'.Shelved m x.frame x := by
  have hregistered := h.valid.registered name owner frame hm hparent
  have hnew := World.not_issued_register h.valid.sound.filed.tidy m name owner parent frame
  obtain ⟨frame', hfresh⟩ := hregistered.fresh
  obtain ⟨e, he, hcell, hcard⟩ := World.card_eq_some_iff.mp hfresh
  set w₁ := (w.register m name owner parent frame).2
  set y := (w.register m name owner parent frame).1
  have hdeferred : Machine.deferFrame m name owner parent frame w =
      (.ok y, w₁.modifyMind m fun mind ↦ { mind with pending := mind.pending ++ [y.frame] }) := rfl
  obtain ⟨hx, hw'⟩ := Prod.mk.inj (hdeferred.symm.trans hrun)
  obtain rfl : y = x := Except.ok.inj hx
  have hstill : World.Still w₁ w' := hw' ▸ World.still_modifyMind w₁ m (fun _ ↦ rfl) fun _ ↦ rfl
  refine ⟨hnew, ?_, .inr ⟨?_, e, ?_, congrArg Card.handle hcard⟩⟩
  · obtain ⟨mind, hmind, -⟩ := Option.bind_eq_some_iff.mp he
    rw [← hw', World.pending, World.mind?_modifyMind, if_pos rfl, hmind]
    exact List.mem_append_right _ (List.mem_singleton.mpr rfl)
  · have hhandle : e.handle = y := congrArg Card.handle hcard
    rw [hstill.status, ← hhandle]
    exact World.status_of_cell? hcell
  · rw [hstill.entryAt, he]

/-- An action that ends leaves frames their names. -/
theorem Machine.Starts.ends {α : Type} {f : Machine α} {a : α} (h : Starts σ s w) (hf : Piece n σ f)
    (hrun : f w = (.ok a, w')) : Starts σ s w' ∧ w.Names w' := by
  have hne : (f w).1 ≠ .error .exhausted := by rw [hrun]; simp
  have hstarts := h.piece hf hne
  have hjourney := h.journey hf hne
  rw [hrun] at hstarts hjourney
  exact ⟨hstarts, hjourney.names h.valid⟩

theorem Machine.fresh_memberFrame {E : Engine} {this : Ref} {member : Member} {args : ArgValues} {frame : Frame}
    (hrun : memberFrame E this member args w = (.ok frame, w')) : frame.Fresh := by
  unfold memberFrame at hrun
  cases hbody : member.body with
  | script arena params body =>
    rw [hbody] at hrun
    obtain ⟨context, w₁, -, hrun⟩ := exists_of_bind_eq_ok hrun
    obtain ⟨⟨bound, after⟩, w₂, -, hrun⟩ := exists_of_bind_eq_ok hrun
    cases bound with
    | ok _ =>
      cases hrun
      exact .script ..
    | error e =>
      obtain ⟨⟨⟩, w₃, -, hraise⟩ := exists_of_bind_eq_ok hrun
      cases hraise
  | coroutine params code =>
    rw [hbody] at hrun
    obtain ⟨values, w₁, -, hrun⟩ := exists_of_bind_eq_ok hrun
    obtain ⟨context, w₂, -, hrun⟩ := exists_of_bind_eq_ok hrun
    cases hrun
    exact .native ..
  | method params run =>
    rw [hbody] at hrun
    obtain ⟨⟨⟩, w₁, -, hraise⟩ := exists_of_bind_eq_ok hrun
    cases hraise

/-- A coroutine that was started with its first step left to the next update waits in the queue of its Mind. -/
theorem Machine.Starts.startBody (h : Starts σ s w) {target : Ref} {member : String} {args : List Ref}
    (hrun : Machine.startBody (.ofBudget n) target member args m true w = (.ok (.ok x), w')) :
    ¬ w.Issued m x.frame ∧ x.frame ∈ w'.pending m ∧ w'.Shelved m x.frame x := by
  unfold Machine.startBody at hrun
  obtain ⟨values, w₁, hshare, hrun⟩ := exists_of_bind_eq_ok hrun
  obtain ⟨result, w₂, hstart, hrun⟩ := exists_of_bind_eq_ok hrun
  obtain ⟨result', w₃, hblame, hrun⟩ := exists_of_bind_eq_ok hrun
  obtain ⟨⟨⟩, w₄, hsettle, hrun⟩ := exists_of_bind_eq_ok hrun
  cases hrun
  cases result with
  | error e =>
    unfold blame at hblame
    obtain ⟨⟨⟩, w₅, -, hblame⟩ := exists_of_bind_eq_ok hblame
    cases hblame
  | ok y =>
    cases hblame
    have hstart := ok_of_attempt hstart
    unfold startMember at hstart
    obtain ⟨member', w₅, hresolve, hstart⟩ := exists_of_bind_eq_ok hstart
    obtain ⟨⟨⟩, w₆, hretain, hstart⟩ := exists_of_bind_eq_ok hstart
    unfold spawnMember at hstart
    rw [get_bind] at hstart
    obtain ⟨h₁, hnames₁⟩ := h.ends (n := n) (Alike.shareArgs args) hshare
    obtain ⟨h₅, hnames₅⟩ := h₁.ends (n := n) ((Alike.resolveCall ..).elseRelease _) hresolve
    obtain ⟨h₆, hnames₆⟩ := h₅.ends (n := n) (Alike.retain target) hretain
    split at hstart
    · obtain ⟨⟨⟩, w₇, -, hraise⟩ := exists_of_bind_eq_ok hstart
      cases hraise
    next howns =>
    split at hstart
    · obtain ⟨⟨⟩, w₇, -, hraise⟩ := exists_of_bind_eq_ok hstart
      cases hraise
    obtain ⟨frame, w₇, hframe, hstart⟩ := exists_of_bind_eq_ok hstart
    have hthere : Starts { σ with minds := w₆.minds.size } s w₆ := ⟨h₆.valid, h₆.head, Nat.le_refl _, h₆.deferred⟩
    obtain ⟨h₇, hnames₇⟩ := hthere.ends (Alike.memberFrame ..) hframe
    have hm : m.index < w₆.minds.size := by simpa [World.ownsMind] using howns
    have hdefer : Machine.deferFrame m member'.name member'.owner none frame w₇ = (.ok x, w₂) := hstart
    obtain ⟨hnew, hqueued, hshelved⟩ :=
      h₇.deferFrame (Nat.lt_of_lt_of_le hm h₇.minds) member'.name member'.owner (fun p hp ↦ by cases hp) frame hdefer
    have hissued : w.Names w₇ := ((hnames₁.trans hnames₅).trans hnames₆).trans hnames₇
    have hbasic : Basic { σ with minds := w₆.minds.size, scoping := σ.scoping }
        (Machine.deferFrame m member'.name member'.owner none frame) :=
      .deferFrame m member'.name member'.owner none frame hm (fun p hp ↦ by cases hp) (fresh_memberFrame hframe)
    have h₂ := h₇.basic hbasic
    rw [hdefer] at h₂
    have hsettled : Basic { σ with minds := w₆.minds.size } (modify fun w ↦ w.settleMind m) := .settleMind m
    have hreserves := hsettled.reserves h₂.valid h₂.head h₂.minds
    have hpending : w'.pending m = w₂.pending m := by
      cases hsettle
      exact World.pending_settleMind w₂ m m
    rw [hsettle] at hreserves
    exact ⟨fun hold ↦ hnew (hissued.issued m _ hold), hpending ▸ hqueued,
      hreserves.shelved h₂.deferred m _ x hqueued (hpending ▸ hqueued) hshelved⟩

end

end MindScript
