import MindScript.Proofs.Along
import MindScript.Proofs.Wakeups.Identities
import MindScript.Proofs.Wakeups.Naps

/-!
# Deferred frames

The first step of a deferred frame waits for the next update of its Mind.  Until then the frame does not sleep, so
nothing else resumes it; and it stands in the queue once, so nobody does so after its first step on account of the
queue.  This cannot be told from the deeds one by one: what keeps it is that whoever is resumed is new, or sleeps, or
has just left the queue.
-/

namespace MindScript

open Machine

namespace World

/-- The queues hold frames that were registered, each once and in the order in which they were registered, and none that
sleeps. -/
structure Deferred (w : World) : Prop where
  once : ∀ m, (w.pending m).Nodup
  issued : ∀ m, ∀ k ∈ w.pending m, w.Issued m k
  awake : ∀ m, ∀ k ∈ w.pending m, ∀ e, w.entryAt m k = some e → e.wake = none
  ordered : ∀ m, (w.pending m).Pairwise fun k j ↦ ∀ e e', w.entryAt m k = some e → w.entryAt m j = some e' →
    e.handle.outcome.index < e'.handle.outcome.index

/-- The queues stay in order, and only new frames come into them. -/
structure Defers (v w : World) : Prop where
  deferred : v.Deferred → w.Deferred
  added : ∀ m, ∀ k ∈ w.pending m, k ∈ v.pending m ∨ ¬ v.Issued m k
  issued : ∀ m k, v.Issued m k → w.Issued m k

/-- No frame in a queue has begun its first step. -/
def Untried (w : World) : Prop := ∀ m, ∀ k ∈ w.pending m, w.Unbegun m k

/-- Moreover no frame in them begins its first step. -/
structure Reserves (v w : World) : Prop extends Defers v w where
  untried : v.Untried → w.Untried
  shelved : v.Deferred → ∀ m k x, k ∈ v.pending m → k ∈ w.pending m → v.Shelved m k x → w.Shelved m k x

variable {u v w : World} {m : MindId} {k : FrameId}

end World

/-! ### Deeds -/

/-- Whoever sleeps after a deed has slept before, or comes back from its step. -/
theorem Deed.wakes {pumped : Option MindId} {M M' : Moment} (h : Deed pumped M M') (hvalid : M.Valid) {m : MindId}
    {k : FrameId} {e' : FrameEntry} (he' : M'.world.entryAt m k = some e') :
    (e'.wake = none ∨ ∃ e, M.world.entryAt m k = some e ∧ e'.wake = e.wake) ∨ M.stack = (m, k) :: M'.stack := by
  cases h.origin hvalid he' with
  | awake hawake => exact .inl (.inl hawake.wake)
  | slept he hnaps => exact .inl (.inr ⟨_, he, hnaps.wake⟩)
  | returned hreturned _ _ => exact .inr hreturned
  | notified _ he _ heq => exact .inl (.inr ⟨_, he, heq ▸ rfl⟩)

theorem Course.wakes {pumped : Option MindId} {s : List FrameKey} {w : World} {N : Moment} (h : Course pumped ⟨s, w⟩ N)
    (hvalid : Moment.Valid ⟨s, w⟩) {m : MindId} {k : FrameId} {e' : FrameEntry} (he' : N.world.entryAt m k = some e') :
    e'.wake = none ∨ ∃ e, w.entryAt m k = some e ∧ e'.wake = e.wake := by
  induction h generalizing e' with
  | refl => exact .inr ⟨e', he', rfl⟩
  | @tail L N hcourse hdeed ih =>
    obtain ⟨hdeed, hstack, -⟩ := hdeed
    rcases hdeed.wakes (hvalid.journey (Course.journey hcourse)) he' with (hnone | ⟨e, he, hwake⟩) | hreturned
    · exact .inl hnone
    · rw [hwake]
      exact ih he
    · exact absurd (hstack.trans hreturned) (List.cons_ne_self _ _).symm

/-- What every deed keeps with which no step begins or ends holds at the end of a course if it holds at its start. -/
theorem Course.keeps {pumped : Option MindId} {P : World → Prop} {s : List FrameKey} {w : World} {N : Moment}
    (h : Course pumped ⟨s, w⟩ N) (hvalid : Moment.Valid ⟨s, w⟩)
    (hP : ∀ {L L' : Moment}, Deed pumped L L' → L.Valid → L'.stack = L.stack → P L.world → P L'.world) (hw : P w) :
    P N.world := by
  induction h with
  | refl => exact hw
  | tail hcourse hdeed ih => exact hP hdeed.1 (hvalid.journey (Course.journey hcourse)) hdeed.2.1 ih

section

variable {pumped : Option MindId} {s : List FrameKey} {w : World} {N : Moment} {m : MindId} {k : FrameId}

theorem Course.shelved (h : Course pumped ⟨s, w⟩ N) (hvalid : Moment.Valid ⟨s, w⟩) {x : Handle}
    (hk : w.Shelved m k x) : N.world.Shelved m k x :=
  h.keeps (P := fun w ↦ w.Shelved m k x) hvalid
    (fun hdeed hvalid hstack ↦ hdeed.shelved hvalid fun heq ↦ List.cons_ne_self _ _ (heq.symm.trans hstack)) hk

theorem Course.unbegun (h : Course pumped ⟨s, w⟩ N) (hvalid : Moment.Valid ⟨s, w⟩) (hk : w.Unbegun m k) :
    N.world.Unbegun m k :=
  h.keeps (P := fun w ↦ w.Unbegun m k) hvalid
    (fun hdeed hvalid hstack ↦ hdeed.unbegun hvalid fun heq ↦ List.cons_ne_self _ _ (heq.symm.trans hstack)) hk

end

namespace World

variable {u v w : World}

/-- What becomes of a queue: it stays as it was, or a new frame comes to its end, or frames leave it in an update of the
Mind. -/
inductive Turnover (pumped : Option MindId) (m : MindId) (v w : World) : Prop where
  | same : w.pending m = v.pending m → Turnover pumped m v w
  | joined (k : FrameId) : ¬ v.Issued m k → w.Issued m k → w.pending m = v.pending m ++ [k] → Turnover pumped m v w
  | left : pumped = some m → (w.pending m).Sublist (v.pending m) → Turnover pumped m v w

theorem Turnover.mem {pumped : Option MindId} (h : Turnover pumped m v w) (hk : k ∈ w.pending m) :
    k ∈ v.pending m ∨ ¬ v.Issued m k ∧ w.Issued m k := by
  cases h with
  | same heq => exact .inl (heq ▸ hk)
  | joined j hnew hissued heq =>
    rw [heq] at hk
    refine (List.mem_append.mp hk).imp_right fun hj ↦ ?_
    rw [List.mem_singleton.mp hj]
    exact ⟨hnew, hissued⟩
  | left _ hsublist => exact .inl (hsublist.subset hk)

/-- Frames in the queues do not fall asleep. -/
theorem Defers.of_turnover {pumped : Option MindId} (hfiled : v.Filed) (hnames : Names v w)
    (hturnover : ∀ m, Turnover pumped m v w) (hwakes : ∀ m, ∀ k ∈ w.pending m, ∀ e', w.entryAt m k = some e' →
      e'.wake = none ∨ ∃ e, v.entryAt m k = some e ∧ e'.wake = e.wake) : Defers v w where
  deferred hv := by
    have hsorted : ∀ m (l : List FrameId), l.Sublist (v.pending m) → l.Nodup ∧ l.Pairwise fun k j ↦ ∀ e e', w.entryAt m k = some e →
        w.entryAt m j = some e' → e.handle.outcome.index < e'.handle.outcome.index := by
      refine fun m l hl ↦ ⟨(hv.once m).sublist hl, ((hv.ordered m).sublist hl).imp_of_mem ?_⟩
      intro k j hk hj hlt e' e₁' he' he₁'
      obtain ⟨e, he, heq⟩ := (hnames.entry m k e' he').resolve_right fun hnew ↦ hnew.1 (hv.issued m k (hl.subset hk))
      obtain ⟨e₁, he₁, heq₁⟩ := (hnames.entry m j e₁' he₁').resolve_right fun hnew ↦ hnew.1 (hv.issued m j (hl.subset hj))
      rw [heq, heq₁]
      exact hlt e e₁ he he₁
    have hboth : ∀ m, (w.pending m).Nodup ∧ (w.pending m).Pairwise fun k j ↦ ∀ e e', w.entryAt m k = some e →
        w.entryAt m j = some e' → e.handle.outcome.index < e'.handle.outcome.index := by
      intro m
      cases hturnover m with
      | same heq => exact hsorted m _ (heq ▸ .refl _)
      | joined k hnew _ heq =>
        obtain ⟨honce, hordered⟩ := hsorted m _ (.refl _)
        rw [heq]
        refine ⟨List.concat_eq_append ▸ honce.concat fun hk ↦ hnew (hv.issued m k hk),
          List.pairwise_append.mpr ⟨hordered, List.pairwise_singleton _ _, ?_⟩⟩
        -- Whoever was registered before has an outcome among those that there were.
        rintro j hj _ hk e e' he he'
        obtain rfl := List.mem_singleton.mp hk
        obtain ⟨e₀, he₀, hhandle⟩ := (hnames.entry m j e he).resolve_right fun hnew ↦ hnew.1 (hv.issued m j hj)
        have hlast := (hnames.entry m _ e' he').resolve_left fun ⟨e₁, he₁, _⟩ ↦ hnew (.of_stored he₁)
        rw [hhandle]
        exact Nat.lt_of_lt_of_le (index_of_cell? (hfiled.stored m j e₀ he₀)) hlast.2
      | left _ hsublist => exact hsorted m _ hsublist
    refine ⟨fun m ↦ (hboth m).1, fun m k hk ↦ ?_, fun m k hk e' he' ↦ ?_, fun m ↦ (hboth m).2⟩
    · exact ((hturnover m).mem hk).elim (fun hold ↦ hnames.issued m k (hv.issued m k hold)) And.right
    · rcases hwakes m k hk e' he' with hnone | ⟨e, he, hwake⟩
      · exact hnone
      · rw [hwake]
        exact hv.awake m k (((hturnover m).mem hk).resolve_right fun hnew ↦ hnew.1 (.of_stored he)) e he
  added m k hk := ((hturnover m).mem hk).imp_right And.left
  issued := hnames.issued

theorem Defers.of_deed {pumped : Option MindId} {M M' : Moment} (h : Deed pumped M M') (hvalid : M.Valid)
    (hpending : ∀ m, M'.world.pending m = M.world.pending m)
    (hback : ∀ m k, M.stack = (m, k) :: M'.stack → k ∉ M.world.pending m) : Defers M.world M'.world :=
  .of_turnover hvalid.sound.filed (h.names hvalid) (fun m ↦ (.same (hpending m) : Turnover pumped m _ _))
    fun m k hk _ he' ↦ (h.wakes hvalid he').resolve_right fun hreturned ↦ hback m k hreturned (hpending m ▸ hk)

namespace Reserves

theorem refl (w : World) : Reserves w w := ⟨⟨id, fun _ _ ↦ .inl, fun _ _ ↦ id⟩, id, fun _ _ _ _ _ _ ↦ id⟩

theorem trans (h : Reserves u v) (h' : Reserves v w) : Reserves u w := by
  refine ⟨⟨fun hu ↦ h'.deferred (h.deferred hu), fun m k hk ↦ ?_, fun m k hk ↦ h'.issued m k (h.issued m k hk)⟩,
    fun hu ↦ h'.untried (h.untried hu), fun hu m k x hk hk' hx ↦ ?_⟩
  · rcases h'.added m k hk with hk | hnew
    · exact h.added m k hk
    · exact .inr fun hk ↦ hnew (h.issued m k hk)
  -- Whoever is in the queue at both ends is in it all the time.
  · have hmid : k ∈ v.pending m := (h'.added m k hk').resolve_right fun hnew ↦
      hnew (h.issued m k (hu.issued m k hk))
    exact h'.shelved (h.deferred hu) m k x hmid hk' (h.shelved hu m k x hk hmid hx)

theorem of_course {pumped : Option MindId} {s : List FrameKey} (h : Course pumped ⟨s, v⟩ ⟨s, w⟩)
    (hvalid : Moment.Valid ⟨s, v⟩) (hturnover : ∀ m, Turnover pumped m v w) : Reserves v w where
  toDefers := .of_turnover hvalid.sound.filed (h.journey.names hvalid) hturnover fun _ _ _ _ ↦ h.wakes hvalid
  untried hv m k hk := by
    refine h.unbegun hvalid fun e he ↦ ?_
    rcases (hturnover m).mem hk with hold | ⟨hnew, -⟩
    · exact hv m k hold e he
    · exact absurd (.of_stored he) hnew
  shelved _ _ _ _ _ _ := h.shelved hvalid

theorem of_still (h : Still v w) (hpending : ∀ m, w.pending m = v.pending m) : Reserves v w := by
  refine ⟨⟨fun hv ↦ ⟨fun m ↦ hpending m ▸ hv.once m, fun m k hk ↦ (hv.issued m k (hpending m ▸ hk)).still h,
    fun m k hk e he ↦ ?_, fun m ↦ ?_⟩, fun m k hk ↦ .inl (hpending m ▸ hk), fun m k hk ↦ hk.still h⟩,
    fun hv m k hk e he ↦ ?_, fun _ m k x _ _ ↦ ?_⟩
  · rw [h.entryAt] at he
    exact hv.awake m k (hpending m ▸ hk) e he
  · rw [h.entryAt, hpending]
    exact hv.ordered m
  · rw [h.entryAt] at he
    rw [h.status]
    exact hv m k (hpending m ▸ hk) e he
  · rw [Shelved, Shelved, h.status, h.entryAt]
    exact id

theorem of_deed {pumped : Option MindId} {M M' : Moment} (h : Deed pumped M M') (hvalid : M.Valid)
    (hpending : ∀ m, M'.world.pending m = M.world.pending m)
    (hbegin : ∀ m k, M'.stack = (m, k) :: M.stack → k ∉ M.world.pending m)
    (hback : ∀ m k, M.stack = (m, k) :: M'.stack → k ∉ M.world.pending m) : Reserves M.world M'.world where
  toDefers := .of_deed h hvalid hpending hback
  untried hM m k hk :=
    have hk : k ∈ M.world.pending m := hpending m ▸ hk
    h.unbegun hvalid (fun hbegun ↦ hbegin m k hbegun hk) (hM m k hk)
  shelved _ m k _ hk _ := h.shelved hvalid fun hbegun ↦ hbegin m k hbegun hk

end Reserves

/-! ### Basic actions -/

theorem pending_of_minds (h : w.minds = v.minds) (m : MindId) : w.pending m = v.pending m := by
  rw [pending, pending, mind?, mind?, h]

theorem pending_register (w : World) (m m' : MindId) (name : String) (owner : ClassId) (parent : Option FrameId)
    (frame : Frame) : (w.register m' name owner parent frame).2.pending m = w.pending m :=
  congrArg (·.getD []) (map_mind?_register (g := Mind.pending) (fun _ _ _ _ _ ↦ rfl) w m m' name owner parent frame)

theorem pending_sweep (w : World) (m m' : MindId) : (w.sweep m').pending m = w.pending m :=
  congrArg (·.getD []) (map_mind?_sweep (g := Mind.pending) (fun _ _ _ _ ↦ rfl) w m m')

theorem pending_settleMind (w : World) (m m' : MindId) : (w.settleMind m').pending m = w.pending m := by
  unfold settleMind
  split
  · rfl
  · exact pending_sweep w m m'

theorem pending_foldl {α : Type} {f : World → α → World} {m : MindId} (hf : ∀ w a, (f w a).pending m = w.pending m)
    (xs : List α) (w : World) : (xs.foldl f w).pending m = w.pending m :=
  rel_foldl (R := fun w w' ↦ w'.pending m = w.pending m) (fun _ ↦ rfl) (fun h h' ↦ h'.trans h) hf xs w

theorem pending_stopFrame (w : World) (m m' : MindId) (id : FrameId) : (stopFrame m' w id).pending m = w.pending m :=
  ((closing_bookkept m').stopFrame w id).pending m

theorem pending_stop (w : World) (m : MindId) (x : Handle) : (w.stop x).pending m = w.pending m := by
  unfold stop
  split
  · exact (pending_settleMind ..).trans (pending_stopFrame ..)
  · rfl

theorem pending_stopAll (w : World) (m m' : MindId) : (w.stopAll m').pending m = w.pending m := by
  unfold stopAll
  split
  · rfl
  · exact (pending_settleMind ..).trans (pending_foldl (fun w id ↦ pending_stopFrame w m m' id) ..)

theorem pending_stopAllFor (w : World) (m : MindId) (r : Ref) : (w.stopAllFor r).pending m = w.pending m := by
  refine pending_foldl (fun w m' ↦ ?_) w.mindIds w
  unfold stopOnMind
  split
  · rfl
  · exact (pending_settleMind ..).trans (pending_foldl (fun w id ↦ pending_stopFrame w m m' id) ..)

theorem pending_modifyMind (w : World) (m m' : MindId) {f : Mind → Mind} (hf : ∀ mind, (f mind).pending = mind.pending) :
    (w.modifyMind m' f).pending m = w.pending m :=
  congrArg (·.getD []) (w.map_mind?_modifyMind fun _ mind ↦ hf mind)

/-- Put a frame at the end of a queue. -/
theorem pending_defer (w : World) (m m' : MindId) (k : FrameId) :
    (w.modifyMind m fun mind ↦ { mind with pending := mind.pending ++ [k] }).pending m' = w.pending m' ∨
      m' = m ∧ (w.modifyMind m fun mind ↦ { mind with pending := mind.pending ++ [k] }).pending m' = w.pending m' ++ [k] := by
  rw [World.pending, World.pending, mind?_modifyMind]
  split
  · next heq =>
    subst heq
    cases w.mind? m' with
    | none => exact .inl rfl
    | some mind => exact .inr ⟨rfl, rfl⟩
  · exact .inl rfl

theorem pending_popPending (w : World) (m m' : MindId) : (popPending m' w).2.pending m = w.pending m ∨
    m' = m ∧ ((popPending m' w).2.pending m).Sublist (w.pending m) := by
  rw [popPending, modifyGet_apply]
  dsimp only
  split
  · next id rest hpending =>
    rw [World.pending, mind?_modifyMind]
    split
    · next heq =>
      subst heq
      rw [World.pending]
      cases hmind : w.mind? m with
      | none => exact .inl rfl
      | some mind =>
        rw [hmind] at hpending
        have hfirst : mind.pending = id :: rest := Option.some.inj hpending
        refine .inr ⟨rfl, ?_⟩
        change rest.Sublist mind.pending
        rw [hfirst]
        exact List.sublist_cons_self id rest
    · exact .inl rfl
  · exact .inl rfl

theorem pending_popReady (w : World) (m m' : MindId) : (popReady m' w).2.pending m = w.pending m := by
  rw [popReady, modifyGet_apply]
  dsimp only
  split
  · exact pending_modifyMind w m m' fun _ ↦ rfl
  · rfl

theorem minds_onClasses {α : Type} (act : Registry.Action α) (w : World) : (onClasses act w).2.minds = w.minds := by
  unfold onClasses
  rcases act w.classes with ⟨_ | _, classes⟩
  · rfl
  · rfl

end World

open World in
/-- Queues change as new frames are put into them and others taken out. -/
theorem Machine.Basic.turnover {σ : Setting} {α : Type} {f : Machine α} (h : Basic σ f) {s : List FrameKey} {w : World}
    (hvalid : Moment.Valid ⟨s, w⟩) (hhead : s.head? = σ.current) (hminds : σ.minds ≤ w.minds.size) (m : MindId) :
    Turnover σ.pumping m w (f w).2 := by
  cases h with
  | register m' name owner parent frame => exact .same (pending_register w m m' name owner parent frame)
  | deferFrame m' name owner parent frame hm hparent =>
    have hregistered := hvalid.registered name owner frame (Nat.lt_of_lt_of_le hm hminds) fun p hp ↦ hhead.trans (hparent p hp)
    set w₁ := (w.register m' name owner parent frame).2
    set k := (w.register m' name owner parent frame).1.frame
    have hsame : w₁.pending m = w.pending m := pending_register w m m' name owner parent frame
    have hdefer : Still w₁ (w₁.modifyMind m' fun mind ↦ { mind with pending := mind.pending ++ [k] }) :=
      still_modifyMind w₁ m' (fun _ ↦ rfl) fun _ ↦ rfl
    obtain ⟨frame', hfresh⟩ := hregistered.fresh
    obtain ⟨e, he, -⟩ := card_eq_some_iff.mp hfresh
    have hissued : w₁.Issued m' k := .of_stored he
    rcases pending_defer w₁ m' m k with heq | ⟨rfl, heq⟩
    · exact .same (heq.trans hsame)
    · exact .joined k (not_issued_register hvalid.sound.filed.tidy m name owner parent frame) (hissued.still hdefer)
        (heq.trans (congrArg (· ++ [k]) hsame))
  | settleMind m' => exact .same (pending_settleMind w m m')
  | stop x => exact .same (pending_stop w m x)
  | stopAll m' => exact .same (pending_stopAll w m m')
  | stopAllFor r => exact .same (pending_stopAllFor w m r)
  | detachChildren m' id => exact .same ((bookkept_detachChildren w m' id).pending m)
  | notify m' event payload => exact .same ((bookkept_notify w m' event payload).pending m)
  | createMind name => exact .same ((bookkept_createMind w name).pending m)
  | setSuspended m' suspended => exact .same (pending_modifyMind w m m' fun _ ↦ rfl)
  | setUpdateInterval x seconds => exact .same ((bookkept_setUpdateInterval w x seconds).pending m)
  | @popReady m' => exact .same (pending_popReady w m m')
  | @popPending m' hpumping =>
    rcases pending_popPending w m m' with heq | ⟨rfl, hsublist⟩
    · exact .same heq
    · exact .left hpumping hsublist
  | @beginUpdate m' _ elapsed => exact .same (pending_modifyMind w m m' fun _ ↦ rfl)
  | @endUpdate m' =>
    refine .same (Eq.trans ?_ (pending_sweep w m m'))
    exact pending_modifyMind (f := fun mind ↦ { mind with updating := false }) (w.sweep m') m m' fun _ ↦ rfl
  | store name value place => cases place <;> exact .same (pending_of_minds rfl m)
  | findMember c name => exact .same (pending_of_minds (minds_onClasses ..) m)
  | resolve c name qualifier => exact .same (pending_of_minds (minds_onClasses ..) m)
  | _ => exact .same (pending_of_minds rfl m)

theorem Machine.Basic.reserves {σ : Setting} {α : Type} {f : Machine α} (h : Basic σ f) {s : List FrameKey} {w : World}
    (hvalid : Moment.Valid ⟨s, w⟩) (hhead : s.head? = σ.current) (hminds : σ.minds ≤ w.minds.size) :
    w.Reserves (f w).2 :=
  .of_course (h.course hhead hminds) hvalid (h.turnover hvalid hhead hminds)

/-! ### Actions -/

namespace World

theorem leading_reserves : Leading (fun _ w ↦ w.Deferred) Reserves where
  refl := .refl
  trans := .trans
  keeps h hreserves := hreserves.deferred h
  begins := by
    intro pumping m mind s w elapsed h hvalid _ _
    have hbegin : Basic ⟨s.head?, 0, true, some m⟩ (beginUpdate m elapsed) := .beginUpdate rfl elapsed
    have hreserves := hbegin.reserves hvalid rfl (Nat.zero_le _)
    exact ⟨hreserves, hreserves.deferred h⟩
  basic h hvalid hhead hminds _ := h.reserves hvalid hhead hminds
  context _ _ := .of_still ⟨rfl, rfl, rfl⟩ fun _ ↦ rfl
  callStack _ _ := .of_still ⟨rfl, rfl, rfl⟩ fun _ ↦ rfl

/-- A frame that is due sleeps. -/
theorem exists_of_isDue {w : World} {m : MindId} {id : FrameId} (h : w.isDue m id = true) :
    ∃ e, w.entryAt m id = some e ∧ e.wake.isSome = true := by
  rcases Bool.or_eq_true_iff.mp h with hdue | hcond
  · unfold timeWakeDue at hdue
    cases hmind : w.mind? m with
    | none => simp [hmind] at hdue
    | some mind =>
      cases he : mind.entryAt id with
      | none => simp [hmind, he] at hdue
      | some e =>
        refine ⟨e, Option.bind_eq_some_iff.mpr ⟨mind, hmind, he⟩, ?_⟩
        cases hwake : e.wake with
        | none => simp [hmind, he, hwake] at hdue
        | some wake => rfl
  · obtain ⟨e, he, -, hhappened⟩ := conditionHolds_iff.mp hcond
    refine ⟨e, he, ?_⟩
    cases hhappened with
    | delivered hwake _ => rw [hwake]; rfl
    | finished hwake _ => rw [hwake]; rfl
    | decided hwake _ _ _ => rw [hwake]; rfl
    | childless hwake _ _ => rw [hwake]; rfl

theorem Deferred.not_mem_of_isDue {w : World} (hw : w.Deferred) {m : MindId} {id : FrameId} (h : w.isDue m id = true) :
    id ∉ w.pending m := by
  intro hk
  obtain ⟨e, he, hwake⟩ := exists_of_isDue h
  rw [hw.awake m id hk e he] at hwake
  cases hwake

end World

namespace Machine

/-- An action that keeps the queues in order. -/
abbrev Queues {α : Type} (σ : Setting) (f : Machine α) : Prop := Leads (fun _ w ↦ w.Deferred) World.Reserves σ f

/-- So does a step of a frame that is not in its queue. -/
theorem Queues.resumeFrame {σ : Setting} {E : Engine} {m : MindId} {id : FrameId}
    (hbody : ∀ i frame delivered, Queues { σ with current := some (m, id), scoping := true }
      (stepInvocation E m id i frame delivered)) :
    Leads (fun _ w ↦ w.Deferred ∧ id ∉ w.pending m) World.Reserves σ (resumeFrame E m id) := by
  refine ⟨Tracked.compositional.step m id fun i frame delivered ↦ (hbody i frame delivered).tracked,
    fun s w hvalid hhead hminds hw ↦ ?_⟩
  rcases resumeFrame_cases m id w with hsame | ⟨entry, frame, he, hu, hframe⟩
  · rw [hsame]
    exact .refl w
  have hbegin : Deed none ⟨s, w⟩ ⟨(m, id) :: s, w.takeFrame m id entry frame⟩ := .begin he hu hframe
  have htaken : w.Bookkept (w.takeFrame m id entry frame) := World.bookkept_takeFrame ..
  rw [resumeFrame_of_stored he hu hframe]
  refine Leads.runFrame World.leading_reserves (fun i ↦ hbody i frame entry.delivered) hvalid hminds hw.1 he hu hframe
    (.of_deed hbegin hvalid htaken.pending (fun m' k heq ↦ ?_) fun m' k heq ↦ ?_) fun i w₁ body step _ hvalid₁ hdefers _ ↦ ?_
  · obtain ⟨rfl, rfl⟩ := Prod.mk.inj (List.cons.inj heq).1
    exact hw.2
  · have hlength : s.length = s.length + 1 + 1 := congrArg List.length heq
    omega
  · have henter : w₁.Bookkept (w₁.enter w.context s.head?) := .of_minds rfl
    let after : Frame := { frame with context := w₁.context, body, updateCount := frame.updateCount + 1 }
    have hback : Deed none ⟨(m, id) :: s, w₁⟩ ⟨s, (w₁.enter w.context s.head?).returnFrame m id after step⟩ :=
      .back w.context after step
    refine .of_deed hback hvalid₁ (henter.trans (World.bookkept_returnFrame ..)).pending (fun m' k heq ↦ ?_)
      fun m' k heq hk ↦ ?_
    · have hlength : s.length = s.length + 1 + 1 := congrArg List.length heq
      omega
    obtain ⟨rfl, rfl⟩ := Prod.mk.inj (List.cons.inj heq).1
    rcases hdefers.added m id hk with hk | hnew
    · exact hw.2 (htaken.pending m ▸ hk)
    · exact hnew (htaken.issued m id (.of_stored he))

end Machine

/-! ### Engines -/

/-- The calls of the engine keep the queues in order. -/
structure Engine.Queues (E : Engine) : Prop where
  serves : E.Serves Machine.Queues
  resume : ∀ (σ : Setting) (m : MindId) (id : FrameId),
    Leads (fun _ w ↦ w.Deferred ∧ id ∉ w.pending m) World.Reserves σ (E.resume m id)

namespace Engine.Queues

variable {E : Engine}

theorem of_resume (heval : ∀ σ id, Machine.Queues σ (E.eval id))
    (hinvoke : ∀ σ this member args, Machine.Queues σ (E.invoke this member args))
    (hresume : ∀ (σ : Setting) (m : MindId) (id : FrameId),
      Leads (fun _ w ↦ w.Deferred ∧ id ∉ w.pending m) World.Reserves σ (E.resume m id)) : E.Queues where
  resume := hresume
  serves :=
    have hcomposite := Leads.composite World.leading_reserves
    { eval := heval
      invoke := hinvoke
      spawn := by
        intro σ α F m name owner parent frame hm hparent hfresh hF
        let h : World → Handle := fun w ↦ (w.register m name owner parent frame).1
        have hregister : Machine.Queues σ (registerFrame m name owner parent frame) :=
          hcomposite.basic (.register (σ := σ) m name owner parent frame hm hparent hfresh)
        have hrest := fun h : Handle ↦ Leads.bind_from World.leading_reserves (hresume σ m h.frame) fun _ ↦ hF h
        refine ⟨hregister.tracked.bind fun h ↦ (hrest h).tracked, fun s w hvalid hhead hminds hw ↦ ?_⟩
        have hregistered := hregister.leads s w hvalid hhead hminds hw
        obtain ⟨s₁, hrun, hs⟩ := hregister.tracked s w hvalid hhead hminds
        obtain rfl := hs fun heq ↦ by cases heq
        have hw₁ := hregistered.deferred hw
        -- The frame is new, so it is in no queue.
        have hnew := World.not_issued_register hvalid.sound.filed.tidy m name owner parent frame
        have hunqueued : (h w).frame ∉ (w.register m name owner parent frame).2.pending m := fun hk ↦
          hnew (hw.issued m _ (World.pending_register w m m name owner parent frame ▸ hk))
        exact hregistered.trans ((hrest (h w)).leads s₁ _ (hvalid.journey hrun) hhead (hminds.trans hrun.run.minds_le)
          ⟨hw₁, hw₁, hunqueued⟩)
      due := by
        intro σ α F F' m id isDue _ hdue hF hF'
        have hrest := Leads.bind_from World.leading_reserves (hresume σ m id) fun _ ↦ hF
        refine ⟨Tracked.compositional.look fun w ↦ ?_, fun s w hvalid hhead hminds hw ↦ ?_⟩
        · split
          · exact hrest.tracked
          · exact hF'.tracked
        rw [get_bind]
        cases hcond : isDue w with
        | false => exact hF'.leads s w hvalid hhead hminds hw
        | true =>
          exact hrest.leads s w hvalid hhead hminds ⟨hw, hw, hw.not_mem_of_isDue (hdue w hcond)⟩
      pending := by
        intro σ α F F' m hpumped hF hF'
        have hpop : Machine.Queues σ (popPending m) := hcomposite.basic (.popPending (σ := σ) hpumped)
        have hrest := fun id ↦ Leads.bind_from World.leading_reserves (hresume σ m id) fun _ ↦ hF'
        refine ⟨hpop.tracked.bind fun id? ↦ ?_, fun s w hvalid hhead hminds hw ↦ ?_⟩
        · cases id? with
          | none => exact hF.tracked
          | some id => exact (hrest id).tracked
        rcases World.popPending_cases m w with ⟨heq, -⟩ | ⟨id, w₀, heq, hpending, -, hshifted⟩
        · rw [bind_of_ok heq]
          exact hF.leads s w hvalid hhead hminds hw
        · have hpopped := hpop.leads s w hvalid hhead hminds hw
          rw [heq] at hpopped
          have honce := hw.once m
          rw [hpending] at honce
          have hact : Act ⟨s, w⟩ ⟨s, w₀⟩ := hshifted.deed.act
          have hw₀ := hpopped.deferred hw
          rw [bind_of_ok heq]
          exact hpopped.trans ((hrest id).leads s w₀ (hvalid.act hact) hhead (hminds.trans hact.minds_le)
            ⟨hw₀, hw₀, (List.nodup_cons.mp honce).1⟩) }

end Engine.Queues

end MindScript
