import MindScript.Proofs.Scheduler.Ledger
import MindScript.Proofs.Scheduler.Reachable

/-!
# Every frame is listed

An update goes through the frames that its Mind lists.  No frame escapes it for want of being listed: at every moment
that an interpreter comes to, the lists hold the stored frames, each once, and nothing else.
-/

namespace MindScript

/-! ### What keeps the lists -/

namespace Mind

/-- The Mind lists and defers what it did, its clock stands where it stood, and the frames stored in it are those that
were stored before, under their handles. -/
structure Bookkept (a b : Mind) : Prop where
  live : b.live = a.live
  pending : b.pending = a.pending
  updating : b.updating = a.updating
  clock : b.clock = a.clock
  tick : b.tick = a.tick
  handle : ∀ k, (b.entryAt k).map FrameEntry.handle = (a.entryAt k).map FrameEntry.handle
  issued : ∀ k, a.Issued k → b.Issued k
  life : ∀ l, Life l a → ∃ l', Life l' b

namespace Bookkept

variable {a b c : Mind}

theorem refl (a : Mind) : Bookkept a a := ⟨rfl, rfl, rfl, rfl, rfl, fun _ ↦ rfl, fun _ ↦ id, fun l h ↦ ⟨l, h⟩⟩

theorem trans (h : Bookkept a b) (h' : Bookkept b c) : Bookkept a c := by
  refine ⟨h'.live.trans h.live, h'.pending.trans h.pending, h'.updating.trans h.updating, h'.clock.trans h.clock,
    h'.tick.trans h.tick, fun k ↦ (h'.handle k).trans (h.handle k), fun k hk ↦ h'.issued k (h.issued k hk), fun l hl ↦ ?_⟩
  obtain ⟨l', hl'⟩ := h.life l hl
  exact h'.life l' hl'

theorem of_slots (hslots : b.slots = a.slots) (hfree : b.free = a.free) (hlive : b.live = a.live)
    (hpending : b.pending = a.pending) (hupdating : b.updating = a.updating) (hclock : b.clock = a.clock)
    (htick : b.tick = a.tick) : Bookkept a b :=
  ⟨hlive, hpending, hupdating, hclock, htick, fun k ↦ by rw [entryAt_congr hslots], fun _ h ↦ h.congr hslots,
    fun l h ↦ ⟨l, .other hslots hfree hlive h⟩⟩

theorem stored (h : Bookkept a b) (k : FrameId) : (b.entryAt k).isSome = (a.entryAt k).isSome := by
  rw [← Option.isSome_map, h.handle k, Option.isSome_map]

end Bookkept

theorem bookkept_modifyEntry (a : Mind) (id : FrameId) {f : FrameEntry → FrameEntry}
    (hf : ∀ e, (f e).handle = e.handle) : Bookkept a (a.modifyEntry id f) := by
  refine ⟨rfl, rfl, rfl, rfl, rfl, fun k ↦ ?_, fun _ h ↦ h.modifyEntry id f, fun l h ↦ ⟨_, .change id f h⟩⟩
  rw [entryAt_modifyEntry]
  split
  · next heq =>
    rw [heq, Option.map_map]
    exact congrArg (Option.map · _) (funext hf)
  · rfl

theorem bookkept_wake (a : Mind) (ids : Array FrameId) : Bookkept a (a.wake ids) := by
  refine .of_slots (slots_wake a ids) (free_wake a ids) ?_ ?_ ?_ ?_ ?_ <;> unfold wake <;> split <;> rfl

theorem bookkept_record (a : Mind) (id : FrameId) (name : String) (s : FrameStatus) :
    Bookkept a (a.record id name s) := by
  refine .of_slots (slots_record a id name s) (free_record a id name s) ?_ ?_ ?_ ?_ ?_ <;> unfold record <;> split <;> rfl

end Mind

namespace World

theorem bookkept_leaveParent (a : Mind) (parent id : FrameId) : a.Bookkept (leaveParent a parent id) := by
  have herase : a.Bookkept (a.modifyEntry parent fun e ↦ e.without id) := a.bookkept_modifyEntry parent fun _ ↦ rfl
  unfold leaveParent
  split
  · exact .refl a
  · dsimp only
    split
    · exact herase.trans (Mind.bookkept_wake ..)
    · exact herase

theorem bookkept_settleEntry (a : Mind) (id : FrameId) (entry : FrameEntry) (s : FrameStatus)
    (failure : Option FrameFailure) : a.Bookkept (settleEntry a id entry s failure) := by
  have hsettled : a.Bookkept (a.modifyEntry id FrameEntry.settled) := a.bookkept_modifyEntry id fun _ ↦ rfl
  have hrecord := hsettled.trans
    (Mind.bookkept_record _ id entry.handle.name s)
  have hleft : a.Bookkept (parted a id entry s) := by
    unfold parted
    cases entry.parent with
    | none => exact hrecord
    | some parent => exact hrecord.trans (bookkept_leaveParent ..)
  have hwoken := hleft.trans (Mind.bookkept_wake _ entry.waiters)
  rw [settleEntry_eq]
  cases failure with
  | none => exact hwoken.trans (.of_slots rfl rfl rfl rfl rfl rfl rfl)
  | some f => exact hwoken.trans (.of_slots rfl rfl rfl rfl rfl rfl rfl)

theorem bookkept_enlist (a : Mind) (m : MindId) (id : FrameId) (wake : Wake) :
    a.Bookkept (enlist a m id wake) := by
  unfold enlist
  split
  · split
    · exact a.bookkept_modifyEntry _ fun _ ↦ rfl
    · exact .refl a
  · exact .refl a

/-- Every Mind has a life. -/
def Lived (w : World) : Prop := ∀ m mind, w.mind? m = some mind → ∃ l, Mind.Life l mind

/-- The Mind has handed the identity out. -/
def Issued (w : World) (m : MindId) (id : FrameId) : Prop := ∃ mind, w.mind? m = some mind ∧ mind.Issued id

/-- No Mind lists, defers or stores other frames than it did, or begins or ends an update. -/
structure Bookkept (w w' : World) : Prop where
  live : ∀ m, w'.live m = w.live m
  pending : ∀ m, w'.pending m = w.pending m
  updating : ∀ m, w'.isUpdating m = w.isUpdating m
  clock : ∀ m, w'.clock m = w.clock m
  tick : ∀ m, w'.tick m = w.tick m
  handle : ∀ m k, (w'.entryAt m k).map FrameEntry.handle = (w.entryAt m k).map FrameEntry.handle
  issued : ∀ m k, w.Issued m k → w'.Issued m k
  lived : w.Lived → w'.Lived

namespace Bookkept

variable {w w' w'' : World}

theorem refl (w : World) : Bookkept w w :=
  ⟨fun _ ↦ rfl, fun _ ↦ rfl, fun _ ↦ rfl, fun _ ↦ rfl, fun _ ↦ rfl, fun _ _ ↦ rfl, fun _ _ ↦ id, id⟩

theorem trans (h : Bookkept w w') (h' : Bookkept w' w'') : Bookkept w w'' :=
  ⟨fun m ↦ (h'.live m).trans (h.live m), fun m ↦ (h'.pending m).trans (h.pending m),
    fun m ↦ (h'.updating m).trans (h.updating m), fun m ↦ (h'.clock m).trans (h.clock m),
    fun m ↦ (h'.tick m).trans (h.tick m), fun m k ↦ (h'.handle m k).trans (h.handle m k),
    fun m k hk ↦ h'.issued m k (h.issued m k hk), fun hlived ↦ h'.lived (h.lived hlived)⟩

theorem of_minds (h : w'.minds = w.minds) : Bookkept w w' := by
  have hmind : w'.mind? = w.mind? := funext fun m ↦ by rw [mind?, mind?, h]
  refine ⟨fun m ↦ ?_, fun m ↦ ?_, fun m ↦ ?_, fun m ↦ ?_, fun m ↦ ?_, fun m k ↦ ?_, fun m k hk ↦ ?_,
    fun h m ↦ hmind ▸ h m⟩
  · rw [World.live, World.live, hmind]
  · rw [World.pending, World.pending, hmind]
  · rw [isUpdating, isUpdating, hmind]
  · rw [World.clock, World.clock, hmind]
  · rw [World.tick, World.tick, hmind]
  · rw [entryAt, hmind, entryAt]
  · obtain ⟨mind, hm, hk⟩ := hk
    exact ⟨mind, hmind ▸ hm, hk⟩

theorem stored (h : Bookkept w w') (m : MindId) (k : FrameId) : (w'.entryAt m k).isSome = (w.entryAt m k).isSome := by
  rw [← Option.isSome_map, h.handle m k, Option.isSome_map]

end Bookkept

theorem Lived.modifyMind {w : World} (hw : w.Lived) (m : MindId) {f : Mind → Mind}
    (hf : ∀ mind, w.mind? m = some mind → ∀ l, Mind.Life l mind → ∃ l', Mind.Life l' (f mind)) :
    (w.modifyMind m f).Lived := by
  intro m' mind' hmind'
  rw [mind?_modifyMind] at hmind'
  split at hmind'
  · obtain ⟨mind, hmind, rfl⟩ := Option.map_eq_some_iff.mp hmind'
    obtain ⟨l, hl⟩ := hw m mind hmind
    exact hf mind hmind l hl
  · exact hw m' mind' hmind'

theorem Issued.modifyMind {w : World} {m m' : MindId} {k : FrameId} (hk : w.Issued m' k) {f : Mind → Mind}
    (hf : ∀ mind, w.mind? m = some mind → mind.Issued k → (f mind).Issued k) : (w.modifyMind m f).Issued m' k := by
  obtain ⟨mind, hmind, hissued⟩ := hk
  rw [World.Issued, mind?_modifyMind]
  split
  · next heq =>
    subst heq
    rw [hmind]
    exact ⟨_, rfl, hf mind hmind hissued⟩
  · exact ⟨mind, hmind, hissued⟩

theorem bookkept_modifyMind (w : World) (m : MindId) {f : Mind → Mind}
    (h : ∀ mind : Mind, mind.Bookkept (f mind)) : Bookkept w (w.modifyMind m f) := by
  refine ⟨fun m' ↦ ?_, fun m' ↦ ?_, fun m' ↦ ?_, fun m' ↦ ?_, fun m' ↦ ?_, fun m' k ↦ ?_, fun m' k hk ↦ ?_,
    fun hw ↦ hw.modifyMind m fun mind _ ↦ (h mind).life⟩
  · rw [live, w.map_mind?_modifyMind fun _ mind ↦ congrArg Array.toList (h mind).live, live]
  · rw [pending, w.map_mind?_modifyMind fun _ mind ↦ (h mind).pending, pending]
  · rw [isUpdating, w.map_mind?_modifyMind fun _ mind ↦ (h mind).updating, isUpdating]
  · rw [clock, w.map_mind?_modifyMind fun _ mind ↦ (h mind).clock, clock]
  · rw [tick, w.map_mind?_modifyMind fun _ mind ↦ (h mind).tick, tick]
  · rw [entryAt_modifyMind]
    split
    · next heq =>
      rw [heq, entryAt]
      cases w.mind? m with
      | none => rfl
      | some mind => exact (h mind).handle k
    · rfl
  · exact hk.modifyMind fun mind _ ↦ (h mind).issued k

theorem bookkept_modifyEntry (w : World) (m : MindId) (id : FrameId) {f : FrameEntry → FrameEntry}
    (hf : ∀ e, (f e).handle = e.handle) : Bookkept w (w.modifyEntry m id f) :=
  w.bookkept_modifyMind m fun mind ↦ mind.bookkept_modifyEntry id hf

theorem bookkept_settle (w : World) (m : MindId) (id : FrameId) (ending : Ending) :
    Bookkept w (w.settle m id ending) := by
  unfold settle
  split
  · exact .of_minds rfl
  · next entry _ =>
    split
    · exact .of_minds rfl
    · let failure := (ending.error?.map (w.withFrameOrigin entry)).map (FrameFailure.mk id (w.frameName m id))
      have hmind := w.bookkept_modifyMind m fun mind ↦
        bookkept_settleEntry mind id entry ending.status failure
      exact hmind.trans (.of_minds rfl)

theorem closing_bookkept (m : MindId) : Closing m Bookkept where
  refl := .refl
  trans := .trans
  release _ _ := .of_minds rfl
  clear w id := bookkept_modifyEntry w m id fun _ ↦ rfl
  mark w id := bookkept_modifyEntry w m id fun _ ↦ rfl
  settle w id ending _ := bookkept_settle w m id ending

theorem bookkept_sleep (w : World) (m : MindId) (id : FrameId) (wake : Wake) :
    Bookkept w (w.sleep m id wake) := by
  unfold sleep
  split
  · exact .of_minds rfl
  · next entry _ =>
    have hstatus : Bookkept w (w.setStatus entry.handle .suspended) := .of_minds rfl
    refine hstatus.trans (bookkept_modifyMind _ m fun mind ↦ ?_)
    exact (bookkept_enlist ..).trans (Mind.bookkept_modifyEntry _ id fun _ ↦ rfl)

theorem bookkept_returnFrame (w : World) (m : MindId) (id : FrameId) (frame : Frame)
    (step : Except EvalError Step) : Bookkept w (w.returnFrame m id frame step) :=
  (closing_bookkept m).returnFrame (bookkept_modifyEntry w m id fun _ ↦ rfl) (fun _ ↦ bookkept_sleep ..) step

theorem bookkept_takeFrame (w : World) (m : MindId) (id : FrameId) (entry : FrameEntry) (frame : Frame) :
    Bookkept w (w.takeFrame m id entry frame) :=
  have htaken : Bookkept w (w.modifyEntry m id FrameEntry.taken) := bookkept_modifyEntry w m id fun _ ↦ rfl
  htaken.trans (.of_minds rfl)

theorem bookkept_detachChildren (w : World) (m : MindId) (id : FrameId) :
    Bookkept w (w.detachChildren m id) := by
  unfold detachChildren
  split
  · exact .refl w
  · next entry _ =>
    refine bookkept_modifyMind w m fun mind ↦
      Mind.Bookkept.trans (mind.bookkept_modifyEntry id (f := fun e ↦ { e with children := #[] }) fun _ ↦ rfl) ?_
    rw [← Array.foldl_toList]
    generalize mind.modifyEntry id _ = mind
    induction entry.children.toList generalizing mind with
    | nil => exact .refl _
    | cons c rest ih =>
      exact Mind.Bookkept.trans (mind.bookkept_modifyEntry c (f := fun e ↦ { e with parent := none }) fun _ ↦ rfl) (ih _)

theorem bookkept_notify (w : World) (m : MindId) (event : String) (payload : Ref) :
    Bookkept w (w.notify m event payload).2 := by
  have hretain : ∀ w : World, Bookkept w (w.retain (.object payload)) := fun _ ↦ .of_minds rfl
  have hdeliver := fun ids ↦ rel_foldl (R := Bookkept) .refl .trans (f := fun w id ↦
    (w.retain (.object payload)).modifyEntry m id fun e ↦ { e with delivered := some payload })
    (fun w id ↦ (hretain w).trans (bookkept_modifyEntry _ m id fun _ ↦ rfl)) ids w
  unfold notify
  split
  · exact .refl w
  · dsimp only
    split
    · exact (hdeliver _).trans (bookkept_modifyMind _ m fun mind ↦ mind.bookkept_wake _)
    · exact hdeliver _

theorem bookkept_setUpdateInterval (w : World) (x : Handle) (seconds : Float) :
    Bookkept w (w.setUpdateInterval x seconds) :=
  w.bookkept_modifyEntry x.mind x.frame fun _ ↦ rfl

theorem bookkept_createMind (w : World) (name : String) : Bookkept w (w.createMind name).2 := by
  have hmind : ∀ {α : Type} (g : Mind → α) (default : α) (m : MindId), g { name, trace := w.config.trace } = default →
      (((w.createMind name).2.mind? m).map g).getD default = ((w.mind? m).map g).getD default := by
    intro α g default m hg
    by_cases hm : m.index = w.minds.size <;> simp [createMind, mind?, Array.getElem?_push, hm, hg]
  refine ⟨fun m ↦ hmind _ _ m rfl, fun m ↦ hmind _ _ m rfl, fun m ↦ hmind _ _ m rfl, fun m ↦ hmind _ _ m rfl,
    fun m ↦ hmind _ _ m rfl, fun m k ↦ by rw [entryAt_createMind], fun m k hk ↦ ?_,
    fun hw m mind hmind ↦ ?_⟩
  · obtain ⟨mind, hm, hk⟩ := hk
    refine ⟨mind, ?_, hk⟩
    rw [createMind, mind?, Array.getElem?_push, if_neg, ← mind?, hm]
    exact Nat.ne_of_lt (Array.getElem?_eq_some_iff.mp hm).1
  · rw [createMind, mind?, Array.getElem?_push] at hmind
    split at hmind
    · obtain rfl := Option.some.inj hmind
      exact ⟨[], .opens name _⟩
    · exact hw m mind hmind

end World

/-! ### Complete lists -/

/-- The Mind lists the frames that are stored in it, each once. -/
structure Mind.Listed (a : Mind) : Prop where
  once : a.live.toList.Nodup
  mem : ∀ k, k ∈ a.live.toList ↔ (a.entryAt k).isSome = true

namespace Mind.Listed

variable {a b : Mind}

theorem bookkept (h : a.Listed) (hab : a.Bookkept b) : b.Listed :=
  ⟨hab.live ▸ h.once, fun k ↦ by rw [hab.live, hab.stored, h.mem]⟩

theorem insert (h : a.Listed) (htidy : a.Tidy) (entry : FrameEntry) : (a.insert entry).2.Listed := by
  have hlive : (a.insert entry).2.live.toList = a.live.toList ++ [a.nextFrameId] := by
    unfold Mind.insert
    cases a.free <;> exact Array.toList_push
  have hnew : a.nextFrameId ∉ a.live.toList := fun hmem ↦ by
    have hstored := (h.mem _).mp hmem
    rw [entryAt_nextFrameId htidy] at hstored
    exact absurd hstored Bool.false_ne_true
  refine ⟨?_, fun k ↦ ?_⟩
  · rw [hlive, List.nodup_append]
    refine ⟨h.once, List.nodup_cons.mpr ⟨List.not_mem_nil, List.nodup_nil⟩, fun k hk k' hk' heq ↦ ?_⟩
    rw [List.mem_singleton] at hk'
    exact hnew (hk' ▸ heq ▸ hk)
  · rw [hlive, entryAt_insert htidy, List.mem_append, List.mem_singleton, h.mem]
    split
    · next heq => simp [heq]
    · next hne => simp [hne]

/-- A new frame comes at the end of the list. -/
theorem enroll (h : a.Listed) (htidy : a.Tidy) (entry : FrameEntry) : (a.enroll entry).Listed := by
  have hadopted : ((a.insert entry).2.adopt entry.parent entry.handle.frame).Listed := by
    unfold Mind.adopt
    cases entry.parent with
    | none => exact h.insert htidy entry
    | some p => exact (h.insert htidy entry).bookkept (bookkept_modifyEntry _ p fun _ ↦ rfl)
  exact hadopted.bookkept (bookkept_record ..)

/-- Frames leave the list as they are removed. -/
theorem remove (h : a.Listed) (settled : FrameId → Bool) :
    Mind.Listed { (a.live.toList.filter settled).foldl (fun mind id ↦ (mind.remove id).2) a with
      live := (a.live.toList.filter (not ∘ settled)).toArray, unswept := false } := by
  refine ⟨h.once.filter _, fun k ↦ ?_⟩
  change k ∈ a.live.toList.filter (not ∘ settled) ↔ (Mind.entryAt (List.foldl _ a _) k).isSome = true
  rw [World.entryAt_foldl_remove, List.mem_filter]
  split
  · next hgone =>
    have hsettled := (List.mem_filter.mp hgone).2
    simp [hsettled]
  · next hkept =>
    rw [← h.mem]
    refine and_iff_left_of_imp fun hlive ↦ ?_
    by_contra hsettled
    exact hkept (List.mem_filter.mpr ⟨hlive, by simpa using hsettled⟩)

end Mind.Listed

namespace World

/-- Every Mind lists the frames that are stored in it, each once. -/
structure Listed (w : World) : Prop where
  once : ∀ m, (w.live m).Nodup
  mem : ∀ m id, id ∈ w.live m ↔ (w.entryAt m id).isSome = true

variable {w w' : World}

theorem Listed.mind (hw : w.Listed) {m : MindId} {mind : Mind} (hmind : w.mind? m = some mind) : mind.Listed := by
  refine ⟨?_, fun k ↦ ?_⟩
  · simpa [live, hmind] using hw.once m
  · simpa [live, entryAt, hmind] using hw.mem m k

theorem Bookkept.listed (h : Bookkept w w') (hw : w.Listed) : w'.Listed :=
  ⟨fun m ↦ h.live m ▸ hw.once m, fun m id ↦ by rw [h.live, h.stored, hw.mem]⟩

theorem Listed.of_minds (hw : w.Listed) (h : w'.minds = w.minds) : w'.Listed := (Bookkept.of_minds h).listed hw

theorem Listed.modifyMind (hw : w.Listed) (m : MindId) {f : Mind → Mind}
    (hf : ∀ mind, w.mind? m = some mind → (f mind).Listed) : (w.modifyMind m f).Listed := by
  have hmind : ∀ m', (w.modifyMind m f).live m' = if m' = m then (((w.mind? m).map f).map fun mind ↦
      mind.live.toList).getD [] else w.live m' := fun m' ↦ by
    rw [live, mind?_modifyMind]
    split <;> rfl
  refine ⟨fun m' ↦ ?_, fun m' k ↦ ?_⟩
  · rw [hmind]
    split
    · cases h : w.mind? m with
      | none => exact List.nodup_nil
      | some mind => exact (hf mind h).once
    · exact hw.once m'
  · rw [hmind, entryAt_modifyMind]
    split
    · cases h : w.mind? m with
      | none => simp
      | some mind => exact (hf mind h).mem k
    · exact hw.mem m' k

theorem Listed.register (hw : w.Listed) (htidy : w.Tidy) (m : MindId) (name : String) (owner : ClassId)
    (parent : Option FrameId) (frame : Frame) : (w.register m name owner parent frame).2.Listed := by
  have hopen : (w.openOutcome frame.context.this).2.Listed := hw.of_minds rfl
  unfold World.register
  dsimp only
  split
  · exact hopen
  · exact hopen.modifyMind m fun mind hmind ↦ (hopen.mind hmind).enroll (htidy m mind hmind) _

theorem Listed.sweep (hw : w.Listed) (m : MindId) : (w.sweep m).Listed := by
  unfold World.sweep
  cases hmind : w.mind? m with
  | none => exact hw
  | some mind =>
    dsimp only
    split
    · rw [List.partition_eq_filter_filter]
      have hremoved := hw.modifyMind (f := fun mind' ↦
        { (mind.live.toList.filter (w.isSettled mind)).foldl (fun mind id ↦ (mind.remove id).2) mind' with
          live := (mind.live.toList.filter (not ∘ w.isSettled mind)).toArray, unswept := false }) m
        fun mind' hmind' ↦ by
          obtain rfl := Option.some.inj (hmind.symm.trans hmind')
          exact (hw.mind hmind).remove _
      exact hremoved.of_minds rfl
    · exact hw

theorem Lived.register (hw : w.Lived) (m : MindId) (name : String) (owner : ClassId) (parent : Option FrameId)
    (frame : Frame) : (w.register m name owner parent frame).2.Lived := by
  have hopen : (w.openOutcome frame.context.this).2.Lived := (Bookkept.of_minds rfl).lived hw
  unfold World.register
  dsimp only
  split
  · exact hopen
  · refine hopen.modifyMind m fun mind _ l hl ↦ ?_
    unfold Mind.enroll Mind.adopt
    dsimp only
    cases parent with
    | none => exact (Mind.bookkept_record ..).life _ (.insert _ hl)
    | some p => exact (Mind.bookkept_record ..).life _ (.change p _ (.insert _ hl))

theorem Lived.sweep (hw : w.Lived) (m : MindId) : (w.sweep m).Lived := by
  unfold World.sweep
  cases hmind : w.mind? m with
  | none => exact hw
  | some mind =>
    dsimp only
    split
    · rw [List.partition_eq_filter_filter]
      have hpurged := hw.modifyMind (f := fun mind' ↦
        { (mind.live.toList.filter (w.isSettled mind)).foldl (fun mind id ↦ (mind.remove id).2) mind' with
          live := (mind.live.toList.filter (not ∘ w.isSettled mind)).toArray, unswept := false }) m
        fun mind' hmind' l hl ↦ by
          obtain rfl := Option.some.inj (hmind.symm.trans hmind')
          exact ⟨_, .sweep (w.isSettled mind) hl⟩
      exact (Bookkept.of_minds rfl).lived hpurged
    · exact hw

end World

theorem Deed.lived {pumped : Option MindId} {M M' : Moment} (h : Deed pumped M M') (hM : M.world.Lived) :
    M'.world.Lived := by
  cases h with
  | @compute s w w' hstill _ htends =>
    intro m mind' hmind'
    obtain ⟨mind, hmind, hslots⟩ := Option.map_eq_some_iff.mp ((hstill.slots_mind? m).symm.trans (by rw [hmind']; rfl))
    have hfree := hstill.free_mind? m
    have hlive := htends.live m
    simp only [hmind, hmind', World.live, Option.map_some, Option.getD_some, Option.some.injEq] at hfree hlive
    obtain ⟨l, hl⟩ := hM m mind hmind
    exact ⟨l, .other hslots.symm hfree (Array.toList_inj.mp hlive) hl⟩
  | register name owner frame _ _ => exact hM.register _ name owner _ frame
  | begin _ _ _ => exact (World.bookkept_takeFrame ..).lived hM
  | @back s w m id context frame step =>
    have henter : w.Bookkept (w.enter context s.head?) := .of_minds rfl
    exact (henter.trans (World.bookkept_returnFrame ..)).lived hM
  | stop m id => exact ((World.closing_bookkept m).stopFrame _ id).lived hM
  | sweep m => exact hM.sweep m
  | detach m id => exact (World.bookkept_detachChildren ..).lived hM
  | notify m event payload => exact (World.bookkept_notify ..).lived hM
  | setUpdateInterval x seconds => exact (World.bookkept_setUpdateInterval ..).lived hM
  | createMind name => exact (World.bookkept_createMind ..).lived hM

theorem Deed.listed {pumped : Option MindId} {M M' : Moment} (h : Deed pumped M M') (hvalid : M.Valid)
    (hM : M.world.Listed) : M'.world.Listed := by
  cases h with
  | compute hstill _ htends =>
    exact ⟨fun m ↦ htends.live m ▸ hM.once m, fun m id ↦ by rw [htends.live, hstill.entryAt, hM.mem]⟩
  | register name owner frame hm hparent =>
    exact hM.register hvalid.sound.filed.tidy _ name owner _ frame
  | begin _ _ _ => exact (World.bookkept_takeFrame ..).listed hM
  | @back s w m id context frame step =>
    have henter : w.Bookkept (w.enter context s.head?) := .of_minds rfl
    exact (henter.trans (World.bookkept_returnFrame ..)).listed hM
  | stop m id => exact ((World.closing_bookkept m).stopFrame _ id).listed hM
  | sweep m => exact hM.sweep m
  | detach m id => exact (World.bookkept_detachChildren ..).listed hM
  | notify m event payload => exact (World.bookkept_notify ..).listed hM
  | setUpdateInterval x seconds => exact (World.bookkept_setUpdateInterval ..).listed hM
  | createMind name => exact (World.bookkept_createMind ..).listed hM

theorem Journey.listed {M M' : Moment} (h : Journey M M') (hvalid : M.Valid) (hM : M.world.Listed) :
    M'.world.Listed := by
  induction h with
  | refl => exact hM
  | tail hbefore hdeed ih =>
    obtain ⟨pumped, hdeed⟩ := hdeed
    exact hdeed.listed (hvalid.journey hbefore) ih

theorem Journey.lived {M M' : Moment} (h : Journey M M') (hM : M.world.Lived) : M'.world.Lived := by
  induction h with
  | refl => exact hM
  | tail _ hdeed ih =>
    obtain ⟨pumped, hdeed⟩ := hdeed
    exact hdeed.lived ih

/-! ### Moments that an interpreter comes to -/

/-- The moments that an interpreter comes to, between host calls and in the middle of them, with the books
of its Minds in order. -/
inductive Attained : Moment → Prop where
  | start (config : Config) : Attained ⟨[], .new config⟩
  | deed {M M' : Moment} {pumped : Option MindId} : Attained M → Deed pumped M M' → Attained M'
  | call {s : List FrameKey} {w : World} {α : Type} {f : Machine α} (n : Nat) : Attained ⟨s, w⟩ →
      HostCall (.ofBudget n) f → (f w).1 ≠ .error .exhausted → Attained ⟨s, (f w).2⟩

namespace Attained

variable {M : Moment}

theorem reachable (h : Attained M) : Reachable M := by
  induction h with
  | start config => exact .start config
  | deed _ hdeed ih => exact ih.act hdeed.act
  | call n _ hcall hdone ih => exact ih.call n hcall hdone

theorem listed_new (config : Config) : (World.new config).Listed := by
  have hempty : ∀ w : World, w.minds = #[] → w.Listed := fun w hw ↦
    ⟨fun m ↦ by simp [World.live, World.mind?, hw], fun m id ↦ by simp [World.live, World.entryAt, World.mind?, hw]⟩
  unfold World.new
  dsimp only
  cases config.defaultMind with
  | none => exact hempty _ rfl
  | some name =>
    exact ((World.bookkept_createMind _ name).listed (hempty { (default : World) with minds := #[], config } rfl)).of_minds rfl

theorem lived_new (config : Config) : (World.new config).Lived := by
  have hempty : ∀ w : World, w.minds = #[] → w.Lived := fun w hw m mind hmind ↦ by
    simp [World.mind?, hw] at hmind
  unfold World.new
  dsimp only
  cases config.defaultMind with
  | none => exact hempty _ rfl
  | some name =>
    exact (World.Bookkept.of_minds rfl).lived
      ((World.bookkept_createMind _ name).lived (hempty { (default : World) with minds := #[], config } rfl))

theorem journey (h : Attained M) : ∃ config, Journey ⟨[], .new config⟩ M := by
  induction h with
  | start config => exact ⟨config, .refl⟩
  | deed _ hdeed ih =>
    obtain ⟨config, hjourney⟩ := ih
    exact ⟨config, hjourney.tail ⟨_, hdeed⟩⟩
  | @call s w α f n hM hcall hdone ih =>
    obtain ⟨config, hjourney⟩ := ih
    obtain ⟨s', hcalled, hs⟩ := hcall.tracked (Engine.tracked_ofBudget n) ⟨s.head?, 0, true, none⟩ s w
      hM.reachable.valid rfl (Nat.zero_le _)
    obtain rfl := hs hdone
    exact ⟨config, hjourney.trans hcalled⟩

/-- Every Mind at every moment that an interpreter comes to has a life. -/
theorem lived (h : Attained M) : M.world.Lived := by
  obtain ⟨config, hjourney⟩ := h.journey
  exact hjourney.lived (lived_new config)

/-- Every stored frame is listed at every moment that an interpreter comes to. -/
theorem listed (h : Attained M) : M.world.Listed := by
  obtain ⟨config, hjourney⟩ := h.journey
  exact hjourney.listed (MindScript.valid_new config) (listed_new config)

end Attained

end MindScript
