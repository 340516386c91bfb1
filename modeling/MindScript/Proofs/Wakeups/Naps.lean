import MindScript.Proofs.Wakeups.Deeds

/-!
# How frames have come to sleep

A frame falls asleep when its step ends, and it sleeps on for the same reason until its next step or its end.  So
whoever sleeps after a deed has slept before, apart from the frame that has just come back from a step, which has
slept since the tick that its Mind is in.  Payloads come from notifications only.
-/

namespace MindScript

namespace FrameEntry

/-- The frame sleeps in the same way: for the same reason and since the same tick. -/
structure Sleeps (e e' : FrameEntry) : Prop where
  handle : e'.handle = e.handle
  wake : e'.wake = e.wake
  suspendedTick : e'.suspendedTick = e.suspendedTick
  nextUpdate : e'.nextUpdate = e.nextUpdate

/-- Moreover it has the same payload. -/
structure Naps (e e' : FrameEntry) : Prop extends Sleeps e e' where
  delivered : e'.delivered = e.delivered

/-- The frame does not sleep. -/
structure Awake (e : FrameEntry) : Prop where
  wake : e.wake = none
  delivered : e.delivered = none

variable {e e' e'' : FrameEntry}

theorem Sleeps.refl (e : FrameEntry) : e.Sleeps e := ⟨rfl, rfl, rfl, rfl⟩

theorem Sleeps.trans (h : e.Sleeps e') (h' : e'.Sleeps e'') : e.Sleeps e'' := by
  constructor
  · exact h'.handle.trans h.handle
  · exact h'.wake.trans h.wake
  · exact h'.suspendedTick.trans h.suspendedTick
  · exact h'.nextUpdate.trans h.nextUpdate

theorem Naps.refl (e : FrameEntry) : e.Naps e := ⟨.refl e, rfl⟩

theorem Naps.trans (h : e.Naps e') (h' : e'.Naps e'') : e.Naps e'' :=
  ⟨h.toSleeps.trans h'.toSleeps, h'.delivered.trans h.delivered⟩

theorem Awake.naps (h : e.Awake) (h' : e.Naps e') : e'.Awake := ⟨h'.wake.trans h.wake, h'.delivered.trans h.delivered⟩

end FrameEntry

/-! ### Changes to one Mind -/

/-- Whoever sleeps afterwards has slept before. -/
def Mind.Lulls (a b : Mind) : Prop :=
  ∀ k e', b.entryAt k = some e' → e'.Awake ∨ ∃ e, a.entryAt k = some e ∧ e.Naps e'

namespace Mind.Lulls

variable {a b c : Mind}

theorem of_slots (h : b.slots = a.slots) : Lulls a b :=
  fun k e' he' ↦ .inr ⟨e', by rwa [entryAt_congr h] at he', .refl e'⟩

theorem refl (a : Mind) : Lulls a a := of_slots rfl

theorem trans (h : Lulls a b) (h' : Lulls b c) : Lulls a c := by
  intro k e'' he''
  rcases h' k e'' he'' with hawake | ⟨e', he', hnaps'⟩
  · exact .inl hawake
  rcases h k e' he' with hawake | ⟨e, he, hnaps⟩
  · exact .inl (hawake.naps hnaps')
  · exact .inr ⟨e, he, hnaps.trans hnaps'⟩

theorem modifyEntry (a : Mind) (id : FrameId) {f : FrameEntry → FrameEntry} (hf : ∀ e, (f e).Awake ∨ e.Naps (f e)) :
    Lulls a (a.modifyEntry id f) := by
  intro k e' he'
  rw [entryAt_modifyEntry] at he'
  split at he'
  · next heq =>
    obtain ⟨e, he, rfl⟩ := Option.map_eq_some_iff.mp he'
    exact (hf e).imp_right fun hnaps ↦ ⟨e, heq ▸ he, hnaps⟩
  · exact .inr ⟨e', he', .refl e'⟩

theorem remove (a : Mind) (id : FrameId) : Lulls a (a.remove id).2 := by
  intro k e' he'
  rw [entryAt_remove] at he'
  split at he'
  · cases he'
  · exact .inr ⟨e', he', .refl e'⟩

theorem enroll (htidy : a.Tidy) {entry : FrameEntry} (hnew : entry.Awake) : Lulls a (a.enroll entry) := by
  have hinsert : Lulls a (a.insert entry).2 := by
    intro k e' he'
    rw [entryAt_insert htidy] at he'
    split at he'
    · exact .inl (Option.some.inj he' ▸ hnew)
    · exact .inr ⟨e', he', .refl e'⟩
  have hadopt : Lulls a ((a.insert entry).2.adopt entry.parent entry.handle.frame) := by
    unfold adopt
    split
    · exact hinsert.trans (modifyEntry _ _ fun e ↦ .inr ⟨⟨rfl, rfl, rfl, rfl⟩, rfl⟩)
    · exact hinsert
  exact hadopt.trans (of_slots (slots_record ..))

theorem leaveParent (a : Mind) (parent id : FrameId) : Lulls a (World.leaveParent a parent id) := by
  unfold World.leaveParent
  split
  · exact refl a
  · have herase : Lulls a (a.modifyEntry parent fun e ↦ e.without id) :=
      modifyEntry a parent fun e ↦ .inr ⟨⟨rfl, rfl, rfl, rfl⟩, rfl⟩
    dsimp only
    split
    · exact herase.trans (of_slots (slots_wake ..))
    · exact herase

theorem settleEntry (a : Mind) (id : FrameId) (entry : FrameEntry) (status : FrameStatus)
    (failure : Option FrameFailure) : Lulls a (World.settleEntry a id entry status failure) := by
  have hsettled : Lulls a ((a.modifyEntry id FrameEntry.settled).record id entry.handle.name status) :=
    (modifyEntry a id fun e ↦ .inl ⟨rfl, rfl⟩).trans (of_slots (slots_record ..))
  have hparted : Lulls a (World.parted a id entry status) := by
    unfold World.parted
    cases entry.parent with
    | none => exact hsettled
    | some parent => exact hsettled.trans (leaveParent _ parent id)
  have hwoken := hparted.trans (of_slots (slots_wake _ entry.waiters))
  rw [World.settleEntry_eq]
  cases failure with
  | none => exact hwoken.trans (of_slots rfl)
  | some f => exact hwoken.trans (of_slots rfl)

theorem enlist (a : Mind) (m : MindId) (id : FrameId) (wake : Wake) : Lulls a (World.enlist a m id wake) := by
  unfold World.enlist
  split
  · split
    · exact modifyEntry a _ fun e ↦ .inr ⟨⟨rfl, rfl, rfl, rfl⟩, rfl⟩
    · exact refl a
  · exact refl a

end Mind.Lulls

/-! ### Changes to the world -/

namespace World

/-- Whoever sleeps in the second world has slept in the first one. -/
def Lulls (v w : World) : Prop :=
  ∀ m k e', w.entryAt m k = some e' → e'.Awake ∨ ∃ e, v.entryAt m k = some e ∧ e.Naps e'

variable {u v w : World}

namespace Lulls

theorem of_entries (h : ∀ m k, w.entryAt m k = v.entryAt m k) : Lulls v w :=
  fun m k e' he' ↦ .inr ⟨e', by rwa [h] at he', .refl e'⟩

theorem of_minds (h : w.minds = v.minds) : Lulls v w :=
  of_entries fun m k ↦ by rw [entryAt, entryAt, mind?, mind?, h]

theorem refl (w : World) : Lulls w w := of_minds rfl

theorem trans (h : Lulls u v) (h' : Lulls v w) : Lulls u w := by
  intro m k e'' he''
  rcases h' m k e'' he'' with hawake | ⟨e', he', hnaps'⟩
  · exact .inl hawake
  rcases h m k e' he' with hawake | ⟨e, he, hnaps⟩
  · exact .inl (hawake.naps hnaps')
  · exact .inr ⟨e, he, hnaps.trans hnaps'⟩

theorem modifyMind (w : World) (m : MindId) {f : Mind → Mind}
    (hf : ∀ mind, w.mind? m = some mind → mind.Lulls (f mind)) : Lulls w (w.modifyMind m f) := by
  intro m' k e' he'
  rw [entryAt_modifyMind] at he'
  split at he'
  · next heq =>
    obtain ⟨mind, hmind, he'⟩ := Option.bind_eq_some_iff.mp he'
    refine (hf mind hmind k e' he').imp_right fun ⟨e, he, hnaps⟩ ↦ ⟨e, ?_, hnaps⟩
    exact heq ▸ Option.bind_eq_some_iff.mpr ⟨mind, hmind, he⟩
  · exact .inr ⟨e', he', .refl e'⟩

theorem modifyEntry (w : World) (m : MindId) (id : FrameId) {f : FrameEntry → FrameEntry}
    (hf : ∀ e, (f e).Awake ∨ e.Naps (f e)) : Lulls w (w.modifyEntry m id f) :=
  .modifyMind w m fun mind _ ↦ .modifyEntry mind id hf

theorem settle (w : World) (m : MindId) (id : FrameId) (ending : Ending) : Lulls w (w.settle m id ending) := by
  unfold World.settle
  split
  · exact .of_minds rfl
  · next entry _ =>
    split
    · exact .of_minds rfl
    · have hmind := modifyMind w m fun mind _ ↦ .settleEntry mind id entry ending.status
        ((ending.error?.map (w.withFrameOrigin entry)).map (FrameFailure.mk id (w.frameName m id)))
      exact hmind.trans (.of_minds rfl)

theorem closing (m : MindId) : Closing m Lulls where
  refl := refl
  trans := trans
  release _ _ := .of_minds rfl
  clear w id := modifyEntry w m id fun _ ↦ .inr ⟨⟨rfl, rfl, rfl, rfl⟩, rfl⟩
  mark w id := modifyEntry w m id fun _ ↦ .inr ⟨⟨rfl, rfl, rfl, rfl⟩, rfl⟩
  settle w id ending _ := settle w m id ending

theorem register (htidy : w.Tidy) (m : MindId) (name : String) (owner : ClassId) (parent : Option FrameId)
    (frame : Frame) : Lulls w (w.register m name owner parent frame).2 := by
  have hopen : Lulls w (w.openOutcome frame.context.this).2 := .of_minds rfl
  unfold World.register
  dsimp only
  split
  · exact hopen
  · exact hopen.trans (modifyMind _ m fun mind hmind ↦ .enroll (htidy m mind hmind) ⟨rfl, rfl⟩)

theorem sweep (w : World) (m : MindId) : Lulls w (w.sweep m) := by
  unfold World.sweep
  split
  · exact refl w
  · next mind _ =>
    split
    · have hremoved : ∀ (ids : List FrameId) (a : Mind), a.Lulls (ids.foldl (fun mind id ↦ (mind.remove id).2) a) := by
        intro ids
        induction ids with
        | nil => exact .refl
        | cons id rest ih => exact fun a ↦ (Mind.Lulls.remove a id).trans (ih _)
      have hmind := modifyMind w m (f := fun mind' ↦
        { (mind.live.toList.partition (w.isSettled mind)).1.foldl (fun mind id ↦ (mind.remove id).2) mind' with
          live := (mind.live.toList.partition (w.isSettled mind)).2.toArray, unswept := false })
        fun mind' _ ↦ (hremoved _ mind').trans (.of_slots rfl)
      exact hmind.trans (.of_minds rfl)
    · exact refl w

theorem detachChildren (w : World) (m : MindId) (id : FrameId) : Lulls w (w.detachChildren m id) := by
  unfold World.detachChildren
  split
  · exact refl w
  · refine modifyMind w m fun mind _ ↦ ?_
    have hempty : mind.Lulls (mind.modifyEntry id fun e ↦ { e with children := #[] }) :=
      .modifyEntry mind id fun e ↦ .inr ⟨⟨rfl, rfl, rfl, rfl⟩, rfl⟩
    refine hempty.trans ?_
    rw [← Array.foldl_toList]
    generalize mind.modifyEntry id _ = mind
    generalize Array.toList _ = ids
    induction ids generalizing mind with
    | nil => exact .refl mind
    | cons c rest ih =>
      have hparent : mind.Lulls (mind.modifyEntry c fun e ↦ { e with parent := none }) :=
        .modifyEntry mind c fun e ↦ .inr ⟨⟨rfl, rfl, rfl, rfl⟩, rfl⟩
      exact hparent.trans (ih _)

end Lulls

/-! ### Falling asleep -/

/-- One frame may have fallen asleep in the tick that its Mind is in, with the payload that it had. -/
structure Lays (m : MindId) (id : FrameId) (v w : World) : Prop where
  tick : w.tick m = v.tick m
  lulls : ∀ m' k e', w.entryAt m' k = some e' → e'.Awake ∨ (∃ e, v.entryAt m' k = some e ∧ e.Naps e') ∨
    (m' = m ∧ k = id) ∧ e'.suspendedTick = w.tick m ∧
      (e'.delivered = none ∨ ∃ e, v.entryAt m id = some e ∧ e.delivered = e'.delivered)

variable {m : MindId} {id : FrameId}

theorem Lulls.lays (h : Lulls v w) (htick : w.tick m = v.tick m) : Lays m id v w :=
  ⟨htick, fun m' k e' he' ↦ (h m' k e' he').imp_right .inl⟩

theorem Lays.trans (h : Lays m id u v) (h' : Lays m id v w) : Lays m id u w := by
  refine ⟨h'.tick.trans h.tick, fun m' k e'' he'' ↦ ?_⟩
  rcases h'.lulls m' k e'' he'' with hawake | ⟨e', he', hnaps'⟩ | ⟨hmine, htick, hgiven⟩
  · exact .inl hawake
  · rcases h.lulls m' k e' he' with hawake | ⟨e, he, hnaps⟩ | ⟨hmine, htick, hgiven⟩
    · exact .inl (hawake.naps hnaps')
    · exact .inr (.inl ⟨e, he, hnaps.trans hnaps'⟩)
    · rw [← hnaps'.delivered] at hgiven
      exact .inr (.inr ⟨hmine, (hnaps'.suspendedTick.trans htick).trans h'.tick.symm, hgiven⟩)
  · refine .inr (.inr ⟨hmine, htick, hgiven.elim .inl fun ⟨e', he', hsame⟩ ↦ ?_⟩)
    rcases h.lulls m id e' he' with hawake | ⟨e, he, hnaps⟩ | ⟨-, -, hgiven⟩
    · exact .inl (hsame.symm.trans hawake.delivered)
    · exact .inr ⟨e, he, hnaps.delivered.symm.trans hsame⟩
    · exact hsame ▸ hgiven

theorem lays_sleep (w : World) (m : MindId) (id : FrameId) (wake : Wake) : Lays m id w (w.sleep m id wake) := by
  have htick := (bookkept_sleep w m id wake).tick m
  refine ⟨htick, fun m' k e' he' ↦ ?_⟩
  rw [htick]
  unfold sleep at he'
  cases hentry : w.entryAt m id with
  | none =>
    rw [hentry] at he'
    exact .inr (.inl ⟨e', he', .refl e'⟩)
  | some entry =>
    rw [hentry] at he'
    dsimp only at he'
    rw [entryAt_modifyMind] at he'
    split at he'
    · next heq =>
      obtain ⟨mind, hmind, he'⟩ := Option.bind_eq_some_iff.mp he'
      have hmind : w.mind? m = some mind := hmind
      have hold : ∀ {k e}, mind.entryAt k = some e → w.entryAt m' k = some e := fun h ↦
        heq ▸ Option.bind_eq_some_iff.mpr ⟨mind, hmind, h⟩
      rw [Mind.entryAt_modifyEntry] at he'
      split at he'
      · next hk =>
        obtain ⟨e₁, he₁, rfl⟩ := Option.map_eq_some_iff.mp he'
        have htick : mind.tick = w.tick m := by rw [World.tick, hmind]; rfl
        refine .inr (.inr ⟨⟨heq, hk⟩, htick, ?_⟩)
        rcases Mind.Lulls.enlist mind m id wake id e₁ he₁ with hawake | ⟨e, he, hnaps⟩
        · exact .inl hawake.delivered
        · exact .inr ⟨e, hentry.symm.trans (heq ▸ hold he), hnaps.delivered.symm⟩
      · rcases Mind.Lulls.enlist mind m id wake k e' he' with hawake | ⟨e, he, hnaps⟩
        · exact .inl hawake
        · exact .inr (.inl ⟨e, hold he, hnaps⟩)
    · exact .inr (.inl ⟨e', he', .refl e'⟩)

theorem lays_returnFrame (w : World) (m : MindId) (id : FrameId) (frame : Frame) (step : Except EvalError Step) :
    Lays m id w (w.returnFrame m id frame step) := by
  have hlulls := Lulls.closing m
  have hkept := closing_bookkept m
  have hclosing : Closing m (Lays m id) :=
    { refl := fun w ↦ (hlulls.refl w).lays rfl
      trans := .trans
      release := fun w ls ↦ (hlulls.release w ls).lays ((hkept.release w ls).tick m)
      clear := fun w k ↦ (hlulls.clear w k).lays ((hkept.clear w k).tick m)
      mark := fun w k ↦ (hlulls.mark w k).lays ((hkept.mark w k).tick m)
      settle := fun w k ending hfinal ↦ (hlulls.settle w k ending hfinal).lays ((hkept.settle w k ending hfinal).tick m) }
  have hput : Lulls w (w.modifyEntry m id fun e ↦ { e with frame := some frame }) :=
    .modifyEntry w m id fun _ ↦ .inr ⟨⟨rfl, rfl, rfl, rfl⟩, rfl⟩
  have hkeep : Bookkept w (w.modifyEntry m id fun e ↦ { e with frame := some frame }) :=
    bookkept_modifyEntry w m id fun _ ↦ rfl
  exact hclosing.returnFrame (hput.lays (hkeep.tick m)) (fun wake ↦ lays_sleep _ m id wake) step

end World

/-! ### Deeds -/

/-- How a frame has come to its entry in a deed. -/
inductive Moment.Origin (M M' : Moment) (m : MindId) (k : FrameId) (e' : FrameEntry) : Prop where
  | awake : e'.Awake → Origin M M' m k e'
  /-- It has slept before. -/
  | slept {e : FrameEntry} : M.world.entryAt m k = some e → e.Naps e' → Origin M M' m k e'
  /-- It has fallen asleep at the end of its step. -/
  | returned : M.stack = (m, k) :: M'.stack → e'.suspendedTick = M'.world.tick m →
      (e'.delivered = none ∨ ∃ e, M.world.entryAt m k = some e ∧ e.delivered = e'.delivered) → Origin M M' m k e'
  /-- It has been given the payload of an event that it waited for. -/
  | notified {event : String} {payload : Ref} {e : FrameEntry} : M'.world = (M.world.notify m event payload).2 →
      M.world.entryAt m k = some e → M.world.awaitsEvent event e = true → e' = { e with delivered := some payload } →
      Origin M M' m k e'

theorem World.Lulls.origin {M M' : Moment} (h : M.world.Lulls M'.world) {m : MindId} {k : FrameId} {e' : FrameEntry}
    (he' : M'.world.entryAt m k = some e') : M.Origin M' m k e' := by
  rcases h m k e' he' with hawake | ⟨e, he, hnaps⟩
  · exact .awake hawake
  · exact .slept he hnaps

theorem Deed.origin {pumped : Option MindId} {M M' : Moment} (h : Deed pumped M M') (hvalid : M.Valid) {m : MindId}
    {k : FrameId} {e' : FrameEntry} (he' : M'.world.entryAt m k = some e') : M.Origin M' m k e' := by
  cases h with
  | compute hstill _ _ => exact World.Lulls.origin (.of_entries fun m k ↦ by rw [hstill.entryAt]) he'
  | register name owner frame => exact World.Lulls.origin (.register hvalid.sound.filed.tidy _ name owner _ frame) he'
  | @begin s w m' id e frame =>
    have htaken : w.Lulls (w.modifyEntry m' id FrameEntry.taken) := .modifyEntry w m' id fun _ ↦ .inl ⟨rfl, rfl⟩
    exact World.Lulls.origin (htaken.trans (.of_minds rfl)) he'
  | @back s w m' id context frame step =>
    rcases (World.lays_returnFrame (w.enter context s.head?) m' id frame step).lulls m k e' he' with
      hawake | ⟨e, he, hnaps⟩ | ⟨⟨rfl, rfl⟩, htick, hgiven⟩
    · exact .awake hawake
    · exact .slept he hnaps
    · exact .returned rfl htick hgiven
  | stop m' id => exact World.Lulls.origin ((World.Lulls.closing m').stopFrame _ id) he'
  | sweep m' => exact World.Lulls.origin (.sweep _ m') he'
  | detach m' id => exact World.Lulls.origin (.detachChildren _ m' id) he'
  | @notify s w m' event payload =>
    have hnotified := he'
    rw [World.entryAt_notify] at hnotified
    obtain ⟨e, he, heq⟩ := Option.map_eq_some_iff.mp hnotified
    by_cases hheard : m = m' ∧ k ∈ w.hearers m' event
    · rw [if_pos hheard] at heq
      obtain ⟨rfl, hk⟩ := hheard
      obtain ⟨-, e₁, he₁, hawaits⟩ := World.mem_hearers.mp hk
      obtain rfl := Option.some.inj (he.symm.trans he₁)
      exact .notified rfl he hawaits heq.symm
    · rw [if_neg hheard] at heq
      exact .slept he (heq ▸ .refl e)
  | @setUpdateInterval s w x seconds =>
    have hset : w.Lulls (w.setUpdateInterval x seconds) :=
      .modifyEntry w x.mind x.frame fun _ ↦ .inr ⟨⟨rfl, rfl, rfl, rfl⟩, rfl⟩
    exact World.Lulls.origin hset he'
  | @createMind s w name =>
    have hcreate : w.Lulls (w.createMind name).2 := .of_entries fun m k ↦ by rw [World.entryAt_createMind]
    exact World.Lulls.origin hcreate he'

/-- Only frames that wait for events have payloads, and no frame has fallen asleep in a tick that is still to come. -/
structure World.Slept (w : World) : Prop where
  event : ∀ m k e, w.entryAt m k = some e → e.delivered.isSome = true → ∃ name, e.wake = some (.event name)
  tick : ∀ m k e, w.entryAt m k = some e → e.wake.isSome = true → e.suspendedTick ≤ w.tick m

/-- A frame in a step has no payload. -/
theorem Moment.Valid.delivered_of_mem {M : Moment} (h : M.Valid) (hslept : M.world.Slept) {m : MindId} {k : FrameId}
    (hmem : (m, k) ∈ M.stack) {e : FrameEntry} (he : M.world.entryAt m k = some e) : e.delivered = none := by
  by_contra hne
  obtain ⟨name, hwake⟩ := hslept.event m k e he (Option.isSome_iff_ne_none.mpr hne)
  obtain ⟨cell, hc⟩ := h.sound.filed.card he
  have hwaits : (e.card cell).wake.isSome = true := Option.isSome_iff_exists.mpr ⟨_, hwake⟩
  have hsuspended := (h.sound.fits m k _ hc).waits.mp hwaits
  cases hsuspended.symm.trans (h.sound.running_of_mem hmem hc)

theorem Deed.slept {pumped : Option MindId} {M M' : Moment} (h : Deed pumped M M') (hvalid : M.Valid)
    (hslept : M.world.Slept) : M'.world.Slept := by
  refine ⟨fun m k e' he' hgiven ↦ ?_, fun m k e' he' hwake ↦ ?_⟩
  · cases h.origin hvalid he' with
    | awake hawake =>
      rw [hawake.delivered] at hgiven
      cases hgiven
    | slept he hnaps =>
      rw [hnaps.wake]
      exact hslept.event m k _ he (hnaps.delivered ▸ hgiven)
    | returned hstack _ hold =>
      rcases hold with hnone | ⟨e, he, hsame⟩
      · rw [hnone] at hgiven
        cases hgiven
      · rw [← hsame, hvalid.delivered_of_mem hslept (hstack ▸ List.mem_cons_self) he] at hgiven
        cases hgiven
    | notified _ _ hawaits heq =>
      subst heq
      exact ⟨_, (World.awaitsEvent_iff.mp hawaits).1⟩
  · have hle := h.tick_le m
    cases h.origin hvalid he' with
    | awake hawake =>
      rw [hawake.wake] at hwake
      cases hwake
    | slept he hnaps =>
      rw [hnaps.suspendedTick]
      exact (hslept.tick m k _ he (hnaps.wake ▸ hwake)).trans hle
    | returned _ htick _ => exact htick.le
    | notified _ he _ heq =>
      subst heq
      exact (hslept.tick m k _ he hwake).trans hle

theorem Journey.slept {M M' : Moment} (h : Journey M M') (hvalid : M.Valid) (hslept : M.world.Slept) :
    M'.world.Slept := by
  induction h with
  | refl => exact hslept
  | tail hbefore hdeed ih =>
    obtain ⟨pumped, hdeed⟩ := hdeed
    exact hdeed.slept (hvalid.journey hbefore) ih

end MindScript
