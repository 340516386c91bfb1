import MindScript.Proofs.Wakeups.Turns

/-!
# Frames and their handles

The identities of frames are handed out once, and a frame is stored under one handle as long as it is stored.  Handles
have outcomes that are handed out one after the other, so of two frames the one that was registered first has the lower
outcome.  As long as a frame has not begun its first step, it waits for it, unless it is stopped.
-/

namespace MindScript

open Machine

namespace World

variable {u v w : World} {m : MindId} {k : FrameId}

theorem Issued.of_stored {e : FrameEntry} (h : w.entryAt m k = some e) : w.Issued m k := by
  obtain ⟨mind, hmind, he⟩ := Option.bind_eq_some_iff.mp h
  exact ⟨mind, hmind, .of_stored (by rw [he]; rfl)⟩

theorem Issued.still (h : v.Issued m k) (hstill : Still v w) : w.Issued m k := by
  obtain ⟨mind, hmind, hissued⟩ := h
  obtain ⟨mind', hmind', hslots⟩ := Option.map_eq_some_iff.mp ((hstill.slots_mind? m).trans (by rw [hmind]; rfl))
  exact ⟨mind', hmind', hissued.congr hslots⟩

theorem Issued.register (h : w.Issued m k) (htidy : w.Tidy) (m' : MindId) (name : String) (owner : ClassId)
    (parent : Option FrameId) (frame : Frame) : (w.register m' name owner parent frame).2.Issued m k := by
  have hopen : (w.openOutcome frame.context.this).2.Issued m k := h
  unfold World.register
  dsimp only
  split
  · exact hopen
  · refine hopen.modifyMind fun mind hmind hissued ↦ ?_
    have hinsert := hissued.insert (htidy m' mind hmind)
    refine (Mind.bookkept_record ..).issued k ?_
    unfold Mind.adopt
    split
    · exact (hinsert _).modifyEntry _ _
    · exact hinsert _

theorem Issued.sweep (h : w.Issued m k) (m' : MindId) : (w.sweep m').Issued m k := by
  have hremoved : ∀ (ids : List FrameId) (a : Mind), a.Issued k →
      (ids.foldl (fun mind id ↦ (mind.remove id).2) a).Issued k := by
    intro ids
    induction ids with
    | nil => exact fun _ ↦ id
    | cons id rest ih => exact fun a ha ↦ ih _ (ha.remove id)
  unfold World.sweep
  split
  · exact h
  · next mind _ =>
    split
    · refine Issued.modifyMind (w := w) h fun mind' _ hissued ↦ ?_
      exact (hremoved (mind.live.toList.partition (w.isSettled mind)).1 mind' hissued).congr rfl
    · exact h

/-- The identity of a frame that is registered was not handed out before. -/
theorem not_issued_register (htidy : w.Tidy) (m : MindId) (name : String) (owner : ClassId)
    (parent : Option FrameId) (frame : Frame) : ¬ w.Issued m (w.register m name owner parent frame).1.frame := by
  rintro ⟨mind, hmind, hissued⟩
  have hopen : (w.openOutcome frame.context.this).2.mind? m = some mind := hmind
  unfold World.register at hissued
  dsimp only at hissued
  rw [hopen] at hissued
  exact Mind.not_issued_nextFrameId (htidy m mind hmind) hissued

/-- A frame is stored as it is registered. -/
theorem fresh_register (htidy : w.Tidy) {m : MindId} (name : String) (owner : ClassId) {parent : Option FrameId}
    {frame after : Frame} {e : FrameEntry} (hparent : ∀ p, parent = some p → (w.card m p).isSome = true)
    (he : (w.register m name owner parent frame).2.entryAt m (w.register m name owner parent frame).1.frame = some e)
    (hframe : e.frame = some after) (hfresh : frame.Fresh) : after.Fresh := by
  have hopen : (w.openOutcome frame.context.this).2.mind? m = w.mind? m := rfl
  cases hmind : w.mind? m with
  | none =>
    have hnone : w.entryAt m (w.register m name owner parent frame).1.frame = none := by rw [entryAt, hmind]; rfl
    unfold World.register at he hnone
    simp only [hopen, hmind] at he hnone
    exact absurd (hnone.symm.trans he) (Option.some_ne_none e).symm
  | some mind =>
    unfold World.register at he
    simp only [hopen, hmind] at he
    have hparent : parent ≠ some mind.nextFrameId := by
      intro hp
      have hsome := hparent _ hp
      rw [card, entryAt, hmind, Option.bind_some, Mind.entryAt_nextFrameId (htidy m mind hmind)] at hsome
      cases hsome
    rw [entryAt_modifyMind, if_pos rfl, hopen, hmind, Option.bind_some,
      entryAt_enroll (htidy m mind hmind) rfl hparent, if_pos rfl] at he
    cases he
    cases hframe
    exact ⟨hfresh.updateCount, hfresh.tasks, hfresh.handles⟩

end World

/-! ### Deeds -/

theorem Deed.issued {pumped : Option MindId} {M M' : Moment} (h : Deed pumped M M') (hvalid : M.Valid) {m : MindId}
    {k : FrameId} (hk : M.world.Issued m k) : M'.world.Issued m k := by
  cases h with
  | compute hstill _ _ => exact hk.still hstill
  | register name owner frame => exact hk.register hvalid.sound.filed.tidy _ name owner _ frame
  | begin _ _ _ => exact (World.bookkept_takeFrame ..).issued m k hk
  | back context frame step => exact (World.bookkept_returnFrame ..).issued m k hk
  | stop m' id => exact ((World.closing_bookkept m').stopFrame _ id).issued m k hk
  | sweep m' => exact hk.sweep m'
  | detach m' id => exact (World.bookkept_detachChildren ..).issued m k hk
  | notify m' event payload => exact (World.bookkept_notify ..).issued m k hk
  | setUpdateInterval x seconds => exact (World.bookkept_setUpdateInterval ..).issued m k hk
  | createMind name => exact (World.bookkept_createMind ..).issued m k hk

namespace World

/-- Frames keep their handles, and new ones get handles whose outcomes come after all others. -/
structure Names (v w : World) : Prop where
  issued : ∀ m k, v.Issued m k → w.Issued m k
  size : v.heap.outcomes.size ≤ w.heap.outcomes.size
  entry : ∀ m k e', w.entryAt m k = some e' → (∃ e, v.entryAt m k = some e ∧ e'.handle = e.handle) ∨
    ¬ v.Issued m k ∧ v.heap.outcomes.size ≤ e'.handle.outcome.index

/-- The frame waits for its first step and is stored under the handle, or it has been stopped. -/
def Shelved (w : World) (m : MindId) (k : FrameId) (x : Handle) : Prop :=
  w.status x = .stopped ∨ w.status x = .pending ∧ ∃ e, w.entryAt m k = some e ∧ e.handle = x

/-- If the frame is stored, then it waits for its first step, or it has been stopped. -/
def Unbegun (w : World) (m : MindId) (k : FrameId) : Prop :=
  ∀ e, w.entryAt m k = some e → w.status e.handle = .pending ∨ w.status e.handle = .stopped

variable {u v w : World} {m : MindId} {k : FrameId}

namespace Names

theorem refl (w : World) : Names w w := ⟨fun _ _ ↦ id, Nat.le_refl _, fun _ _ e he ↦ .inl ⟨e, he, rfl⟩⟩

theorem trans (h : Names u v) (h' : Names v w) : Names u w := by
  refine ⟨fun m k hk ↦ h'.issued m k (h.issued m k hk), h.size.trans h'.size, fun m k e'' he'' ↦ ?_⟩
  rcases h'.entry m k e'' he'' with ⟨e', he', hhandle'⟩ | ⟨hnew, hlast⟩
  · rw [hhandle']
    exact h.entry m k e' he'
  · exact .inr ⟨fun hk ↦ hnew (h.issued m k hk), h.size.trans hlast⟩

end Names

theorem Bookkept.entry (h : Bookkept v w) {e' : FrameEntry} (he' : w.entryAt m k = some e') :
    ∃ e, v.entryAt m k = some e ∧ e'.handle = e.handle := by
  have hhandle := h.handle m k
  rw [he', Option.map_some] at hhandle
  obtain ⟨e, he, heq⟩ := Option.map_eq_some_iff.mp hhandle.symm
  exact ⟨e, he, heq.symm⟩

end World

open World

/-- A frame that is stored after a deed was stored before, under the same handle, or it has just been registered as it
was made. -/
theorem Deed.stored {pumped : Option MindId} {M M' : Moment} (h : Deed pumped M M') (hvalid : M.Valid) {m : MindId}
    {k : FrameId} {e' : FrameEntry} (he' : M'.world.entryAt m k = some e') :
    (∃ e, M.world.entryAt m k = some e ∧ e'.handle = e.handle) ∨
      ¬ M.world.Issued m k ∧ M.world.heap.outcomes.size ≤ e'.handle.outcome.index ∧
        M'.world.status e'.handle = .pending ∧ ∀ frame, e'.frame = some frame → frame.Fresh := by
  cases h with
  | compute hstill _ _ => exact .inl ⟨e', by rwa [← hstill.entryAt], rfl⟩
  | @register s w m' name owner parent frame hm hparent hfresh =>
    have hregistered := hvalid.registered name owner frame hm hparent
    obtain ⟨cell, hc'⟩ := hregistered.filed.card he'
    rcases hregistered.card_cases hc' with ⟨rfl, rfl, frame', hcard⟩ | ⟨c, hc, hcard⟩
    · have hhandle : e'.handle = (w.register m name owner parent frame).1 := congrArg Card.handle hcard
      refine .inr ⟨not_issued_register hvalid.sound.filed.tidy m name owner parent frame, ?_, ?_, fun after hafter ↦ ?_⟩
      · rw [hhandle]
        exact hregistered.outcome.ge
      · exact (status_of_card hc').trans (congrArg Card.status hcard)
      · refine fresh_register hvalid.sound.filed.tidy name owner (fun p hp ↦ ?_) he' hafter hfresh
        obtain ⟨c, hc, -⟩ := hvalid.card_of_head? (hparent p hp)
        rw [hc, Option.isSome_some]
    · obtain ⟨e, he, -, hsame⟩ := card_eq_some_iff.mp hc
      have hhandle : e'.handle = c.handle := congrArg Card.handle hcard
      exact .inl ⟨e, he, hhandle.trans (congrArg Card.handle hsame).symm⟩
  | begin _ _ _ => exact .inl ((bookkept_takeFrame ..).entry he')
  | @back s w m' id context frame step =>
    have henter : w.Bookkept (w.enter context s.head?) := .of_minds rfl
    exact .inl ((henter.trans (bookkept_returnFrame ..)).entry he')
  | stop m' id => exact .inl (((closing_bookkept m').stopFrame _ id).entry he')
  | sweep m' =>
    have hswept := swept_sweep hvalid.sound.filed m'
    obtain ⟨cell, hc'⟩ := hswept.filed.card he'
    obtain ⟨e, he, -, hsame⟩ := card_eq_some_iff.mp (hswept.back hc')
    exact .inl ⟨e, he, (congrArg Card.handle hsame).symm⟩
  | detach m' id => exact .inl ((bookkept_detachChildren ..).entry he')
  | notify m' event payload => exact .inl ((bookkept_notify ..).entry he')
  | setUpdateInterval x seconds => exact .inl ((bookkept_setUpdateInterval ..).entry he')
  | createMind name => exact .inl ((bookkept_createMind ..).entry he')

theorem Deed.names {pumped : Option MindId} {M M' : Moment} (h : Deed pumped M M') (hvalid : M.Valid) :
    M.world.Names M'.world where
  issued _ _ := h.issued hvalid
  size := outcomes_le h.act hvalid
  entry _ _ _ he' := (h.stored hvalid he').imp_right fun ⟨hnew, hlast, _⟩ ↦ ⟨hnew, hlast⟩

theorem Journey.names {M M' : Moment} (h : Journey M M') (hvalid : M.Valid) : M.world.Names M'.world := by
  induction h with
  | refl => exact .refl _
  | tail hbefore hdeed ih =>
    obtain ⟨pumped, hdeed⟩ := hdeed
    exact ih.trans (hdeed.names (hvalid.journey hbefore))

/-- Steps are begun one at a time. -/
theorem Deed.stack_cases {pumped : Option MindId} {M M' : Moment} (h : Deed pumped M M') :
    M'.stack = M.stack ∨ (∃ key, M'.stack = key :: M.stack) ∨ ∃ key, M.stack = key :: M'.stack := by
  cases h with
  | begin _ _ _ => exact .inr (.inl ⟨_, rfl⟩)
  | back _ _ _ => exact .inr (.inr ⟨_, rfl⟩)
  | _ => exact .inl rfl

/-- A frame that is stored and running is in the middle of a step. -/
theorem Moment.Valid.mem_of_running {M : Moment} (h : M.Valid) {m : MindId} {k : FrameId} {e : FrameEntry}
    (he : M.world.entryAt m k = some e) (hrun : M.world.status e.handle = .running) : (m, k) ∈ M.stack := by
  obtain ⟨cell, hc⟩ := h.sound.filed.card he
  have hstatus : (e.card cell).status = .running := (status_of_card hc).symm.trans hrun
  have hfits := h.sound.fits m k _ hc
  exact (hfits.framed (congrArg FrameStatus.isFinished hstatus) (hfits.taken hstatus (Set.notMem_empty _))).2

/-- A frame that has not begun its first step begins it only as it is taken out for a step. -/
theorem Deed.shelved {pumped : Option MindId} {M M' : Moment} (h : Deed pumped M M') (hvalid : M.Valid) {m : MindId}
    {k : FrameId} {x : Handle} (hbegin : M'.stack ≠ (m, k) :: M.stack) (hk : M.world.Shelved m k x) :
    M'.world.Shelved m k x := by
  rcases hk with hstopped | ⟨hpending, e, he, rfl⟩
  · obtain ⟨c, hc, hfin⟩ := cell_of_isFinished (w := M.world) (h := x) (by rw [World.isFinished, hstopped]; rfl)
    rw [Shelved, status_of_cell? (h.act.final hvalid hc hfin), ← status_of_cell? hc]
    exact .inl hstopped
  · obtain ⟨cell, hc⟩ := hvalid.sound.filed.card he
    have hcell : cell.status = .pending := (status_of_card hc).symm.trans hpending
    have hadvances := hvalid.advances h.act
    obtain ⟨c', hc', hmoves⟩ := hadvances.cell _ _ (cell_of_card hc)
    obtain ⟨b, hb, hkept⟩ := hadvances.card m k _ hc (congrArg FrameStatus.isFinished hcell)
    obtain ⟨e', he', -, hcard⟩ := card_eq_some_iff.mp hb
    have hhandle : e'.handle = e.handle := (congrArg Card.handle hcard).trans hkept
    have hstatus : M'.world.status e.handle = c'.status := status_of_cell? hc'
    rw [Shelved, hstatus]
    rcases hmoves with rfl | hmoves
    · exact .inr ⟨hcell, e', he', hhandle⟩
    have hmoves : cell.status.Moves c'.status := hmoves
    rw [hcell] at hmoves
    cases hs : c'.status with
    | pending => exact .inr ⟨rfl, e', he', hhandle⟩
    | stopped => exact .inl rfl
    | running =>
      have hmem := (hvalid.act h.act).mem_of_running he' (hhandle ▸ hstatus.trans hs)
      have hout : (m, k) ∉ M.stack := fun hmem ↦ by
        have hrun : cell.status = .running := hvalid.sound.running_of_mem hmem hc
        cases hcell.symm.trans hrun
      rcases h.stack_cases with heq | ⟨key, heq⟩ | ⟨key, heq⟩
      · exact absurd (heq ▸ hmem) hout
      · rw [heq] at hmem
        rcases List.mem_cons.mp hmem with rfl | hmem
        · exact absurd heq hbegin
        · exact absurd hmem hout
      · exact absurd (heq ▸ List.mem_cons_of_mem key hmem) hout
    | _ =>
      rw [hs] at hmoves
      cases hmoves

theorem World.Unbegun.shelved {w : World} {m : MindId} {k : FrameId} (h : w.Unbegun m k) {e : FrameEntry}
    (he : w.entryAt m k = some e) : w.Shelved m k e.handle :=
  (h e he).symm.imp_right fun hpending ↦ ⟨hpending, e, he, rfl⟩

theorem Deed.unbegun {pumped : Option MindId} {M M' : Moment} (h : Deed pumped M M') (hvalid : M.Valid) {m : MindId}
    {k : FrameId} (hbegin : M'.stack ≠ (m, k) :: M.stack) (hk : M.world.Unbegun m k) : M'.world.Unbegun m k := by
  intro e' he'
  rcases h.stored hvalid he' with ⟨e, he, hhandle⟩ | ⟨-, -, hpending, -⟩
  · rw [hhandle]
    exact (h.shelved hvalid hbegin (hk.shelved he)).symm.imp_left And.left
  · exact .inl hpending

end MindScript
