import MindScript.Proofs.Scheduler.Lifetimes
import MindScript.Proofs.Wakeups.Events

/-!
# What a deed leaves to a sleeping frame

Every deed heeds every frame, apart from the frame that begins a step in it and from the queue of the Mind
that is being pumped.
-/

namespace MindScript

namespace World

variable {m m' : MindId} {f id : FrameId} {w : World}

/-! ### Ending and stopping -/

/-- Frames are heeded as long as identities and outcomes are in order, and they stay in order. -/
theorem closing_dozes (m m' : MindId) (f : FrameId) :
    Closing m' fun v w ↦ v.Filed → w.Filed ∧ Dozes m f v w where
  refl w hw := ⟨hw, .refl m f w⟩
  trans h h' hw := ⟨(h' (h hw).1).1, (h hw).2.trans (h' (h hw).1).2⟩
  release w ls hw := ⟨(still_release w ls).filed hw, .release w ls⟩
  clear w id hw :=
    ⟨(revised_clear hw m' id).filed,
      w.dozes_modifyEntry (fun _ ↦ rfl) (fun _ _ hj ↦ hj) fun _ _ e _ ↦
        ⟨rfl, rfl, rfl, fun _ ↦ rfl, fun _ ↦ rfl, rfl, rfl⟩⟩
  mark w id hw :=
    ⟨(revised_tell hw m' id).filed,
      w.dozes_modifyEntry (fun _ ↦ rfl) (fun _ _ hj ↦ hj) fun _ _ e _ ↦
        ⟨rfl, rfl, rfl, fun _ ↦ rfl, fun h ↦ h, rfl, rfl⟩⟩
  settle w id ending _ hw := by
    refine ⟨?_, dozes_settle hw m' id ending⟩
    cases he : w.entryAt m' id with
    | none =>
      unfold settle
      simp only [he]
      exact (still_release w _).filed hw
    | some entry =>
      cases hu : w.isFinished entry.handle with
      | true =>
        unfold settle
        simp only [he, hu, if_true]
        exact (still_release w _).filed hw
      | false => exact (revised_settle hw he hu ending).filed

/-! ### Steps -/

/-- A frame that has been taken out of its entry leaves nothing there that it slept on. -/
theorem entryAt_takeFrame {entry : FrameEntry} (he : w.entryAt m id = some entry) (frame : Frame) :
    (w.takeFrame m id entry frame).entryAt m id = some entry.taken := by
  have hentry : (w.takeFrame m id entry frame).entryAt m id = (w.modifyEntry m id FrameEntry.taken).entryAt m id := rfl
  exact hentry.trans (entryAt_modifyEntry_self he _)

theorem dozes_takeFrame (hw : w.Filed) {entry : FrameEntry} (he : w.entryAt m' id = some entry)
    (hu : w.isFinished entry.handle = false) (frame : Frame) (hne : ¬(m = m' ∧ f = id)) :
    Dozes m f w (w.takeFrame m' id entry frame) := by
  have htaken : Dozes m f w (w.modifyEntry m' id FrameEntry.taken) :=
    w.dozes_modifyEntry (fun _ ↦ rfl) (fun _ _ hj ↦ hj) fun hm hid ↦ absurd ⟨hm.symm, hid.symm⟩ hne
  have hstatus := dozes_setStatus (revised_taken hw m' id).filed (entryAt_modifyEntry_self he FrameEntry.taken) hne
    (s := .running) hu rfl
  exact htaken.trans (hstatus.trans (.of_still ((still_release _ _).trans (still_enter ..)) fun _ hk ↦ hk))

theorem dozes_sleep (hw : w.Filed) {entry : FrameEntry} (he : w.entryAt m' id = some entry)
    (hu : w.isFinished entry.handle = false) (wake : Wake) (hne : ¬(m = m' ∧ f = id)) :
    Dozes m f w (w.sleep m' id wake) := by
  unfold sleep
  simp only [he]
  refine (dozes_setStatus hw he hne hu rfl).trans (dozes_modifyMind _ fun hm mind _ ↦ ?_)
  exact (spares_enlist f mind m' id wake).trans (Mind.spares_modifyEntry _ (fun _ ↦ rfl) (fun _ _ hj ↦ hj)
    fun hid ↦ absurd ⟨hm.symm, hid.symm⟩ hne)

theorem dozes_returnFrame {s : List FrameKey} (h : Sound ∅ ((m', id) :: s) w) (frame : Frame)
    (step : Except EvalError Step) (hne : ¬(m = m' ∧ f = id)) :
    Dozes m f w (w.returnFrame m' id frame step) := by
  obtain ⟨c, hc⟩ := h.card_of_mem List.mem_cons_self
  obtain ⟨e, he, -, hcard⟩ := card_eq_some_iff.mp hc
  have hhandle : e.handle = c.handle := congrArg Card.handle hcard
  have hu : w.isFinished e.handle = false := by
    rw [hhandle, isFinished_of_card hc, h.unfinished_of_mem List.mem_cons_self hc]
  have hfiled := (revised_putBack h.filed m' id frame).filed
  have he' := entryAt_modifyEntry_self he fun e ↦ { e with frame := some frame }
  refine ((closing_dozes m m' f).returnFrame (fun _ ↦ ⟨hfiled, ?_⟩) (fun wake hw ↦ ⟨?_, ?_⟩) step h.filed).2
  · exact w.dozes_modifyEntry (fun _ ↦ rfl) (fun _ _ hj ↦ hj) fun hm hid ↦ absurd ⟨hm.symm, hid.symm⟩ hne
  · exact (revised_sleep hw he' wake).filed
  · exact dozes_sleep hw he' hu wake hne

/-! ### Other functions of the scheduler -/

theorem dozes_register (hw : w.Filed) (name : String) (owner : ClassId) {parent : Option FrameId}
    (frame : Frame) (hparent : m' = m → parent ≠ some f) :
    Dozes m f w (w.register m' name owner parent frame).2 := by
  have hopen : Dozes m f w (w.openOutcome frame.context.this).2 := by
    have hcell := w.cell?_openOutcome frame.context.this
    have hold : ∀ o c, w.cell? o = some c → (w.openOutcome frame.context.this).2.cell? o = some c := by
      intro o c hc
      have hlt := index_of_cell? (Option.isSome_iff_exists.mpr ⟨c, hc⟩)
      rw [hcell, if_neg, hc]
      rintro rfl
      exact Nat.lt_irrefl _ hlt
    refine .of_entries (fun o c hc _ ↦ hold o c hc) (fun x ↦ ?_) (fun _ hk ↦ hk) fun k e he _ ↦
      ⟨e, he, rfl, fun _ hj ↦ hj, fun _ _ ↦ ⟨.refl e, ?_⟩⟩
    · rw [isFinished, isFinished, status_eq, status_eq]
      cases hc : w.cell? x.outcome with
      | some c => rw [hold _ c hc]
      | none =>
        rw [hcell]
        split
        · rfl
        · rw [hc]
    · obtain ⟨c, hc⟩ := Option.isSome_iff_exists.mp (hw.stored m k e he)
      rw [status_of_cell? hc, status_of_cell? (hold _ c hc)]
  unfold register
  dsimp only
  split
  · exact hopen
  · refine hopen.trans (dozes_modifyMind _ fun hm mind hmind ↦ ?_)
    exact Mind.spares_enroll (hw.tidy m mind hmind) (hparent hm)

/-- Removing frames changes the slots and nothing else. -/
theorem foldl_remove_eq (ids : List FrameId) (a : Mind) :
    ∃ slots free, ids.foldl (fun mind id ↦ (mind.remove id).2) a = { a with slots, free } := by
  induction ids generalizing a with
  | nil => exact ⟨a.slots, a.free, rfl⟩
  | cons id rest ih =>
    obtain ⟨slots, free, heq⟩ := ih (a.remove id).2
    refine ⟨slots, free, ?_⟩
    rw [List.foldl_cons, heq]
    unfold Mind.remove
    split <;> rfl

theorem dozes_sweep (w : World) (m m' : MindId) (f : FrameId) : Dozes m f w (w.sweep m') := by
  unfold sweep
  cases hmind : w.mind? m' with
  | none => exact .refl m f w
  | some mind =>
    dsimp only
    split
    · rw [List.partition_eq_filter_filter]
      have hremoved : Dozes m f w (w.modifyMind m' fun mind' ↦
          { (mind.live.toList.filter (w.isSettled mind)).foldl (fun mind id ↦ (mind.remove id).2) mind' with
            live := (mind.live.toList.filter (not ∘ w.isSettled mind)).toArray, unswept := false }) := by
        refine .of_entries (fun _ _ hc _ ↦ hc) (fun _ ↦ rfl) (fun k hk ↦ ?_) fun k e he hu ↦
          ⟨e, ?_, rfl, fun _ hj ↦ hj, fun _ _ ↦ ⟨.refl e, rfl⟩⟩
        · rw [ready, w.map_mind?_modifyMind]
          · exact hk
          · intro _ mind'
            obtain ⟨slots, free, heq⟩ := foldl_remove_eq (mind.live.toList.filter (w.isSettled mind)) mind'
            have hready := congrArg Mind.ready heq
            exact hready
        · rw [entryAt_modifyMind]
          split
          · next heq =>
            subst heq
            rw [entryAt, hmind] at he
            have he : mind.entryAt k = some e := he
            rw [hmind]
            change Mind.entryAt (List.foldl _ mind _) k = some e
            rw [entryAt_foldl_remove, if_neg, he]
            -- An unfinished frame is not swept.
            intro hgone
            have hsettled := (List.mem_filter.mp hgone).2
            rw [isSettled, he] at hsettled
            exact absurd (hu.symm.trans hsettled) (by decide)
          · exact he
      exact hremoved.trans (.release _ _)
    · exact .refl m f w

theorem dozes_detachChildren (w : World) (m m' : MindId) (f id : FrameId) :
    Dozes m f w (w.detachChildren m' id) := by
  unfold detachChildren
  split
  · exact .refl m f w
  · next entry _ =>
    refine w.dozes_modifyMind fun _ mind _ ↦ ?_
    have hempty : mind.Spares f (mind.modifyEntry id fun e ↦ { e with children := #[] }) :=
      mind.spares_modifyEntry (fun _ ↦ rfl) (fun _ _ hj ↦ hj) fun _ e _ ↦
        ⟨rfl, rfl, rfl, fun _ ↦ rfl, fun _ ↦ rfl, rfl, rfl⟩
    refine hempty.trans ?_
    rw [← Array.foldl_toList]
    generalize mind.modifyEntry id _ = mind
    induction entry.children.toList generalizing mind with
    | nil => exact .refl f mind
    | cons c rest ih =>
      have hparent : mind.Spares f (mind.modifyEntry c fun e ↦ { e with parent := none }) :=
        mind.spares_modifyEntry (fun _ ↦ rfl) (fun _ _ hj ↦ hj) fun _ e _ ↦
          ⟨rfl, rfl, rfl, fun _ ↦ rfl, fun h ↦ h, rfl, rfl⟩
      exact hparent.trans (ih _)

theorem dozes_notify (w : World) (m m' : MindId) (f : FrameId) (event : String) (payload : Ref) :
    Dozes m f w (w.notify m' event payload).2 := by
  refine .of_entries (fun o c hc _ ↦ by rw [cell?_notify, hc]) (fun x ↦ by rw [isFinished_notify])
    (fun k hk ↦ ready_notify hk) fun k e he _ ↦ ?_
  rw [entryAt_notify, he, Option.map_some, status_notify]
  split
  · next hheard =>
    -- Who hears the event had no payload yet.
    obtain ⟨rfl, hk⟩ := hheard
    obtain ⟨-, e', he', hawaits⟩ := mem_hearers.mp hk
    obtain rfl := Option.some.inj (he.symm.trans he')
    have hnone := (awaitsEvent_iff.mp hawaits).2.1
    refine ⟨_, rfl, rfl, fun _ hj ↦ hj, fun _ _ ↦ ⟨⟨rfl, rfl, rfl, fun hsome ↦ ?_, fun h ↦ h, rfl, rfl⟩, rfl⟩⟩
    rw [hnone] at hsome
    cases hsome
  · exact ⟨e, rfl, rfl, fun _ hj ↦ hj, fun _ _ ↦ ⟨.refl e, rfl⟩⟩

theorem dozes_createMind (w : World) (m : MindId) (f : FrameId) (name : String) :
    Dozes m f w (w.createMind name).2 := by
  refine .of_entries (fun _ _ hc _ ↦ hc) (fun _ ↦ rfl) (fun k hk ↦ ?_) fun k e he _ ↦
    ⟨e, by rwa [entryAt_createMind], rfl, fun _ hj ↦ hj, fun _ _ ↦ ⟨.refl e, rfl⟩⟩
  rcases mind?_createMind w name m with heq | ⟨hnone, -⟩
  · rwa [ready, heq]
  · rw [ready, hnone] at hk
    exact absurd hk List.not_mem_nil

end World

/-! ### Deeds -/

/-- Outcomes that are final stay as they are. -/
theorem Act.final {M M' : Moment} (h : Act M M') (hvalid : M.Valid) {o : OutcomeId} {c : Outcome}
    (hc : M.world.cell? o = some c) (hfin : c.status.isFinished = true) : M'.world.cell? o = some c := by
  obtain ⟨c', hc', hadvances⟩ := (hvalid.advances h).cell o c hc
  rw [hc', hadvances.of_finished hfin]

/-- A frame whose step is under way has been taken out of its entry. -/
theorem Moment.Valid.frame_of_mem {M : Moment} (h : M.Valid) {m : MindId} {f : FrameId}
    (hmem : (m, f) ∈ M.stack) {e : FrameEntry} (he : M.world.entryAt m f = some e) : e.frame = none := by
  obtain ⟨cell, hc⟩ := h.sound.filed.card he
  exact ((h.sound.fits m f _ hc).stacked hmem).2

/-- A frame that does not begin a step in a deed dozes on, in every Mind that is not being pumped. -/
theorem Deed.dozes {pumped : Option MindId} {M M' : Moment} (h : Deed pumped M M') (hvalid : M.Valid)
    {m : MindId} (hm : pumped ≠ some m) {f : FrameId} (hbegin : M'.stack ≠ (m, f) :: M.stack) :
    M.world.Dozes m f M'.world := by
  have hact := h.act
  cases h with
  | compute hstill _ htends => exact .of_still hstill fun k hk ↦ by rwa [htends.ready m hm]
  | @register s w m' name owner parent frame _ hparent =>
    by_cases hmine : m' = m ∧ parent = some f
    · obtain ⟨rfl, hp⟩ := hmine
      refine .of_running (fun _ _ hc hfin ↦ hact.final hvalid hc hfin) fun e he ↦ ?_
      exact hvalid.frame_of_mem (List.mem_of_mem_head? (hparent f hp)) he
    · exact World.dozes_register hvalid.sound.filed name owner frame fun hm hp ↦ hmine ⟨hm, hp⟩
  | @begin s w m' id e frame he hu _ =>
    refine World.dozes_takeFrame hvalid.sound.filed he hu frame ?_
    rintro ⟨rfl, rfl⟩
    exact hbegin rfl
  | @back s w m' id context frame step =>
    by_cases hmine : m = m' ∧ f = id
    · obtain ⟨rfl, rfl⟩ := hmine
      exact .of_running (fun _ _ hc hfin ↦ hact.final hvalid hc hfin) fun e he ↦
        hvalid.frame_of_mem List.mem_cons_self he
    · have henter := World.still_enter w context s.head?
      exact .trans (.of_still henter fun _ hk ↦ hk)
        (World.dozes_returnFrame (hvalid.sound.still henter) frame step hmine)
  | stop m' id => exact ((World.closing_dozes m m' f).stopFrame _ id hvalid.sound.filed).2
  | sweep m' => exact World.dozes_sweep _ m m' f
  | detach m' id => exact World.dozes_detachChildren _ m m' f id
  | notify m' event payload => exact World.dozes_notify _ m m' f event payload
  | setUpdateInterval x seconds =>
    exact World.dozes_modifyEntry _ (fun _ ↦ rfl) (fun _ _ hj ↦ hj) fun _ _ e _ ↦
      ⟨rfl, rfl, rfl, fun _ ↦ rfl, fun h ↦ h, rfl, rfl⟩
  | createMind name => exact World.dozes_createMind _ m f name

theorem Deed.heeds {pumped : Option MindId} {M M' : Moment} (h : Deed pumped M M') (hvalid : M.Valid)
    {m : MindId} (hm : pumped ≠ some m) {f : FrameId} (hbegin : M'.stack ≠ (m, f) :: M.stack) :
    M.world.Heeds m f M'.world :=
  (h.dozes hvalid hm hbegin).heeds

/-! ### Clocks -/

/-- The clock of the Mind stands where it stood, in the same update if there is one. -/
structure World.SameTick (m : MindId) (w w' : World) : Prop where
  updating : w'.isUpdating m = w.isUpdating m
  clock : w'.clock m = w.clock m
  tick : w'.tick m = w.tick m

namespace World

variable {w w' w'' : World} {m : MindId}

theorem SameTick.refl (m : MindId) (w : World) : SameTick m w w := ⟨rfl, rfl, rfl⟩

theorem SameTick.trans (h : SameTick m w w') (h' : SameTick m w' w'') : SameTick m w w'' :=
  ⟨h'.updating.trans h.updating, h'.clock.trans h.clock, h'.tick.trans h.tick⟩

theorem Bookkept.sameTick (h : Bookkept w w') (m : MindId) : SameTick m w w' := ⟨h.updating m, h.clock m, h.tick m⟩

theorem SameTick.of_minds (h : w'.minds = w.minds) : SameTick m w w' := (Bookkept.of_minds h).sameTick m

/-- A frame is stored in its slot and listed, and logs may take note of it. -/
theorem enroll_eq (mind : Mind) (entry : FrameEntry) :
    ∃ slots free live history, mind.enroll entry = { mind with slots, free, live, history } := by
  unfold Mind.enroll Mind.record Mind.adopt Mind.insert
  cases mind.free <;> cases entry.parent <;> dsimp only <;> split <;> exact ⟨_, _, _, _, rfl⟩

/-- What has nothing to do with frames is the same after a registration. -/
theorem map_mind?_register {α : Type} {g : Mind → α}
    (hg : ∀ mind slots free live history, g { mind with slots, free, live, history } = g mind) (w : World) (m m' : MindId)
    (name : String) (owner : ClassId) (parent : Option FrameId) (frame : Frame) :
    ((w.register m' name owner parent frame).2.mind? m).map g = (w.mind? m).map g := by
  have hopen : ((w.openOutcome frame.context.this).2.mind? m).map g = (w.mind? m).map g := rfl
  unfold World.register
  dsimp only
  split
  · exact hopen
  · refine (World.map_mind?_modifyMind _ fun _ mind ↦ ?_).trans hopen
    obtain ⟨slots, free, live, history, heq⟩ := enroll_eq mind _
    rw [heq]
    exact hg mind slots free live history

/-- What has nothing to do with frames is the same after a sweep. -/
theorem map_mind?_sweep {α : Type} {g : Mind → α}
    (hg : ∀ mind slots free live, g { mind with slots, free, live, unswept := false } = g mind) (w : World) (m m' : MindId) :
    ((w.sweep m').mind? m).map g = (w.mind? m).map g := by
  unfold sweep
  split
  · rfl
  · next mind _ =>
    split
    · rw [List.partition_eq_filter_filter]
      refine World.map_mind?_modifyMind w fun _ mind' ↦ ?_
      obtain ⟨slots, free, heq⟩ := foldl_remove_eq (mind.live.toList.filter (w.isSettled mind)) mind'
      rw [heq]
      exact hg mind' slots free _
    · rfl

theorem sameTick_register (w : World) (m m' : MindId) (name : String) (owner : ClassId) (parent : Option FrameId)
    (frame : Frame) : SameTick m w (w.register m' name owner parent frame).2 where
  updating := congrArg (·.getD false)
    (map_mind?_register (g := Mind.updating) (fun _ _ _ _ _ ↦ rfl) w m m' name owner parent frame)
  clock := congrArg (·.getD 0)
    (map_mind?_register (g := Mind.clock) (fun _ _ _ _ _ ↦ rfl) w m m' name owner parent frame)
  tick := congrArg (·.getD 0)
    (map_mind?_register (g := Mind.tick) (fun _ _ _ _ _ ↦ rfl) w m m' name owner parent frame)

theorem sameTick_sweep (w : World) (m m' : MindId) : SameTick m w (w.sweep m') where
  updating := congrArg (·.getD false) (map_mind?_sweep (g := Mind.updating) (fun _ _ _ _ ↦ rfl) w m m')
  clock := congrArg (·.getD 0) (map_mind?_sweep (g := Mind.clock) (fun _ _ _ _ ↦ rfl) w m m')
  tick := congrArg (·.getD 0) (map_mind?_sweep (g := Mind.tick) (fun _ _ _ _ ↦ rfl) w m m')

end World

/-- A deed does not begin or end an update of a Mind that is not being pumped, or put its clock forward. -/
theorem Deed.sameTick {pumped : Option MindId} {M M' : Moment} (h : Deed pumped M M') {m : MindId}
    (hm : pumped ≠ some m) : M.world.SameTick m M'.world := by
  cases h with
  | compute _ _ htends => exact ⟨htends.updating m hm, htends.clock m hm, htends.tick m hm⟩
  | register name owner frame => exact World.sameTick_register ..
  | begin _ _ _ => exact (World.bookkept_takeFrame ..).sameTick m
  | @back s w m' id context frame step =>
    have henter : w.Bookkept (w.enter context s.head?) := .of_minds rfl
    exact (henter.trans (World.bookkept_returnFrame ..)).sameTick m
  | stop m' id => exact ((World.closing_bookkept m').stopFrame _ id).sameTick m
  | sweep m' => exact World.sameTick_sweep ..
  | detach m' id => exact (World.bookkept_detachChildren ..).sameTick m
  | notify m' event payload => exact (World.bookkept_notify ..).sameTick m
  | setUpdateInterval x seconds => exact (World.bookkept_setUpdateInterval ..).sameTick m
  | createMind name => exact (World.bookkept_createMind ..).sameTick m

/-- Who is pumped matters only to what has nothing to do with frames. -/
theorem Deed.cases_pumped {pumped : Option MindId} {M M' : Moment} (h : Deed pumped M M') :
    M'.stack = M.stack ∧ M.world.Still M'.world ∧ M.world.Tends pumped M'.world ∨ Deed none M M' := by
  cases h with
  | compute hstill _ htends => exact .inl ⟨rfl, hstill, htends⟩
  | register name owner frame hm hparent hfresh => exact .inr (.register name owner frame hm hparent hfresh)
  | begin he hu hframe => exact .inr (.begin he hu hframe)
  | back context frame step => exact .inr (.back context frame step)
  | stop m id => exact .inr (.stop m id)
  | sweep m => exact .inr (.sweep m)
  | detach m id => exact .inr (.detach m id)
  | notify m event payload => exact .inr (.notify m event payload)
  | setUpdateInterval x seconds => exact .inr (.setUpdateInterval x seconds)
  | createMind name => exact .inr (.createMind name)

/-- No clock goes back. -/
theorem Deed.tick_le {pumped : Option MindId} {M M' : Moment} (h : Deed pumped M M') (m : MindId) :
    M.world.tick m ≤ M'.world.tick m := by
  rcases h.cases_pumped with ⟨-, -, htends⟩ | hnone
  · exact htends.tick_le m
  · exact (hnone.sameTick (Option.some_ne_none m).symm).tick.ge

end MindScript
