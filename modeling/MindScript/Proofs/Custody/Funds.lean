import MindScript.Proofs.Custody.Exchange
import MindScript.Proofs.Custody.Stored
import MindScript.Proofs.Scheduler.Listed

/-!
# What the scheduler takes over and hands back

The functions of the scheduler move links between entries, outcomes and the hand of the caller.  A change is funded
if, whatever else is held, the heap covers what is stored and handed back afterwards as it covered what was stored
and taken over before.
-/

namespace MindScript

namespace Mind

variable {mind : Mind} {id : FrameId} {e : FrameEntry}

theorem links_leaveParent (mind : Mind) (parent id : FrameId) : (World.leaveParent mind parent id).links = mind.links := by
  unfold World.leaveParent
  split
  · rfl
  · have herase : (mind.modifyEntry parent fun e ↦ e.without id).links = mind.links :=
      links_modifyEntry_of_eq (f := fun e ↦ e.without id) (fun _ ↦ rfl) mind parent
    dsimp only
    split
    · exact (links_congr (slots_wake ..)).trans herase
    · exact herase

theorem links_enlist (mind : Mind) (m : MindId) (id : FrameId) (wake : Wake) :
    (World.enlist mind m id wake).links = mind.links := by
  unfold World.enlist
  split
  · split
    · refine links_modifyEntry_of_eq ?_ mind _
      exact fun _ ↦ rfl
    · rfl
  · rfl

theorem exists_entryAt_enlist (he : mind.entryAt id = some e) (m : MindId) (k : FrameId) (wake : Wake) :
    ∃ e', (World.enlist mind m k wake).entryAt id = some e' ∧ e'.links = e.links := by
  unfold World.enlist
  split
  · split
    · rw [entryAt_modifyEntry]
      split
      · next heq => exact ⟨{ e with waiters := e.waiters.push k }, by rw [← heq, he, Option.map_some], rfl⟩
      · exact ⟨e, he, rfl⟩
    · exact ⟨e, he, rfl⟩
  · exact ⟨e, he, rfl⟩

/-- An entry that settles keeps its outcome and its receiver and lets go of everything else. -/
theorem count_links_settleEntry (he : mind.entryAt id = some e) (s : FrameStatus) (failure : Option FrameFailure)
    (l : Link) : (World.settleEntry mind id e s failure).links.count l + e.links.count l =
      mind.links.count l + e.settled.links.count l := by
  have hsettled := count_links_modifyEntry he FrameEntry.settled l
  have hrest : (World.settleEntry mind id e s failure).links = (mind.modifyEntry id FrameEntry.settled).links := by
    have hnote : ∀ a : Mind, (failure.elim a.noteFinished a.noteFinished.recordFailure).links = a.links :=
      fun a ↦ by cases failure <;> rfl
    rw [World.settleEntry_eq]
    refine (hnote _).trans ((links_congr (slots_wake ..)).trans ?_)
    unfold World.parted
    cases e.parent with
    | none => exact links_congr (slots_record ..)
    | some parent => exact (links_leaveParent ..).trans (links_congr (slots_record ..))
  rw [hrest]
  exact hsettled

theorem count_links_enroll (h : mind.Tidy) (e : FrameEntry) (l : Link) :
    (mind.enroll e).links.count l = mind.links.count l + e.links.count l := by
  have hadopted : ((mind.insert e).2.adopt e.parent e.handle.frame).links = (mind.insert e).2.links := by
    unfold adopt
    split
    · refine links_modifyEntry_of_eq ?_ _ _
      exact fun _ ↦ rfl
    · rfl
  rw [enroll, links_congr (slots_record ..), hadopted]
  exact count_links_insert h e l

end Mind

namespace Heap

variable {h : Heap} {A B : List Link}

/-- An outcome changes.  What it held is given back, unless it is free or not there at all. -/
theorem Covers.modifyOutcome (hc : h.Covers A) (o : OutcomeId) {f : Outcome → Outcome}
    (hcount : ∀ c, (f c).count = c.count)
    (hle : ∀ c, Within ((f c).links ++ B) (c.links ++ A)) (hBA : Within B A) : (h.modifyOutcome o f).Covers B := by
  cases ho : h.outcome? o with
  | none =>
    have hsame : h.modifyOutcome o f = h := by
      have hout : h.outcomes.modify o.index f = h.outcomes := by
        refine Array.ext (by simp) fun i hi hi' ↦ ?_
        rw [Array.getElem_modify, if_neg]
        rintro rfl
        rw [outcome?, Array.getElem?_eq_getElem hi'] at ho
        cases ho
      rw [Heap.modifyOutcome, hout]
    rw [hsame]
    exact hc.mono hBA
  | some c =>
    refine hc.change (changes_modifyOutcome ho f) (by simp [counted, ho, hcount]) fun l ↦ ?_
    have hl := hle c l
    have hBl := hBA l
    simp only [List.count_append] at hl
    simp only [Outcome.held, hcount]
    split
    · simpa using hBl
    · exact hl

theorem alive_retain {l : Link} (hl : h.Alive l) (l' : Link) : (h.retain l').Alive l := by
  have hmodify : ∀ {α : Type} (count : α → Nat) (f : α → α) (a : Option α), (∀ a, count (f a) = count a + 1) →
      0 < (a.map count).getD 0 → 0 < ((a.map f).map count).getD 0 := by
    intro α count f a hf ha
    cases a <;> simp_all
  cases l' with
  | object r =>
    cases l with
    | object s =>
      simp only [Alive, counted, refCount, retain, object?_modifyObject] at hl ⊢
      split
      · refine hmodify Object.count _ _ ?_ hl
        exact fun _ ↦ rfl
      · exact hl
    | scope s => exact hl
    | outcome o => exact hl
  | scope r =>
    cases l with
    | object s => exact hl
    | scope s =>
      simp only [Alive, counted, retain, scope?_modifyScope] at hl ⊢
      split
      · refine hmodify Scope.count _ _ ?_ hl
        exact fun _ ↦ rfl
      · exact hl
    | outcome o => exact hl
  | outcome r =>
    cases l with
    | object s => exact hl
    | scope s => exact hl
    | outcome o =>
      simp only [Alive, counted, retain, outcome?_modifyOutcome] at hl ⊢
      split
      · refine hmodify Outcome.count _ _ ?_ hl
        exact fun _ ↦ rfl
      · exact hl

end Heap

namespace World

/-- Links that are taken over, with all that is stored, fund the links handed back, with all that is stored then. -/
def Funds (A : List Link) (w : World) (B : List Link) (w' : World) : Prop :=
  ∀ G, w.heap.Covers (A ++ (w.stored ++ G)) → w'.heap.Covers (B ++ (w'.stored ++ G)) ∧
    ∀ r, .object r ∈ G → w'.heap.Destructed r → w.heap.Destructed r

namespace Funds

variable {A B C : List Link} {w w' w'' : World} {m : MindId} {id : FrameId} {e : FrameEntry}

theorem refl (A : List Link) (w : World) : Funds A w A w := fun _ h ↦ ⟨h, fun _ _ hd ↦ hd⟩

theorem trans (h : Funds A w B w') (h' : Funds B w' C w'') : Funds A w C w'' := fun G hG ↦
  have ⟨hG', hold⟩ := h G hG
  have ⟨hG'', hold'⟩ := h' G hG'
  ⟨hG'', fun r hr hd ↦ hold r hr (hold' r hr hd)⟩

/-- What the heap exchanges, and the stored frames have no part in. -/
theorem of_exchanges (h : w.heap.Exchanges A B w'.heap) (hstored : w'.stored = w.stored) : Funds A w B w' := fun G hG ↦ by
  rw [hstored]
  exact ⟨(h _ hG).1, fun r hr ↦ (h _ hG).2 r (List.mem_append_right _ hr)⟩

/-- What nobody is marked by. -/
theorem of_covers (hmarks : ∀ r, w'.heap.Destructed r → w.heap.Destructed r)
    (h : ∀ G, w.heap.Covers (A ++ (w.stored ++ G)) → w'.heap.Covers (B ++ (w'.stored ++ G))) : Funds A w B w' :=
  fun G hG ↦ ⟨h G hG, fun r _ ↦ hmarks r⟩

theorem weaken (h : Funds A w B w') (hle : Within C B) : Funds A w C w' := fun G hG ↦ by
  refine ⟨(h G hG).1.mono fun l ↦ ?_, (h G hG).2⟩
  have hl := hle l
  simp only [List.count_append]
  omega

/-- What is not touched stays in hand. -/
theorem frame (h : Funds A w B w') (C : List Link) : Funds (C ++ A) w (C ++ B) w' := fun G hG ↦ by
  obtain ⟨hG', hold⟩ := h (C ++ G) (hG.mono fun l ↦ by simp only [List.count_append]; omega)
  refine ⟨hG'.mono fun l ↦ ?_, fun r hr ↦ hold r (List.mem_append_right C hr)⟩
  simp only [List.count_append]
  omega

theorem release (w : World) (ls : List Link) : Funds ls w [] (w.release ls) := of_exchanges (.release w.heap ls) rfl

theorem releaseFrom (w : World) (ls B : List Link) : Funds (ls ++ B) w B (w.release ls) :=
  of_exchanges ((Heap.Exchanges.release w.heap ls).frame B) rfl

theorem retain {l : Link} (hl : w.heap.Alive l) : Funds A w (l :: A) (w.retain l) := of_exchanges (.retain hl A) rfl

/-- Links go into one entry or come out of it. -/
theorem modifyEntry (he : w.entryAt m id = some e) {f : FrameEntry → FrameEntry}
    (hle : Within ((f e).links ++ B) (e.links ++ A)) : Funds A w B (w.modifyEntry m id f) := by
  refine of_covers (fun _ hd ↦ hd) fun G hG ↦ ?_
  refine Heap.Covers.mono (show w.heap.Covers (A ++ (w.stored ++ G)) from hG) fun l ↦ ?_
  have hl := hle l
  have hstored := count_stored_modifyEntry he f l
  simp only [List.count_append] at hl ⊢
  omega

/-- A change that leaves the links of all entries alone, and the heap. -/
theorem of_stored (hheap : w'.heap = w.heap) (hstored : w'.stored = w.stored) : Funds A w A w' :=
  of_exchanges (by rw [hheap]; exact .refl A w.heap) hstored

theorem modifyEntry_of_eq (w : World) (m : MindId) (id : FrameId) {f : FrameEntry → FrameEntry}
    (hf : ∀ e, (f e).links = e.links) : Funds A w A (w.modifyEntry m id f) :=
  of_stored rfl (stored_modifyEntry_of_eq hf w m id)

theorem modifyMind {mind : Mind} (hm : w.mind? m = some mind) {f : Mind → Mind}
    (hle : Within ((f mind).links ++ B) (mind.links ++ A)) : Funds A w B (w.modifyMind m f) := by
  refine of_covers (fun _ hd ↦ hd) fun G hG ↦ ?_
  refine Heap.Covers.mono (show w.heap.Covers (A ++ (w.stored ++ G)) from hG) fun l ↦ ?_
  have hl := hle l
  have hstored := count_stored_modifyMind hm f l
  simp only [List.count_append] at hl ⊢
  omega

theorem modifyOutcome (w : World) (o : OutcomeId) {f : Outcome → Outcome} (hcount : ∀ c, (f c).count = c.count)
    (hle : ∀ c, Within ((f c).links ++ B) (c.links ++ A)) (hBA : Within B A) :
    Funds A w B { w with heap := w.heap.modifyOutcome o f } := by
  refine of_covers (fun _ hd ↦ hd) fun G hG ↦ ?_
  show (w.heap.modifyOutcome o f).Covers (B ++ (w.stored ++ G))
  refine hG.modifyOutcome o hcount (fun c l ↦ ?_) fun l ↦ ?_
  · have hl := hle c l
    simp only [List.count_append] at hl ⊢
    omega
  · have hl := hBA l
    simp only [List.count_append] at hl ⊢
    omega

theorem setStatus (w : World) (x : Handle) (s : FrameStatus) : Funds A w A (w.setStatus x s) := by
  refine modifyOutcome w x.outcome ?_ (fun c ↦ ?_) (.refl A)
  · exact fun _ ↦ rfl
  · exact .refl _

end Funds

/-! ### Settling and stopping -/

variable (w : World) (m : MindId)

theorem funds_settle (id : FrameId) (ending : Ending) : Funds ending.links w [] (w.settle m id ending) := by
  unfold settle
  split
  · exact .release w _
  · next entry he =>
    split
    · exact .release w _
    · dsimp only
      let ends : Outcome → Outcome := fun o ↦ { o with
        status := ending.status, result := ending.result?, error := ending.error?.map (w.withFrameOrigin entry) }
      have hended : Funds ending.links w [] { w with heap := w.heap.modifyOutcome entry.handle.outcome ends } := by
        refine .modifyOutcome w _ ?_ (fun c l ↦ ?_) fun l ↦ ?_
        · exact fun _ ↦ rfl
        · simp only [ends, Outcome.links, Ending.links, List.count_append, List.count_nil]
          omega
        · simp
      obtain ⟨mind, hmind, hentry⟩ := Option.bind_eq_some_iff.mp he
      have hthere : mind? { w with heap := w.heap.modifyOutcome entry.handle.outcome ends } m = some mind := hmind
      refine hended.trans (Funds.trans (.modifyMind hthere fun l ↦ ?_) (.release _ _))
      have hsettled := Mind.count_links_settleEntry hentry ending.status
        ((ending.error?.map (w.withFrameOrigin entry)).map fun e ↦ ⟨id, w.frameName m id, e⟩) l
      simp only [FrameEntry.links, FrameEntry.settled, Option.map_none, Option.getD_none, Option.toList_none, List.map_nil,
        List.append_nil, List.count_append] at hsettled ⊢
      omega

variable {w m}

theorem Funds.foldl {α : Type} {f : World → α → World} (hf : ∀ w a, Funds [] w [] (f w a)) (xs : List α) (w : World) :
    Funds [] w [] (xs.foldl f w) :=
  rel_foldl (.refl []) .trans hf xs w

theorem funds_stopWith {finish : World → FrameId → World} (hfinish : ∀ w id, Funds [] w [] (finish w id)) (w : World)
    (id : FrameId) : Funds [] w [] (stopWith finish m w id) := by
  unfold stopWith
  split
  · exact .refl [] w
  · split
    · exact .refl [] w
    · split
      · exact .modifyEntry_of_eq w m id fun _ ↦ rfl
      · exact hfinish w id

theorem funds_finishWithin (n : Nat) (w : World) (id : FrameId) (ending : Ending) :
    Funds ending.links w [] (finishWithin n m w id ending) := by
  induction n generalizing w id ending with
  | zero => exact (Funds.refl _ w).weaken fun l ↦ by simp
  | succ n ih =>
    unfold finishWithin
    split
    · exact .release w _
    · next entry _ =>
      split
      · exact .release w _
      · dsimp only
        rw [← Array.foldl_toList]
        have hclear : Funds [] w [] (w.modifyEntry m id fun e ↦ { e with children := #[] }) :=
          .modifyEntry_of_eq w m id fun _ ↦ rfl
        have hstops := hclear.trans (Funds.foldl (f := stopWith (fun w c ↦ finishWithin n m w c .stopped) m)
          (fun w k ↦ funds_stopWith (fun w c ↦ ih w c .stopped) w k) entry.children.toList _)
        have hkept := hstops.frame ending.links
        rw [List.append_nil] at hkept
        exact hkept.trans (funds_settle _ m id ending)

theorem funds_finishFrame (w : World) (m : MindId) (id : FrameId) (ending : Ending) :
    Funds ending.links w [] (w.finishFrame m id ending) :=
  funds_finishWithin _ w id ending

theorem funds_stopFrame (m : MindId) (w : World) (id : FrameId) : Funds [] w [] (stopFrame m w id) :=
  funds_stopWith (fun w c ↦ funds_finishFrame w m c .stopped) w id

/-! ### Suspending and steps -/

theorem funds_sleep (w : World) (m : MindId) (id : FrameId) (wake : Wake) :
    Funds wake.links w [] (w.sleep m id wake) := by
  unfold sleep
  split
  · exact .release w _
  · next entry he =>
    obtain ⟨mind, hmind, hentry⟩ := Option.bind_eq_some_iff.mp he
    have hthere : (w.setStatus entry.handle .suspended).mind? m = some mind := hmind
    refine (Funds.setStatus w entry.handle .suspended).trans (.modifyMind hthere fun l ↦ ?_)
    obtain ⟨e, he, hsame⟩ := Mind.exists_entryAt_enlist hentry m id wake
    have hlinks := Mind.count_links_modifyEntry he (fun e ↦ { e with
      suspendedTick := mind.tick
      nextUpdate := if e.updateInterval > 0 then mind.clock + e.updateInterval else e.nextUpdate
      wake := some wake }) l
    rw [Mind.links_enlist] at hlinks
    simp only [FrameEntry.links, Option.map_some, Option.getD_some, List.count_append, List.count_nil] at hlinks hsame ⊢
    omega

theorem funds_suspendFrame (w : World) (m : MindId) (id : FrameId) (wake : Wake) :
    Funds wake.links w [] (w.suspendFrame m id wake) := by
  unfold suspendFrame
  split
  · next x =>
    split
    · have hfinished := (funds_finishFrame w m id (.failed (.ofKind (.schedulerFault (w.frameName m id))))).frame
        (Wake.frame x).links
      exact hfinished.trans (.release _ _)
    · exact funds_sleep w m id _
  · exact funds_sleep w m id _

theorem funds_conclude (w : World) (m : MindId) (id : FrameId) (step : Except EvalError Step) :
    Funds (stepLinks step) w [] (w.conclude m id step) := by
  unfold conclude
  split
  · exact funds_finishFrame w m id (.completed _)
  · exact funds_suspendFrame w m id _
  · next e => exact (Funds.release w _).trans (funds_finishFrame _ m id (.failed e.toFailure))

/-- A frame that comes back from a step is stored again, and its step is concluded. -/
theorem funds_returnFrame (w : World) (m : MindId) (id : FrameId) (frame : Frame) (step : Except EvalError Step) :
    Funds (frame.links ++ stepLinks step) w [] (w.returnFrame m id frame step) := by
  unfold returnFrame
  split
  · exact .release w _
  · next entry he =>
    have hback : Funds (frame.links ++ stepLinks step) w (stepLinks step)
        (w.modifyEntry m id fun e ↦ { e with frame := some frame }) := .modifyEntry he fun l ↦ by
      simp only [FrameEntry.links, Option.map_some, Option.getD_some, List.count_append]
      omega
    have hconcluded := hback.trans (funds_conclude _ m id step)
    dsimp only
    split
    · exact hconcluded.trans (funds_stopFrame m _ id)
    · exact hconcluded

/-- A frame that is taken out brings its links and the delivered payload into the hand. -/
theorem funds_takeFrame {id : FrameId} {entry : FrameEntry} {frame : Frame} (he : w.entryAt m id = some entry)
    (hframe : entry.frame = some frame) :
    Funds [] w (frame.links ++ entry.delivered.toList.map .object) (w.takeFrame m id entry frame) := by
  have htaken : Funds [] w ((entry.wake.map Wake.links).getD [] ++ (frame.links ++ entry.delivered.toList.map .object))
      (w.modifyEntry m id FrameEntry.taken) := .modifyEntry he fun l ↦ by
    simp only [FrameEntry.links, FrameEntry.taken, hframe, Option.map_some, Option.getD_some, Option.map_none,
      Option.getD_none, Option.toList_none, List.map_nil, List.count_append, List.count_nil]
    omega
  have hrunning := htaken.trans (.setStatus _ entry.handle .running)
  exact hrunning.trans (.releaseFrom _ _ _)

/-! ### Registering and sweeping -/

/-- A new frame takes its links over; the handle that is handed back counts as one reference to its outcome. -/
theorem funds_register (htidy : w.Tidy) (name : String) (owner : ClassId) (parent : Option FrameId) {frame : Frame}
    (hthis : w.heap.Alive (.object frame.context.this)) :
    Funds frame.links w [.outcome (w.register m name owner parent frame).1.outcome]
      (w.register m name owner parent frame).2 := by
  let outcome : OutcomeId := (w.heap.newOutcome .pending).1
  have hopen : Funds frame.links w (.outcome outcome :: .object frame.context.this :: .outcome outcome :: frame.links)
      (w.openOutcome frame.context.this).2 := fun G hG ↦ by
    have hnew := hG.newOutcome .pending
    have hstays : (w.heap.newOutcome .pending).2.Alive (.object frame.context.this) := hthis
    have hfresh := Heap.alive_retain (hnew.alive List.mem_cons_self) (.object frame.context.this)
    exact ⟨(hnew.retain hstays).retain hfresh, fun r _ ↦
      Heap.Exchanges.destructed_of_modifyObject (f := fun o ↦ { o with count := o.count + 1 }) fun _ ↦ rfl⟩
  unfold register
  dsimp only
  split
  · refine hopen.weaken fun l ↦ ?_
    show List.count l [.outcome outcome] ≤ _
    simp only [count_cons_hits, List.count_nil]
    omega
  · next mind hmind =>
    refine hopen.trans (.modifyMind (show (w.openOutcome frame.context.this).2.mind? m = some mind from hmind) fun l ↦ ?_)
    let entry : FrameEntry :=
      { handle := ⟨m, mind.nextFrameId, name, outcome⟩, owner, this := frame.context.this, parent
        frame := some { frame with startedAt := mind.clock } }
    have hlinks := Mind.count_links_enroll (htidy m mind hmind) entry l
    have hentry : entry.links = .outcome outcome :: .object frame.context.this :: frame.links := by
      simp only [entry, FrameEntry.links, Frame.links]
      rfl
    rw [hentry] at hlinks
    show List.count l ((mind.enroll entry).links ++ [.outcome outcome]) ≤ _
    simp only [List.count_append, count_cons_hits, List.count_nil] at hlinks ⊢
    omega

/-- The frames that are swept take with them what they hold. -/
theorem funds_sweep (hlisted : w.Listed) (m : MindId) : Funds [] w [] (w.sweep m) := by
  unfold sweep
  split
  · exact .refl [] w
  · next mind hmind =>
    split
    · rw [List.partition_eq_filter_filter]
      dsimp only
      have hmindListed := hlisted.mind hmind
      refine Funds.trans (.modifyMind hmind fun l ↦ ?_) (.release _ _)
      have hremoved := @Mind.count_links_foldl_remove mind (mind.live.toList.filter (w.isSettled mind))
        (hmindListed.once.filter _) (fun id hid ↦ (hmindListed.mem id).mp (List.mem_of_mem_filter hid)) l
      have hcongr := Mind.links_congr (a := (mind.live.toList.filter (w.isSettled mind)).foldl
        (fun mind id ↦ (mind.remove id).2) mind) (b := { (mind.live.toList.filter (w.isSettled mind)).foldl
        (fun mind id ↦ (mind.remove id).2) mind with
          live := (mind.live.toList.filter (not ∘ w.isSettled mind)).toArray, unswept := false }) rfl
      rw [hcongr, List.count_append]
      simp only [List.append_nil]
      omega
    · exact .refl [] w

theorem funds_detachChildren (w : World) (m : MindId) (id : FrameId) : Funds [] w [] (w.detachChildren m id) := by
  unfold detachChildren
  split
  · exact .refl [] w
  · next entry he =>
    obtain ⟨mind, hmind, -⟩ := Option.bind_eq_some_iff.mp he
    refine .modifyMind hmind fun l ↦ ?_
    have hfold : ∀ (ids : List FrameId) (a : Mind),
        (ids.foldl (fun mind c ↦ mind.modifyEntry c fun e ↦ { e with parent := none }) a).links = a.links := by
      intro ids
      induction ids with
      | nil => exact fun _ ↦ rfl
      | cons k rest ih =>
        intro a
        refine (ih _).trans (Mind.links_modifyEntry_of_eq ?_ a k)
        exact fun _ ↦ rfl
    have hclear : (mind.modifyEntry id fun e ↦ { e with children := #[] }).links = mind.links := by
      refine Mind.links_modifyEntry_of_eq ?_ mind id
      exact fun _ ↦ rfl
    rw [← Array.foldl_toList, hfold, hclear]

theorem funds_notify (w : World) (m : MindId) (event : String) {payload : Ref} (hp : w.heap.Alive (.object payload)) :
    Funds [] w [] (w.notify m event payload).2 := by
  unfold notify
  split
  · exact .refl [] w
  · next mind _ =>
    have hdeliver : ∀ (ids : List FrameId) (w : World), w.heap.Alive (.object payload) → Funds [] w []
        (ids.foldl (fun w id ↦ (w.retain (.object payload)).modifyEntry m id fun e ↦
          { e with delivered := some payload }) w) := by
      intro ids
      induction ids with
      | nil => exact fun w _ ↦ .refl [] w
      | cons id rest ih =>
        intro w hp
        have hone : Funds [] w [] ((w.retain (.object payload)).modifyEntry m id fun e ↦
            { e with delivered := some payload }) := by
          refine (Funds.retain hp).trans ?_
          cases he : (w.retain (.object payload)).entryAt m id with
          | none =>
            refine .of_covers (fun _ hd ↦ hd) fun G hG ↦ Heap.Covers.mono hG fun l ↦ ?_
            have hstored := count_stored_modifyEntry_of_none he (fun e ↦ { e with delivered := some payload }) l
            simp only [List.nil_append, List.cons_append, count_cons_hits, List.count_append]
            omega
          | some e =>
            refine .modifyEntry he fun l ↦ ?_
            simp only [FrameEntry.links, Option.toList_some, List.map_cons, List.map_nil, List.count_append,
              List.count_nil]
            omega
        exact hone.trans (ih _ (Heap.alive_retain hp _))
    dsimp only
    have hwoken := hdeliver (mind.live.toList.filter fun id ↦ (mind.entryAt id).any (w.awaitsEvent event)) w hp
    split
    · refine hwoken.trans (.of_stored rfl ?_)
      refine stored_modifyMind_of_slots _ m fun mind ↦ ?_
      exact Mind.slots_wake ..
    · exact hwoken

end World

end MindScript
