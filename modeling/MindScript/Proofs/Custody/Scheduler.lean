import MindScript.Proofs.Custody.Footing
import MindScript.Proofs.Custody.Funds
import MindScript.Proofs.Scheduler.Runs

/-!
# Custody in the scheduler

The functions of the scheduler keep a world sane.  A frame that is registered takes its links from the hand, one that
is taken out for a step brings them there, and afterwards they go back.
-/

namespace MindScript.World.Sane

variable {σ : Footing} {A B G : List Link} {w w' : World} {m : MindId} {id : FrameId}

/-- What is funded from the hand and from what is stored leaves covered whatever else is held, and the instances under
construction unmarked. -/
theorem funded (h : Sane σ A w) {v v' : World} (hheap : v.heap = w.heap) {C B : List Link} (hfunds : Funds C v B v')
    {G : List Link} (hle : Within (C ++ (v.stored ++ G)) (A ++ w.roots)) :
    v'.heap.Covers (B ++ (v'.stored ++ (G ++ σ.building.map .object))) ∧ ∀ r ∈ σ.building, ¬ v'.heap.Destructed r := by
  obtain ⟨hcovers, hold⟩ := hfunds (G ++ σ.building.map .object) (hheap ▸ h.covered.mono fun l ↦ by
    have hl := hle l
    simp only [List.count_append] at hl ⊢
    omega)
  refine ⟨hcovers, fun r hr hd ↦ h.unmarked r hr (hheap ▸ hold r ?_ hd)⟩
  exact List.mem_append_right G (List.mem_map_of_mem hr)

/-- What a deed that is funded does to a sane world. -/
theorem inward (h : Sane σ (A ++ G) w) (hdeed : ∃ pumped, Deed pumped ⟨σ.stack, w⟩ ⟨σ.stack, w'⟩)
    (hin : Inward w w') (hfunds : Funds A w B w') (hages : w.heap.Ages w'.heap)
    (hframes : ∀ fr, w'.Stores fr → fr.Decent σ.Knows) (hposted : w'.Posted) (hblames : Blames w w') :
    Sane σ (B ++ G) w' where
  books :=
    let ⟨_, hdeed⟩ := hdeed
    ⟨h.books.valid.act hdeed.act, hdeed.listed h.books.valid h.books.listed, hposted, hframes,
      h.books.failures_after hblames⟩
  this := hin.context ▸ h.this
  rooted := hin.context ▸ h.rooted
  classes := hin.classes ▸ h.classes
  minds := hin.minds ▸ h.minds
  covered := by
    rw [roots, hin.context, hin.classes]
    refine (h.funded rfl hfunds (G := G ++ (w.context.links ++ (w.classes.classDataValues.map .object ++
      [.object .nil]))) fun l ↦ ?_).1.mono fun l ↦ ?_
    · simp only [roots, List.count_append]
      omega
    · simp only [List.count_append]
      omega
  unmarked := (h.funded rfl hfunds (G := []) fun l ↦ by simp only [roots, List.count_append, List.count_nil]; omega).2
  typed := h.typed.of_stock hages.stock (by rw [hin.classes])
  queued := hages.queued h.queued
  members := hin.classes ▸ h.members

/-! ### Stopping and sweeping -/

theorem stopFrame (h : Sane σ A w) (m : MindId) (id : FrameId) : Sane σ A (World.stopFrame m w id) :=
  h.inward (A := []) (B := []) ⟨none, .stop m id⟩ (inward_stopFrame m w id) (funds_stopFrame m w id)
    ((closing_deals m).stopFrame w id).ages (fun fr hfr ↦ h.books.frames fr ((closing_noNewFrames m).stopFrame w id fr hfr))
    (h.books.posted.tethers ((closing_tethers m).stopFrame w id)) ((closing_blames m).stopFrame w id)

theorem sweep (h : Sane σ A w) (m : MindId) : Sane σ A (w.sweep m) :=
  h.inward (A := []) (B := []) ⟨none, .sweep m⟩ (inward_sweep w m) (funds_sweep h.books.listed m)
    (deals_sweep w m).ages (fun fr hfr ↦ h.books.frames fr (noNewFrames_sweep w m fr hfr))
    (h.books.posted.tethers (tethers_sweep w m)) (blames_sweep w m)

theorem settleMind (h : Sane σ A w) (m : MindId) : Sane σ A (w.settleMind m) := by
  unfold World.settleMind
  split
  · exact h
  · exact h.sweep m

theorem foldl {α : Type} {f : World → α → World} (hf : ∀ {w} a, Sane σ A w → Sane σ A (f w a)) (xs : List α)
    (h : Sane σ A w) : Sane σ A (xs.foldl f w) := by
  induction xs generalizing w with
  | nil => exact h
  | cons a rest ih => exact ih (hf a h)

theorem stop (h : Sane σ A w) (x : Handle) : Sane σ A (w.stop x) := by
  unfold World.stop
  split
  · exact (h.stopFrame x.mind x.frame).settleMind x.mind
  · exact h

theorem stopAll (h : Sane σ A w) (m : MindId) : Sane σ A (w.stopAll m) := by
  unfold World.stopAll
  split
  · exact h
  · exact (foldl (fun id h ↦ h.stopFrame m id) _ h).settleMind m

theorem stopAllFor (h : Sane σ A w) (target : Ref) : Sane σ A (w.stopAllFor target) := by
  refine foldl (fun m h ↦ ?_) _ h
  unfold stopOnMind
  split
  · exact h
  · exact (foldl (fun id h ↦ h.stopFrame m id) _ h).settleMind m

theorem stopEverything (h : Sane σ A w) : Sane σ A w.stopEverything := foldl (fun m h ↦ h.stopAll m) _ h

/-! ### Waking and settings -/

theorem detachChildren (h : Sane σ A w) (m : MindId) (id : FrameId) : Sane σ A (w.detachChildren m id) :=
  h.inward (A := []) (B := []) ⟨none, .detach m id⟩ (inward_detachChildren w m id)
    (funds_detachChildren w m id) (deals_detachChildren w m id).ages
    (fun fr hfr ↦ h.books.frames fr (noNewFrames_detachChildren w m id fr hfr))
    (h.books.posted.tethers (tethers_detachChildren w m id)) (blames_detachChildren w m id)

theorem notify (h : Sane σ A w) (m : MindId) (event : String) {payload : Ref} (hp : w.heap.Alive (.object payload)) :
    Sane σ A (w.notify m event payload).2 :=
  h.inward (A := []) (B := []) ⟨none, .notify m event payload⟩ (inward_notify w m event payload)
    (funds_notify w m event hp) (deals_notify w m event payload).ages
    (fun fr hfr ↦ h.books.frames fr (noNewFrames_notify w m event payload fr hfr))
    (h.books.posted.tethers (tethers_notify w m event payload)) (blames_notify w m event payload)

theorem setUpdateInterval (h : Sane σ A w) (x : Handle) (seconds : Float) :
    Sane σ A (w.setUpdateInterval x seconds) := by
  have hdeed : Deed none ⟨σ.stack, w⟩ ⟨σ.stack, w.setUpdateInterval x seconds⟩ := .setUpdateInterval x seconds
  unfold World.setUpdateInterval at hdeed ⊢
  generalize World.atLeastZero seconds = interval at hdeed ⊢
  have htethers : Tethers w (w.modifyEntry x.mind x.frame fun e ↦ { e with updateInterval := interval }) :=
    .modifyEntry w _ _ (fun _ ↦ rfl) (fun _ _ hw ↦ hw) fun _ ↦ rfl
  have hframes : NoNewFrames w (w.modifyEntry x.mind x.frame fun e ↦ { e with updateInterval := interval }) :=
    noNewFrames_modifyEntry w _ _ fun _ _ hfr ↦ hfr
  exact h.inward (A := []) (B := []) ⟨none, hdeed⟩ (inward_modifyEntry ..) (.modifyEntry_of_eq w _ _ fun _ ↦ rfl)
    (.refl _) (fun fr hfr ↦ h.books.frames fr (hframes fr hfr)) (h.books.posted.tethers htethers) (.of_outcomes rfl)

/-- What a Mind notes of its queues, its clock and its settings has nothing to do with its frames. -/
theorem modifyMind (h : Sane σ A w) (m : MindId) {f : Mind → Mind} (hslots : ∀ mind, (f mind).slots = mind.slots)
    (hfree : ∀ mind, (f mind).free = mind.free) (hlive : ∀ mind, (f mind).live = mind.live)
    (htick : ∀ mind, mind.tick ≤ (f mind).tick) : Sane σ A (w.modifyMind m f) := by
  have hin := inward_modifyMind w m f
  have hstill := still_modifyMind w m hslots hfree
  refine h.inward (A := []) (B := [])
    ⟨some m, .compute hstill hin.steady (tends_modifyMind w m hlive htick fun hne ↦ absurd rfl hne)⟩ hin
    (.of_stored rfl (stored_modifyMind_of_slots w m hslots)) (.refl _) (fun fr hfr ↦ h.books.frames fr ?_)
    (h.books.posted.tethers (.of_still hstill)) (.of_outcomes rfl)
  exact NoNewFrames.modifyMind w m (fun mind _ ↦ Mind.stores_congr (hslots mind)) fr hfr

theorem createMind (h : Sane σ A w) (name : String) : Sane σ A (w.createMind name).2 := by
  have hdeed : Deed none ⟨σ.stack, w⟩ ⟨σ.stack, (w.createMind name).2⟩ := .createMind name
  have hstored : (w.createMind name).2.stored = w.stored := by
    simp [stored, World.createMind, Mind.links]
  refine ⟨⟨h.books.valid.act hdeed.act, hdeed.listed h.books.valid h.books.listed, h.books.posted.createMind name, ?_,
    h.books.failures_after (.of_outcomes rfl)⟩,
    h.this, h.rooted, h.classes, Nat.le_trans h.minds (by simp [World.createMind]), ?_, h.unmarked,
    h.typed.of_stock rfl rfl, h.queued, h.members⟩
  · rintro fr ⟨m, id, e, he, hfr⟩
    exact h.books.frames fr ⟨m, id, e, by rwa [entryAt_createMind] at he, hfr⟩
  · rw [roots, hstored]
    exact h.covered

/-! ### Frames -/

/-- A registered frame takes its links over, and the handle comes into the hand. -/
theorem register (name : String) (owner : ClassId) {parent : Option FrameId} {frame : Frame}
    (h : Sane σ (frame.links ++ A) w) (hm : m.index < w.minds.size)
    (hparent : ∀ p, parent = some p → σ.stack.head? = some (m, p)) (hframe : frame.Decent σ.Knows) (hfresh : frame.Fresh) :
    Sane σ (.outcome (w.register m name owner parent frame).1.outcome :: A) (w.register m name owner parent frame).2 := by
  have hthis : w.heap.Alive (.object frame.context.this) := h.alive (by simp [Frame.links, Context.links])
  refine h.inward (B := [_]) ⟨none, .register name owner frame hm hparent hfresh⟩ (inward_register ..)
    (funds_register h.books.valid.sound.filed.tidy name owner parent hthis) (deals_register ..).ages (fun fr hfr ↦ ?_) ?_
    (blames_register w m name owner parent frame)
  · rcases stores_register w m h.books.valid.sound.filed.tidy name owner parent frame hfr with ⟨startedAt, rfl⟩ | hold
    · exact ⟨hframe.rooted, hframe.body⟩
    · exact h.books.frames fr hold
  · refine h.books.posted.register h.books.valid.sound.filed.tidy m name owner parent frame fun m k e x he hx ↦ ?_
    have halive := h.alive_stored he (l := .outcome x.outcome) (by simp [FrameEntry.links, hx, Wake.links])
    obtain ⟨o, ho, -⟩ := Heap.outcome?_of_alive halive
    exact (Array.getElem?_eq_some_iff.mp ho).1

/-- A frame that is taken out for a step: its context is the running one, and the one before is in hand. -/
theorem takeFrame (h : Sane σ A w) {entry : FrameEntry} {frame : Frame} (he : w.entryAt m id = some entry)
    (hu : w.isFinished entry.handle = false) (hframe : entry.frame = some frame) :
    Sane { σ with stack := (m, id) :: σ.stack, this := frame.context.this }
      (w.context.links ++ (frame.body.links ++ (entry.delivered.toList.map .object ++ A)))
      (w.takeFrame m id entry frame) := by
  have hdeed : Deed none ⟨σ.stack, w⟩ ⟨(m, id) :: σ.stack, w.takeFrame m id entry frame⟩ := .begin he hu hframe
  have hdecent := h.books.frames frame ⟨m, id, entry, he, hframe⟩
  have hages := (deals_takeFrame w m id entry frame).ages
  have hfunded := h.funded rfl (funds_takeFrame he hframe)
    (G := A ++ (w.context.links ++ (w.classes.classDataValues.map .object ++ [.object .nil]))) fun l ↦ by
      simp only [roots, List.count_append, List.count_nil]
      omega
  refine ⟨⟨h.books.valid.act hdeed.act, hdeed.listed h.books.valid h.books.listed,
    h.books.posted.tethers (tethers_takeFrame w m id hu frame),
    fun fr hfr ↦ h.books.frames fr (noNewFrames_takeFrame w m id entry frame fr hfr),
    h.books.failures_after (blames_takeFrame w m id entry frame)⟩,
    rfl, hdecent.rooted, h.classes,
    h.minds.trans (by simp [World.takeFrame, World.enter, World.release, World.setStatus, World.modifyEntry]), ?_, ?_,
    h.typed.of_stock hages.stock rfl, hages.queued h.queued, h.members⟩
  · refine hfunded.1.mono fun l ↦ ?_
    have hcontext : (w.takeFrame m id entry frame).context = frame.context := rfl
    have hclasses : (w.takeFrame m id entry frame).classes = w.classes := rfl
    simp only [roots, Frame.links, hcontext, hclasses, List.count_append]
    omega
  · exact hfunded.2

/-- A frame that comes back from a step: the context before is the running one again. -/
theorem returnFrame {saved : Context} {frame : Frame} {step : Except EvalError Step} {this : Ref}
    (h : Sane { σ with stack := (m, id) :: σ.stack, this } (saved.links ++ (frame.body.links ++ (stepLinks step ++ A))) w)
    (hsaved : saved.Rooted) (hthis : saved.this = σ.this) (hcontext : frame.context = w.context)
    (hbody : frame.body.Decent σ.Knows) :
    Sane σ A ((w.enter saved σ.stack.head?).returnFrame m id frame step) := by
  have hdeed : Deed none ⟨(m, id) :: σ.stack, w⟩ ⟨σ.stack, (w.enter saved σ.stack.head?).returnFrame m id frame step⟩ :=
    .back saved frame step
  have hin := inward_returnFrame (w.enter saved σ.stack.head?) m id frame step
  have hages := (deals_returnFrame (w.enter saved σ.stack.head?) m id frame step).ages
  have hposted : (w.enter saved σ.stack.head?).Posted := h.books.posted.tethers (.of_still (still_enter ..))
  have hblames : Blames w ((w.enter saved σ.stack.head?).returnFrame m id frame step) :=
    (Blames.of_outcomes rfl).trans (blames_returnFrame _ m id frame step)
  have hclasses : ((w.enter saved σ.stack.head?).returnFrame m id frame step).classes = w.classes := hin.classes
  have hfunded := h.funded rfl (funds_returnFrame (w.enter saved σ.stack.head?) m id frame step)
    (G := saved.links ++ (A ++ (w.classes.classDataValues.map .object ++ [.object .nil]))) fun l ↦ by
      simp only [roots, Frame.links, hcontext, List.count_append]
      omega
  refine ⟨⟨h.books.valid.act hdeed.act, hdeed.listed h.books.valid h.books.listed,
    hposted.returnFrame frame step fun e he ↦ ?_, fun fr hfr ↦ ?_, h.books.failures_after hblames⟩, ?_, ?_, ?_,
    hin.minds ▸ h.minds, ?_, ?_, ?_, hages.queued h.queued, ?_⟩
  · obtain ⟨c, hc, hu⟩ := h.books.valid.card_of_head? rfl
    obtain ⟨e', he', -, hcard⟩ := card_eq_some_iff.mp hc
    obtain rfl : e' = e := Option.some.inj (he'.symm.trans he)
    have hhandle : e'.handle = c.handle := congrArg Card.handle hcard
    exact (congrArg w.isFinished hhandle).trans ((isFinished_of_card hc).trans hu)
  · rcases stores_returnFrame _ m id frame step hfr with rfl | hold
    · exact ⟨hcontext ▸ h.rooted, hbody⟩
    · exact h.books.frames fr hold
  · exact (congrArg Context.this hin.context).trans hthis
  · exact hin.context ▸ hsaved
  · rw [hclasses]
    exact h.classes
  · refine hfunded.1.mono fun l ↦ ?_
    have hnow : (w.enter saved σ.stack.head?).context = saved := rfl
    simp only [roots, hin.context, hclasses, hnow, List.count_append, List.count_nil]
    omega
  · exact hfunded.2
  · exact h.typed.of_stock hages.stock (by rw [hclasses])
  · rw [hclasses]
    exact h.members

end MindScript.World.Sane
