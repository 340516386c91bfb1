import MindScript.Proofs.Scheduler.Reachable
import MindScript.Proofs.Scheduler.Search

/-!
# Frames that wait for each other

A frame waits for the frame that it awaits, and for its children.  No frame ever waits for itself through
others: a new frame waits for nobody, a frame that falls asleep is checked, and everything else only takes
frames and links away.
-/

namespace MindScript

open Relation

namespace World

/-- A frame of the Mind that has not finished. -/
def Unfinished (w : World) (m : MindId) (id : FrameId) : Prop :=
  ∃ e, w.entryAt m id = some e ∧ w.isFinished e.handle = false

/-- One unfinished frame waits for another one of the same Mind: it sleeps until the other ends, or the
other is its child. -/
def Waits (w : World) (m : MindId) (f t : FrameId) : Prop :=
  w.Unfinished m t ∧ ∃ e, w.entryAt m f = some e ∧ w.isFinished e.handle = false ∧
    ((w.status e.handle = .suspended ∧ ∃ x, e.wake = some (.frame x) ∧ x.mind = m ∧ x.frame = t) ∨
      t ∈ e.children)

end World

/-- A frame that a card names as one to wait for. -/
def Card.Names (c : Card) (m : MindId) (t : FrameId) : Prop :=
  (∃ x, c.wake = some (.frame x) ∧ x.mind = m ∧ x.frame = t) ∨ t ∈ c.children

namespace World

variable {X : Set FrameKey} {stack : List FrameKey} {w w' w'' : World} {m : MindId} {id f t : FrameId}
  {c : Card} {G : MindId → FrameId → Card → Card} {age : Nat}

/-- The graph of waiting frames, read off the cards. -/
def Leads (w : World) (m : MindId) (f t : FrameId) : Prop :=
  ∃ a b, w.card m f = some a ∧ a.isFinished = false ∧ a.Names m t ∧ w.card m t = some b ∧ b.isFinished = false

theorem waits_iff_leads (h : Sound X stack w) : w.Waits m f t ↔ w.Leads m f t := by
  constructor
  · rintro ⟨⟨e', he', hu'⟩, e, he, hu, hnames⟩
    obtain ⟨cell', hc'⟩ := h.filed.card he'
    obtain ⟨cell, hc⟩ := h.filed.card he
    refine ⟨_, _, hc, (isFinished_of_card hc).symm.trans hu, ?_, hc', (isFinished_of_card hc').symm.trans hu'⟩
    exact hnames.imp_left fun ⟨_, hwake⟩ ↦ hwake
  · rintro ⟨a, b, ha, hua, hnames, hb, hub⟩
    obtain ⟨e, he, -, hea⟩ := card_eq_some_iff.mp ha
    obtain ⟨e', he', -, heb⟩ := card_eq_some_iff.mp hb
    have hhandle : e.handle = a.handle := congrArg Card.handle hea
    have hhandle' : e'.handle = b.handle := congrArg Card.handle heb
    have hwake : e.wake = a.wake := congrArg Card.wake hea
    have hchildren : e.children = a.children := congrArg Card.children hea
    refine ⟨⟨e', he', by rw [hhandle', isFinished_of_card hb, hub]⟩, e, he, ?_, ?_⟩
    · rw [hhandle, isFinished_of_card ha, hua]
    · rw [hhandle, status_of_card ha, hwake, hchildren]
      refine hnames.imp_left fun ⟨x, hx, hrest⟩ ↦ ⟨(h.fits m f a ha).waits.mp ?_, x, hx, hrest⟩
      rw [hx, Option.isSome_some]

theorem awaits_iff (hw : w.Filed) :
    w.Awaits m f t ↔ ∃ c, w.card m f = some c ∧ c.isFinished = false ∧ c.Names m t := by
  unfold Awaits waitsFor
  cases he : w.entryAt m f with
  | none => simp [card, he]
  | some e =>
    obtain ⟨cell, hc⟩ := hw.card he
    have hfin := isFinished_of_card hc
    have hfin : w.isFinished e.handle = (e.card cell).isFinished := hfin
    simp only [hc, hfin, Option.some.injEq, exists_eq_left']
    cases hu : (e.card cell).isFinished with
    | true => simp
    | false =>
      have hnames : (e.card cell).Names m t ↔
          (∃ x, e.wake = some (.frame x) ∧ x.mind = m ∧ x.frame = t) ∨ t ∈ e.children := Iff.rfl
      rw [hnames]
      cases hwake : e.wake with
      | none => simp
      | some wake =>
        cases wake with
        | frame x =>
          by_cases hm : x.mind = m
          · simp [hm, eq_comm]
          · simp [hm]
        | _ => simp

theorem Leads.awaits (hw : w.Filed) (h : w.Leads m f t) : w.Awaits m f t := by
  obtain ⟨a, b, ha, hua, hnames, -⟩ := h
  exact (awaits_iff hw).mpr ⟨a, ha, hua, hnames⟩

/-- A path of the search that ends at an unfinished frame is one in the graph. -/
theorem leads_of_awaits (hw : w.Filed) (hc : w.card m t = some c) (hu : c.isFinished = false)
    (hpath : ReflTransGen (w.Awaits m) f t) : ReflTransGen (w.Leads m) f t := by
  induction hpath using ReflTransGen.head_induction_on with
  | refl => exact .refl
  | @head f k hstep _ ih =>
    refine .head ?_ ih
    obtain ⟨a, ha, hua, hnames⟩ := (awaits_iff hw).mp hstep
    -- The frame in between is the last one, or waits for somebody itself.
    rcases ReflTransGen.cases_head ih with rfl | ⟨j, ⟨b, b', hb, hub, -⟩, -⟩
    · exact ⟨a, c, ha, hua, hnames, hc, hu⟩
    · exact ⟨a, b, ha, hua, hnames, hb, hub⟩

theorem waitsOn_iff_leads (hw : w.Filed) (hc : w.card m t = some c) (hu : c.isFinished = false) :
    w.waitsOn m f t = true ↔ ReflTransGen (w.Leads m) f t := by
  rw [waitsOn_iff]
  exact ⟨leads_of_awaits hw hc hu, ReflTransGen.mono (fun _ _ (h : w.Leads m _ _) ↦ h.awaits hw) _ _⟩

/-! ### Graphs that lose edges -/

/-- No frame waits for itself through others. -/
def Acyclic (w : World) : Prop := ∀ m f, ¬TransGen (w.Leads m) f f

/-- Unfinished frames were there before, and name nobody new. -/
def Ebbs (w w' : World) : Prop := ∀ m id c', w'.card m id = some c' → c'.isFinished = false →
  ∃ c, w.card m id = some c ∧ c.isFinished = false ∧ ∀ t, c'.Names m t → c.Names m t

theorem Ebbs.leads (h : Ebbs w w') (hl : w'.Leads m f t) : w.Leads m f t := by
  obtain ⟨a', b', ha', hua', hnames', hb', hub'⟩ := hl
  obtain ⟨a, ha, hua, hnames⟩ := h m f a' ha' hua'
  obtain ⟨b, hb, hub, -⟩ := h m t b' hb' hub'
  exact ⟨a, b, ha, hua, hnames t hnames', hb, hub⟩

theorem Ebbs.acyclic (h : Ebbs w w') (hw : w.Acyclic) : w'.Acyclic :=
  fun m f hpath ↦ hw m f (TransGen.mono (fun _ _ hl ↦ h.leads hl) _ _ hpath)

theorem Ebbs.trans (h : Ebbs w w') (h' : Ebbs w' w'') : Ebbs w w'' := by
  intro m id c'' hc'' hu''
  obtain ⟨c', hc', hu', hnames'⟩ := h' m id c'' hc'' hu''
  obtain ⟨c, hc, hu, hnames⟩ := h m id c' hc' hu'
  exact ⟨c, hc, hu, fun t ht ↦ hnames t (hnames' t ht)⟩

theorem Ebbs.of_card (h : w'.card = w.card) : Ebbs w w' :=
  fun _ _ c hc hu ↦ ⟨c, h ▸ hc, hu, fun _ ht ↦ ht⟩

theorem Ebbs.of_revised (h : Revised G w w') (hG : ∀ m id c, w.card m id = some c →
    (G m id c).isFinished = false → c.isFinished = false ∧ ∀ t, (G m id c).Names m t → c.Names m t) :
    Ebbs w w' := by
  intro m id c' hc' hu'
  rw [h.card] at hc'
  obtain ⟨c, hc, rfl⟩ := Option.map_eq_some_iff.mp hc'
  exact ⟨c, hc, hG m id c hc hu'⟩

theorem Ebbs.of_swept (h : Swept w w') : Ebbs w w' := by
  intro m id c hc hu
  exact ⟨c, h.back hc, hu, fun _ ht ↦ ht⟩

theorem Ebbs.of_fading (h : Fading age w w') : Ebbs w w' := by
  intro m id c' hc' hu'
  obtain ⟨c, hc, hfades⟩ := h.some_of_some' hc'
  refine ⟨c, hc, ?_, fun t ht ↦ ?_⟩
  · rcases hfades.cell with heq | ⟨hu, -⟩
    · rw [Card.isFinished, ← heq]
      exact hu'
    · exact hu
  · rcases ht with ⟨x, hx, hrest⟩ | hmem
    · rcases hfades.wake with heq | hnone
      · exact .inl ⟨x, heq ▸ hx, hrest⟩
      · simp [hnone] at hx
    · refine .inr ?_
      rw [← Array.mem_toList_iff] at hmem ⊢
      exact hfades.children.subset hmem

/-- A frame that ends is out of the graph, and its parent has lost a child. -/
theorem Ebbs.of_ends {ending : Ending} (h : Ends X stack m id c ending w w') (hu : c.isFinished = false) :
    Ebbs w w' := by
  obtain ⟨w₁, hsound, hfading, hc, rfl⟩ := h
  obtain ⟨e, he, -, hcard⟩ := card_eq_some_iff.mp hc
  have hhandle : e.handle = c.handle := congrArg Card.handle hcard
  have hu₁ : w₁.isFinished e.handle = false := by
    rw [hhandle]
    exact (isFinished_of_card hc).trans hu
  refine (Ebbs.of_fading hfading).trans (.of_revised (revised_settle hsound.filed he hu₁ ending) ?_)
  intro m' k b hb hub
  have hempty (hk : m' = m ∧ k = id) : b.children = #[] := by
    obtain ⟨rfl, rfl⟩ := hk
    obtain rfl := Option.some.inj (hc.symm.trans hb)
    rfl
  rcases settling_cases m id e.parent ending (ending.error?.map (w₁.withFrameOrigin e)) m' k hempty with
    ⟨-, heq⟩ | ⟨-, ⟨-, heq⟩ | ⟨-, heq⟩⟩ <;> rw [heq] at hub ⊢
  · exact absurd (hub.symm.trans (b.isFinished_ended ending _)) Bool.false_ne_true
  · refine ⟨hub, fun t ht ↦ ht.imp_right fun hmem ↦ ?_⟩
    rw [← Array.mem_toList_iff, Card.toList_children_without] at hmem
    exact Array.mem_toList_iff.mp (List.mem_of_mem_erase hmem)
  · exact ⟨hub, fun t ht ↦ ht⟩

theorem Ebbs.of_takeFrame (hw : w.Filed) {e : FrameEntry} (he : w.entryAt m id = some e)
    (hu : w.isFinished e.handle = false) (frame : Frame) : Ebbs w (w.takeFrame m id e frame) := by
  obtain ⟨cell, hc⟩ := hw.card he
  refine .of_revised (revised_takeFrame hw he frame) fun m' k b hb hub ↦ ?_
  by_cases hk : m' = m ∧ k = id
  · obtain ⟨rfl, rfl⟩ := hk
    have hub : b.isFinished = false := by
      obtain rfl := Option.some.inj (hc.symm.trans hb)
      exact (isFinished_of_card hc).symm.trans hu
    rw [atFrame_self]
    refine ⟨hub, fun t ht ↦ ht.imp_left ?_⟩
    rintro ⟨x, hx, -⟩
    simp [Card.begun] at hx
  · rw [atFrame_of_ne hk] at hub ⊢
    exact ⟨hub, fun t ht ↦ ht⟩

/-- A change to one card that leaves its links and its outcome alone. -/
theorem Ebbs.of_atFrame {g : Card → Card} (h : Revised (atFrame m id g) w w') (hwake : ∀ c, (g c).wake = c.wake)
    (hchildren : ∀ c, (g c).children = c.children) (hcell : ∀ c, (g c).cell = c.cell) : Ebbs w w' := by
  refine .of_revised h fun m' k b _ hub ↦ ?_
  unfold atFrame at hub ⊢
  split
  · next hk =>
    rw [if_pos hk, Card.isFinished, hcell] at hub
    refine ⟨hub, fun t ht ↦ ?_⟩
    rwa [Card.Names, hwake, hchildren] at ht
  · next hk =>
    rw [if_neg hk] at hub
    exact ⟨hub, fun t ht ↦ ht⟩

theorem Ebbs.of_detachChildren (hw : w.Filed) (m : MindId) (id : FrameId) : Ebbs w (w.detachChildren m id) := by
  cases he : w.entryAt m id with
  | none => exact .of_card (by rw [detachChildren_of_none he])
  | some e =>
    refine .of_revised ((revised_detachChildren hw he).congr fun m' k b _ ↦ detaching_eq m id e.children m' k b)
      fun m' k b _ hub ↦ ⟨hub, fun t ht ↦ ht.imp_right fun hmem ↦ ?_⟩
    dsimp only at hmem
    split at hmem
    · simp at hmem
    · exact hmem

/-! ### Graphs that gain edges -/

theorem not_transGen_of_edge {R R' : FrameId → FrameId → Prop} {a b : FrameId} (hR : ∀ x, ¬TransGen R x x)
    (hadd : ∀ x y, R' x y → R x y ∨ x = a ∧ y = b) (hfree : ¬ReflTransGen R b a) (x : FrameId) :
    ¬TransGen R' x x := by
  -- A path uses the new edge or does not; if it does, it starts with a way to the edge and ends with one from it.
  have hpath : ∀ y, TransGen R' x y → TransGen R x y ∨ ReflTransGen R x a ∧ ReflTransGen R b y := by
    intro y h
    induction h with
    | single hxy =>
      rcases hadd _ _ hxy with hxy | ⟨rfl, rfl⟩
      · exact .inl (.single hxy)
      · exact .inr ⟨.refl, .refl⟩
    | tail _ hyz ih =>
      rcases hadd _ _ hyz with hyz | ⟨rfl, rfl⟩
      · exact ih.imp (fun h ↦ h.tail hyz) fun h ↦ ⟨h.1, h.2.tail hyz⟩
      · rcases ih with h | h
        · exact .inr ⟨h.to_reflTransGen, .refl⟩
        · exact absurd h.2 hfree
  intro h
  rcases hpath x h with h | ⟨hxa, hbx⟩
  · exact hR x h
  · exact hfree (hbx.trans hxa)

theorem not_transGen_of_sink {R R' : FrameId → FrameId → Prop} {v : FrameId} (hR : ∀ x, ¬TransGen R x x)
    (hadd : ∀ x y, R' x y → R x y ∨ y = v) (hsink : ∀ y, ¬R' v y) (x : FrameId) : ¬TransGen R' x x := by
  have hpath : ∀ y, TransGen R' x y → TransGen R x y ∨ y = v := by
    intro y h
    induction h with
    | single hxy => exact (hadd _ _ hxy).imp_left .single
    | tail _ hyz ih =>
      rcases ih with h | rfl
      · exact (hadd _ _ hyz).imp_left h.tail
      · exact absurd hyz (hsink _)
  intro h
  rcases hpath x h with hcycle | rfl
  · exact hR x hcycle
  · obtain ⟨y, hy, -⟩ := (TransGen.head'_iff).mp h
    exact hsink y hy

/-- The edges after a frame has fallen asleep. -/
theorem leads_sleep (hw : w.Filed) (hc : w.card m id = some c) (hu : c.isFinished = false) {wake : Wake}
    {m' : MindId} (h : (w.sleep m id wake).Leads m' f t) :
    w.Leads m' f t ∨ m' = m ∧ f = id ∧ ∃ x, wake = .frame x ∧ x.mind = m ∧ x.frame = t := by
  obtain ⟨e, he, -⟩ := card_eq_some_iff.mp hc
  have hG := revised_sleep hw he wake
  -- An unfinished frame was unfinished before, and if it is another one, its card has not changed.
  have hbefore : ∀ k b', (w.sleep m id wake).card m' k = some b' → b'.isFinished = false →
      ∃ b, w.card m' k = some b ∧ b.isFinished = false ∧
        (b' = b ∨ (m' = m ∧ k = id) ∧ b' = b.asleep wake) := by
    intro k b' hb' hub'
    rw [hG.card] at hb'
    obtain ⟨b, hb, rfl⟩ := Option.map_eq_some_iff.mp hb'
    by_cases hk : m' = m ∧ k = id
    · rw [atFrame, if_pos hk]
      obtain ⟨rfl, rfl⟩ := hk
      obtain rfl := Option.some.inj (hc.symm.trans hb)
      exact ⟨c, hc, hu, .inr ⟨⟨rfl, rfl⟩, rfl⟩⟩
    · rw [atFrame_of_ne hk] at hub' ⊢
      exact ⟨b, hb, hub', .inl rfl⟩
  obtain ⟨a', b', ha', hua', hnames, hb', hub'⟩ := h
  obtain ⟨a, ha, hua, hsame⟩ := hbefore f a' ha' hua'
  obtain ⟨b, hb, hub, -⟩ := hbefore t b' hb' hub'
  rcases hsame with rfl | ⟨⟨rfl, rfl⟩, rfl⟩
  · exact .inl ⟨a', b, ha, hua, hnames, hb, hub⟩
  · rcases hnames with ⟨x, hx, hm, ht⟩ | hmem
    · exact .inr ⟨rfl, rfl, x, Option.some.inj hx, hm, ht⟩
    · exact .inl ⟨a, b, ha, hua, .inr hmem, hb, hub⟩

theorem Acyclic.sleep (hacyclic : w.Acyclic) (hw : w.Filed) (hc : w.card m id = some c)
    (hu : c.isFinished = false) {wake : Wake}
    (hfree : ∀ x, wake = .frame x → x.mind = m → w.waitsOn m x.frame id = false) :
    (w.sleep m id wake).Acyclic := by
  intro m' f
  by_cases hedge : m' = m ∧ ∃ x, wake = .frame x ∧ x.mind = m
  · obtain ⟨rfl, x, rfl, hm⟩ := hedge
    refine not_transGen_of_edge (a := id) (b := x.frame) (hacyclic m') (fun a b h ↦ ?_) ?_ f
    · refine (leads_sleep hw hc hu h).imp_right ?_
      rintro ⟨-, rfl, y, hy, -, rfl⟩
      exact ⟨rfl, by rw [Wake.frame.inj hy]⟩
    · intro hpath
      have hwaits := (waitsOn_iff_leads hw hc hu).mpr hpath
      rw [hfree x rfl hm] at hwaits
      exact absurd hwaits Bool.false_ne_true
  · refine fun hpath ↦ hacyclic m' f (TransGen.mono (fun a b h ↦ ?_) _ _ hpath)
    refine (leads_sleep hw hc hu h).resolve_right ?_
    rintro ⟨rfl, -, x, rfl, hm, -⟩
    exact hedge ⟨rfl, x, rfl, hm⟩

/-- A new frame waits for nobody. -/
theorem Acyclic.registered (hacyclic : w.Acyclic) {parent : Option FrameId} {x : Handle}
    (h : Registered m parent x w w') : w'.Acyclic := by
  have hsink : ∀ t, ¬w'.Leads m x.frame t := by
    rintro t ⟨a, b, ha, -, hnames, -⟩
    obtain ⟨frame, hfresh⟩ := h.fresh
    obtain rfl := Option.some.inj (hfresh.symm.trans ha)
    rcases hnames with ⟨y, hy, -⟩ | hmem
    · simp [freshCard] at hy
    · simp [freshCard] at hmem
  have hadd : ∀ m' f t, w'.Leads m' f t → w.Leads m' f t ∨ m' = m ∧ (f = x.frame ∨ t = x.frame) := by
    rintro m' f t ⟨a', b', ha', hua', hnames, hb', hub'⟩
    rcases h.card_cases ha' with ⟨hm, hf, -⟩ | ⟨a, ha, rfl⟩
    · exact .inr ⟨hm, .inl hf⟩
    rcases h.card_cases hb' with ⟨hm, ht, -⟩ | ⟨b, hb, rfl⟩
    · exact .inr ⟨hm, .inr ht⟩
    rcases hnames with hx | hmem
    · exact .inl ⟨a, b, ha, hua', .inl hx, hb, hub'⟩
    -- Only the parent has one more child, and that is the new frame.
    · simp only [adopting] at hmem
      split at hmem
      · next hp =>
        rcases Array.mem_push.mp hmem with hmem | ht
        · exact .inl ⟨a, b, ha, hua', .inr hmem, hb, hub'⟩
        · exact .inr ⟨hp.1, .inr ht⟩
      · exact .inl ⟨a, b, ha, hua', .inr hmem, hb, hub'⟩
  intro m' f
  by_cases hm : m' = m
  · subst hm
    refine not_transGen_of_sink (v := x.frame) (hacyclic m') (fun a b hl ↦ ?_) hsink f
    rcases hadd m' a b hl with hl' | ⟨-, rfl | hb⟩
    · exact .inl hl'
    · exact absurd hl (hsink b)
    · exact .inr hb
  · exact fun hpath ↦ hacyclic m' f
      (TransGen.mono (fun a b hl ↦ (hadd m' a b hl).resolve_right fun hnew ↦ hm hnew.1) _ _ hpath)

end World

namespace Moment.Valid

theorem acyclic_back {s : List FrameKey} {w : World} {m : MindId} {id : FrameId}
    (h : Sound ∅ ((m, id) :: s) w) (hacyclic : w.Acyclic) (frame : Frame) (step : Except EvalError Step) :
    (w.returnFrame m id frame step).Acyclic := by
  obtain ⟨c, hc⟩ := h.card_of_mem List.mem_cons_self
  obtain ⟨w₁, hconcluded, heq⟩ := World.returnFrame_cases h hc frame step
  have hsound := (h.concluded hc hconcluded).1
  have hu := h.unfinished_of_mem List.mem_cons_self hc
  have hback := World.revised_putBack h.filed m id frame
  have hacyclic' := (World.Ebbs.of_atFrame hback (fun _ ↦ rfl) (fun _ ↦ rfl) fun _ ↦ rfl).acyclic hacyclic
  have hacyclic₁ : w₁.Acyclic := by
    cases hconcluded with
    | ended ending hne hbefore hends hafter =>
      exact ((World.Ebbs.of_card hbefore.card).trans ((World.Ebbs.of_ends hends hu).trans
        (.of_card hafter.card))).acyclic hacyclic'
    | asleep wake hfree =>
      exact hacyclic'.sleep hback.filed (World.card_putBack h.filed hc frame) hu hfree
  rw [heq]
  cases c.stopRequested with
  | false => exact hacyclic₁
  | true => exact (World.Ebbs.of_fading (World.sound_stop hsound m id).2).acyclic hacyclic₁

theorem acyclic {M M' : Moment} (h : M.Valid) (hact : Act M M') (hacyclic : M.world.Acyclic) :
    M'.world.Acyclic := by
  cases hact with
  | compute hstill _ => exact (World.Ebbs.of_card hstill.card).acyclic hacyclic
  | register name owner frame hm hparent => exact hacyclic.registered (h.registered name owner frame hm hparent)
  | begin he hu hframe => exact (World.Ebbs.of_takeFrame h.sound.filed he hu _).acyclic hacyclic
  | @back s w m id context frame step =>
    have hstill := World.still_enter w context s.head?
    exact acyclic_back (h.sound.still hstill) ((World.Ebbs.of_card hstill.card).acyclic hacyclic) frame step
  | stop m id => exact (World.Ebbs.of_fading (World.sound_stop h.sound m id).2).acyclic hacyclic
  | sweep m => exact (World.Ebbs.of_swept (World.swept_sweep h.sound.filed m)).acyclic hacyclic
  | detach m id => exact (World.Ebbs.of_detachChildren h.sound.filed m id).acyclic hacyclic
  | notify m event payload =>
    obtain ⟨woken, hG, -⟩ := World.revised_notify h.sound.filed m event payload
    have hdeliver := hG.congr fun m' k c _ ↦ World.delivering_eq m woken payload m' k c
    exact (World.Ebbs.of_revised hdeliver fun _ _ _ _ hu ↦ ⟨hu, fun _ ht ↦ ht⟩).acyclic hacyclic
  | setUpdateInterval x seconds =>
    exact (World.Ebbs.of_revised (World.revised_setUpdateInterval h.sound.filed x seconds)
      fun _ _ _ _ hu ↦ ⟨hu, fun _ ht ↦ ht⟩).acyclic hacyclic
  | createMind name => exact (World.Ebbs.of_card (World.card_createMind ..)).acyclic hacyclic

end Moment.Valid

theorem acyclic_new (config : Config) : (World.new config).Acyclic := by
  intro m f hpath
  obtain ⟨t, ⟨a, b, ha, -⟩, -⟩ := TransGen.head'_iff.mp hpath
  simp [World.card_new] at ha

theorem Reachable.acyclic {M : Moment} (h : Reachable M) : M.world.Acyclic := by
  obtain ⟨config, hrun⟩ := h.run
  clear h
  induction hrun with
  | refl => exact acyclic_new config
  | tail hbefore hact ih => exact ((valid_new config).run hbefore).acyclic hact ih

/-! ### Falling asleep on another frame -/

theorem World.leads_putBack {w : World} (hw : w.Filed) {m m' : MindId} {id f t : FrameId} {frame : Frame} :
    (w.modifyEntry m id fun e ↦ { e with frame := some frame }).Leads m' f t ↔ w.Leads m' f t := by
  have hback := revised_putBack hw m id frame
  refine ⟨(Ebbs.of_atFrame hback (fun _ ↦ rfl) (fun _ ↦ rfl) fun _ ↦ rfl).leads, ?_⟩
  rintro ⟨a, b, ha, hua, hnames, hb, hub⟩
  have hsame : ∀ k (c : Card), (atFrame m id (fun c ↦ { c with frame := some frame }) m' k c).isFinished =
      c.isFinished ∧ (atFrame m id (fun c ↦ { c with frame := some frame }) m' k c).Names m' t = c.Names m' t := by
    intro k c
    unfold atFrame
    split <;> exact ⟨rfl, rfl⟩
  refine ⟨_, _, hback.card_of_card ha, (hsame f a).1.trans hua, ?_, hback.card_of_card hb,
    (hsame t b).1.trans hub⟩
  rw [(hsame f a).2]
  exact hnames

/-- A frame that would wait for itself fails; otherwise it falls asleep. -/
theorem World.card_suspendFrame {stack : List FrameKey} {w : World} {m : MindId} {id : FrameId} {c : Card}
    (h : Sound {(m, id)} stack w) (hc : w.card m id = some c) (hu : c.isFinished = false)
    (hstack : (m, id) ∉ stack) {x : Handle} (hm : x.mind = m) :
    ∃ c', (w.suspendFrame m id (.frame x)).card m id = some c' ∧ if w.waitsOn m x.frame id then
      c'.status = .failed ∧ ∃ e, c'.cell.error = some e ∧ e.kind = .schedulerFault (w.frameName m id)
    else c'.status = .suspended ∧ c'.wake = some (.frame x) := by
  unfold suspendFrame
  simp only [hm, decide_true, Bool.true_and]
  cases w.waitsOn m x.frame id with
  | true =>
    let fault : Ending := .failed (.ofKind (.schedulerFault (w.frameName m id)))
    have hsound : Sound (insert (m, id) ∅) stack w := by rwa [insert_empty_eq]
    obtain ⟨c', origin, hc', -, hstatus, -, herror⟩ := card_finishFrame hsound hc hu hstack fault
    rw [← (still_release _ (Wake.frame x).links).card] at hc'
    exact ⟨c', hc', hstatus, _, herror, rfl⟩
  | false =>
    obtain ⟨e, he, -⟩ := card_eq_some_iff.mp hc
    have hasleep := (revised_sleep h.filed he (.frame x)).card_of_card hc
    rw [atFrame_self] at hasleep
    exact ⟨_, hasleep, rfl, rfl⟩

/-- In every reachable moment, no unfinished frame of a Mind waits for itself through others.  When a step
ends with the wish to sleep until another frame of the Mind has ended, the frame fails with a scheduler
fault if and only if the other is the frame itself or waits for it, and falls asleep otherwise. -/
theorem no_frame_waits_for_itself {M : Moment} (h : Reachable M) :
    (∀ m f, ¬TransGen (M.world.Waits m) f f) ∧
    ∀ m id s, M.stack = (m, id) :: s → ∀ (context : Context) (frame : Frame) (x : Handle), x.mind = m →
      let v := (M.world.enter context s.head?).modifyEntry m id fun e ↦ { e with frame := some frame }
      let w := v.suspendFrame m id (.frame x)
      ∃ e, w.entryAt m id = some e ∧
        ((w.status e.handle = .failed ∧ ∃ err, (w.heap.outcome e.handle.outcome).error = some err ∧
            err.kind = .schedulerFault (v.frameName m id)) ↔
          x.frame = id ∨ TransGen (M.world.Waits m) x.frame id) ∧
        ((w.status e.handle = .suspended ∧ e.wake = some (.frame x)) ↔
          ¬(x.frame = id ∨ TransGen (M.world.Waits m) x.frame id)) := by
  have hvalid := h.valid
  have hwaits : ∀ m, M.world.Waits m = M.world.Leads m := fun m ↦ by
    funext f t
    exact propext (World.waits_iff_leads hvalid.sound)
  refine ⟨fun m f hpath ↦ h.acyclic m f (hwaits m ▸ hpath), ?_⟩
  obtain ⟨stack, w₀⟩ := M
  rintro m id s rfl context frame x hm v w
  rw [hwaits]
  have hentered := hvalid.sound.still (World.still_enter w₀ context s.head?)
  obtain ⟨c, hc⟩ := hentered.card_of_mem List.mem_cons_self
  have hu := hentered.unfinished_of_mem List.mem_cons_self hc
  have hcv := World.card_putBack hentered.filed hc frame
  have hsound : Sound {(m, id)} s v := hentered.putBack frame
  obtain ⟨c', hc', hfate⟩ := World.card_suspendFrame hsound hcv hu hentered.notMem_top hm
  have hcycle : v.waitsOn m x.frame id = true ↔ x.frame = id ∨ TransGen (w₀.Leads m) x.frame id := by
    have hleads : v.Leads m = w₀.Leads m := by
      funext f t
      rw [World.leads_putBack hentered.filed]
      rfl
    rw [World.waitsOn_iff_leads hsound.filed hcv hu, hleads, reflTransGen_iff_eq_or_transGen, eq_comm]
  obtain ⟨e, he, -, hcard⟩ := World.card_eq_some_iff.mp hc'
  have hhandle : e.handle = c'.handle := congrArg Card.handle hcard
  have hwake : e.wake = c'.wake := congrArg Card.wake hcard
  have herror : (w.heap.outcome c'.handle.outcome).error = c'.cell.error := by
    rw [← World.outcome_of_cell? (World.cell_of_card hc'), Outcome.error_bare]
  refine ⟨e, he, ?_⟩
  rw [← hcycle, hhandle, hwake, World.status_of_card hc', herror]
  cases hwaits : v.waitsOn m x.frame id with
  | true =>
    rw [hwaits, if_pos rfl] at hfate
    obtain ⟨hfailed, hfault⟩ := hfate
    exact ⟨iff_of_true ⟨hfailed, hfault⟩ rfl, iff_of_false (fun hs ↦ by simp [hfailed] at hs) (by simp)⟩
  | false =>
    rw [hwaits, if_neg Bool.false_ne_true] at hfate
    obtain ⟨hasleep, hwake⟩ := hfate
    exact ⟨iff_of_false (fun hs ↦ by simp [hasleep] at hs) (by simp), iff_of_true ⟨hasleep, hwake⟩ (by simp)⟩

/-- The child has begun a step inside the step of its parent. -/
def World.childStep : World :=
  parentAndChild.takeFrame ⟨0⟩ ⟨1, 0⟩ ((parentAndChild.entryAt ⟨0⟩ ⟨1, 0⟩).getD default) default

/-- The child has been put back and awaits its parent. -/
def World.childAwaitsParent : World :=
  ((childStep.enter default (some (⟨0⟩, ⟨0, 0⟩))).modifyEntry ⟨0⟩ ⟨1, 0⟩ fun e ↦
    { e with frame := some default }).suspendFrame ⟨0⟩ ⟨1, 0⟩ (.frame ⟨⟨0⟩, ⟨0, 0⟩, "first", ⟨0⟩⟩)

theorem no_frame_waits_for_itself_childAwaitsParent :
    ∃ e, World.childAwaitsParent.entryAt ⟨0⟩ ⟨1, 0⟩ = some e ∧
      World.childAwaitsParent.status e.handle = .failed := by
  have hreach : Reachable ⟨[(⟨0⟩, ⟨1, 0⟩), (⟨0⟩, ⟨0, 0⟩)], .childStep⟩ :=
    reachable_parentAndChild.act (.begin rfl rfl rfl)
  have hedge : World.childStep.Waits ⟨0⟩ ⟨0, 0⟩ ⟨1, 0⟩ := by
    have hparent : ∃ e, World.childStep.entryAt ⟨0⟩ ⟨0, 0⟩ = some e ∧
        World.childStep.isFinished e.handle = false ∧ e.children = #[⟨1, 0⟩] := ⟨_, rfl, rfl, rfl⟩
    obtain ⟨e, he, hu, hchildren⟩ := hparent
    exact ⟨⟨_, rfl, rfl⟩, e, he, hu, .inr (by simp [hchildren])⟩
  obtain ⟨e, he, hfails, -⟩ := (no_frame_waits_for_itself hreach).2 ⟨0⟩ ⟨1, 0⟩ _ rfl default default
    ⟨⟨0⟩, ⟨0, 0⟩, "first", ⟨0⟩⟩ rfl
  exact ⟨e, he, (hfails.mpr (.inr (.single hedge))).1⟩

end MindScript
