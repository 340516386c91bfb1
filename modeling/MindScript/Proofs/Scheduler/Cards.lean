import MindScript.Proofs.Scheduler.Frames

/-!
# Cards

The card of a frame is what its Mind and its handles show of it, as far as its fate depends on it.  Since no
two frames share an outcome, whatever the scheduler does to one frame changes one card, and the cards of a
few relatives where it changes links.  For each function of the scheduler this module says which cards
change, and how; nothing after it looks into slots and outcomes.
-/

namespace MindScript

structure Card where
  handle : Handle
  parent : Option FrameId
  children : Array FrameId
  wake : Option Wake
  delivered : Option Ref
  frame : Option Frame
  stopRequested : Bool
  /-- The outcome, without its count. -/
  cell : Outcome

namespace Card

def status (c : Card) : FrameStatus := c.cell.status

def isFinished (c : Card) : Bool := c.cell.status.isFinished

/-- Outcomes are handed out in turn, so this tells the age of the frame. -/
def age (c : Card) : Nat := c.handle.outcome.index

end Card

def FrameEntry.card (e : FrameEntry) (cell : Outcome) : Card :=
  { e with cell }

namespace World

/-- The card of a frame, as long as the frame is stored. -/
def card (w : World) (m : MindId) (id : FrameId) : Option Card :=
  (w.entryAt m id).bind fun e ↦ (w.cell? e.handle.outcome).map e.card

/-- Every frame is stored under the identity that its handle names, and has an outcome of its own. -/
structure Filed (w : World) : Prop where
  tidy : w.Tidy
  named : ∀ m id e, w.entryAt m id = some e → e.handle.mind = m ∧ e.handle.frame = id
  stored : ∀ m id e, w.entryAt m id = some e → (w.cell? e.handle.outcome).isSome
  apart : ∀ m id e m' id' e', w.entryAt m id = some e → w.entryAt m' id' = some e' →
    e.handle.outcome = e'.handle.outcome → m = m' ∧ id = id'

theorem card_eq_some_iff {w : World} {m : MindId} {id : FrameId} {c : Card} :
    w.card m id = some c ↔
      ∃ e, w.entryAt m id = some e ∧ w.cell? e.handle.outcome = some c.cell ∧ e.card c.cell = c := by
  unfold card
  cases he : w.entryAt m id with
  | none => simp
  | some e =>
    simp only [Option.bind_some, Option.map_eq_some_iff, Option.some.injEq, exists_eq_left']
    constructor
    · rintro ⟨cell, hcell, rfl⟩
      exact ⟨hcell, rfl⟩
    · rintro ⟨hcell, hc⟩
      exact ⟨c.cell, hcell, hc⟩

theorem status_of_card {w : World} {m : MindId} {id : FrameId} {c : Card} (h : w.card m id = some c) :
    w.status c.handle = c.status := by
  obtain ⟨e, -, hcell, hc⟩ := card_eq_some_iff.mp h
  have hhandle : e.handle = c.handle := congrArg Card.handle hc
  rw [← hhandle]
  exact status_of_cell? hcell

theorem cell_of_card {w : World} {m : MindId} {id : FrameId} {c : Card} (h : w.card m id = some c) :
    w.cell? c.handle.outcome = some c.cell := by
  obtain ⟨e, -, hcell, hcard⟩ := card_eq_some_iff.mp h
  have hhandle : e.handle = c.handle := congrArg Card.handle hcard
  rwa [hhandle] at hcell

theorem isFinished_of_card {w : World} {m : MindId} {id : FrameId} {c : Card} (h : w.card m id = some c) :
    w.isFinished c.handle = c.isFinished := by
  rw [isFinished, status_of_card h]
  rfl

theorem Filed.card {w : World} (h : w.Filed) {m : MindId} {id : FrameId} {e : FrameEntry}
    (he : w.entryAt m id = some e) : ∃ cell, w.card m id = some (e.card cell) := by
  obtain ⟨cell, hcell⟩ := Option.isSome_iff_exists.mp (h.stored m id e he)
  exact ⟨cell, card_eq_some_iff.mpr ⟨e, he, hcell, rfl⟩⟩

theorem Still.card {w w' : World} (h : Still w w') : w'.card = w.card := by
  funext m id
  simp only [World.card, h.entryAt, h.cell?]

/-- Frames that are still where they were, with their handles, are in order. -/
theorem Filed.of_entries {w w' : World} (hw : w.Filed) (htidy : w'.Tidy)
    (hcells : ∀ o, (w.cell? o).isSome → (w'.cell? o).isSome)
    (hentries : ∀ m id e', w'.entryAt m id = some e' → ∃ e, w.entryAt m id = some e ∧ e'.handle = e.handle) :
    w'.Filed := by
  refine ⟨htidy, ?_, ?_, ?_⟩
  · intro m id e' he'
    obtain ⟨e, he, heq⟩ := hentries m id e' he'
    rw [heq]
    exact hw.named m id e he
  · intro m id e' he'
    obtain ⟨e, he, heq⟩ := hentries m id e' he'
    rw [heq]
    exact hcells _ (hw.stored m id e he)
  · intro m₁ k₁ e₁' m₂ k₂ e₂' h₁ h₂
    obtain ⟨e₁, he₁, heq₁⟩ := hentries m₁ k₁ e₁' h₁
    obtain ⟨e₂, he₂, heq₂⟩ := hentries m₂ k₂ e₂' h₂
    rw [heq₁, heq₂]
    exact hw.apart m₁ k₁ e₁ m₂ k₂ e₂ he₁ he₂

theorem Still.filed {w w' : World} (h : Still w w') (hw : w.Filed) : w'.Filed :=
  hw.of_entries (h.tidy hw.tidy) (fun o ho ↦ by rwa [h.cell?]) fun m id e he ↦ ⟨e, by rwa [h.entryAt] at he, rfl⟩

/-! ### Cards that are changed in place -/

/-- Every card that is there stays there, changed in the way given, and nothing else about frames and
outcomes changes. -/
structure Revised (G : MindId → FrameId → Card → Card) (w w' : World) : Prop where
  filed : w'.Filed
  card : ∀ m id, w'.card m id = (w.card m id).map (G m id)
  handle : ∀ m id c, w.card m id = some c → (G m id c).handle = c.handle
  /-- The outcomes of frames that are gone. -/
  orphan : ∀ o, (∀ m id c, w.card m id = some c → c.handle.outcome ≠ o) → w'.cell? o = w.cell? o
  outcomes : w'.heap.outcomes.size = w.heap.outcomes.size
  minds : w'.minds.size = w.minds.size

namespace Revised

variable {w w' w'' : World} {G G' : MindId → FrameId → Card → Card}

theorem card_of_card (h : Revised G w w') {m : MindId} {id : FrameId} {c : Card}
    (hc : w.card m id = some c) : w'.card m id = some (G m id c) := by
  rw [h.card, hc, Option.map_some]

theorem cell_of_card (h : Revised G w w') {m : MindId} {id : FrameId} {c : Card}
    (hc : w.card m id = some c) : w'.cell? c.handle.outcome = some (G m id c).cell := by
  have hcell := World.cell_of_card (h.card_of_card hc)
  rwa [h.handle m id c hc] at hcell

theorem of_still (h : Still w w') (hw : w.Filed) : Revised (fun _ _ ↦ id) w w' where
  filed := h.filed hw
  card m id := by rw [h.card, Option.map_id_fun, id_def]
  handle _ _ _ _ := rfl
  orphan o _ := by rw [h.cell?]
  outcomes := h.size_outcomes
  minds := h.size_minds

theorem trans (h : Revised G w w') (h' : Revised G' w' w'') :
    Revised (fun m id c ↦ G' m id (G m id c)) w w'' where
  filed := h'.filed
  card m id := by
    rw [h'.card, h.card, Option.map_map]
    rfl
  handle m id c hc := by
    have hc' : w'.card m id = some (G m id c) := by rw [h.card, hc, Option.map_some]
    rw [h'.handle m id _ hc', h.handle m id c hc]
  orphan o ho := by
    rw [h'.orphan o, h.orphan o ho]
    intro m id c' hc'
    rw [h.card] at hc'
    obtain ⟨c, hc, rfl⟩ := Option.map_eq_some_iff.mp hc'
    rw [h.handle m id c hc]
    exact ho m id c hc
  outcomes := h'.outcomes.trans h.outcomes
  minds := h'.minds.trans h.minds

theorem still (h : Revised G w w') (hs : Still w' w'') : Revised G w w'' :=
  h.trans (of_still hs h.filed)

theorem congr (h : Revised G w w') (hG : ∀ m id c, w.card m id = some c → G m id c = G' m id c) :
    Revised G' w w' where
  filed := h.filed
  card m id := by
    rw [h.card]
    cases hc : w.card m id with
    | none => rfl
    | some c => rw [Option.map_some, Option.map_some, hG m id c hc]
  handle m id c hc := by rw [← hG m id c hc, h.handle m id c hc]
  orphan := h.orphan
  outcomes := h.outcomes
  minds := h.minds

end Revised

/-- The change of a single card. -/
def atFrame (m : MindId) (id : FrameId) (g : Card → Card) (m' : MindId) (k : FrameId) (c : Card) : Card :=
  if m' = m ∧ k = id then g c else c

theorem atFrame_self (m : MindId) (id : FrameId) (g : Card → Card) (c : Card) : atFrame m id g m id c = g c :=
  if_pos ⟨rfl, rfl⟩

theorem atFrame_of_ne {m m' : MindId} {id k : FrameId} (h : ¬(m' = m ∧ k = id)) (g : Card → Card) (c : Card) :
    atFrame m id g m' k c = c :=
  if_neg h

/-- Entries of one Mind are changed, but not their handles. -/
theorem revised_modifyMind {w : World} (hw : w.Filed) (m : MindId) {f : Mind → Mind}
    {G : FrameId → Card → Card} (htidy : ∀ mind, mind.Tidy → (f mind).Tidy)
    (hhandle : ∀ k c, (G k c).handle = c.handle)
    (hentry : ∀ mind k, w.mind? m = some mind → ∃ F : FrameEntry → FrameEntry,
      (f mind).entryAt k = (mind.entryAt k).map F ∧ ∀ e cell, (F e).card cell = G k (e.card cell)) :
    Revised (fun m' k c ↦ if m' = m then G k c else c) w (w.modifyMind m f) := by
  have hchanges : ∀ m' k, ∃ F : FrameEntry → FrameEntry, (w.modifyMind m f).entryAt m' k = (w.entryAt m' k).map F ∧
      ∀ e, w.entryAt m' k = some e →
        ∀ cell, (F e).card cell = if m' = m then G k (e.card cell) else e.card cell := by
    intro m' k
    rw [entryAt_modifyMind]
    split
    · next hm =>
      subst hm
      cases hmind : w.mind? m' with
      | none => exact ⟨id, by simp [entryAt, hmind], fun e he ↦ by simp [entryAt, hmind] at he⟩
      | some mind =>
        obtain ⟨F, hF, hcard⟩ := hentry mind k hmind
        exact ⟨F, by simp [entryAt, hmind, hF], fun e _ ↦ hcard e⟩
    · exact ⟨id, Option.map_id_apply.symm, fun _ _ _ ↦ rfl⟩
  have hsame {m' : MindId} {k : FrameId} {e e' : FrameEntry}
      (hcard : ∀ cell, e'.card cell = if m' = m then G k (e.card cell) else e.card cell) :
      e'.handle = e.handle := by
    refine (congrArg Card.handle (hcard default)).trans ?_
    split
    · exact hhandle k _
    · rfl
  refine ⟨hw.of_entries (hw.tidy.modifyMind m htidy) (fun _ ho ↦ ho) ?_, fun m' k ↦ ?_, fun m' k c _ ↦ ?_,
    fun _ _ ↦ rfl, rfl, size_minds_modifyMind ..⟩
  · intro m' k e' he'
    obtain ⟨F, hF, hcard⟩ := hchanges m' k
    rw [hF] at he'
    obtain ⟨e, he, rfl⟩ := Option.map_eq_some_iff.mp he'
    exact ⟨e, he, hsame (hcard e he)⟩
  · obtain ⟨F, hF, hcard⟩ := hchanges m' k
    unfold World.card
    rw [hF]
    cases he : w.entryAt m' k with
    | none => rfl
    | some e =>
      simp only [Option.map_some, Option.bind_some, hsame (hcard e he), cell?_modifyMind, Option.map_map]
      congr 1
      funext cell
      exact hcard e he cell
  · split
    · exact hhandle k c
    · rfl

theorem revised_modifyEntry {w : World} (hw : w.Filed) (m : MindId) (id : FrameId)
    {f : FrameEntry → FrameEntry} {g : Card → Card} (hhandle : ∀ c, (g c).handle = c.handle)
    (hf : ∀ e cell, (f e).card cell = g (e.card cell)) :
    Revised (atFrame m id g) w (w.modifyEntry m id f) := by
  refine (revised_modifyMind (G := fun k c ↦ if k = id then g c else c) hw m
    (fun mind hmind ↦ hmind.modifyEntry id f) (fun k c ↦ ?_) fun mind k _ ↦ ?_).congr fun m' k c _ ↦ ?_
  · split
    · exact hhandle c
    · rfl
  · refine ⟨fun e ↦ if k = id then f e else e, ?_, fun e cell ↦ ?_⟩
    · rw [Mind.entryAt_modifyEntry]
      by_cases hk : k = id <;> simp [hk]
    · split
      · exact hf e cell
      · rfl
  · unfold atFrame
    by_cases hm : m' = m <;> by_cases hk : k = id <;> simp [hm, hk]

theorem revised_clear {w : World} (hw : w.Filed) (m : MindId) (id : FrameId) :
    Revised (atFrame m id fun c ↦ { c with children := #[] }) w
      (w.modifyEntry m id fun e ↦ { e with children := #[] }) :=
  revised_modifyEntry hw m id (fun _ ↦ rfl) fun _ _ ↦ rfl

theorem revised_tell {w : World} (hw : w.Filed) (m : MindId) (id : FrameId) :
    Revised (atFrame m id fun c ↦ { c with stopRequested := true }) w
      (w.modifyEntry m id fun e ↦ { e with stopRequested := true }) :=
  revised_modifyEntry hw m id (fun _ ↦ rfl) fun _ _ ↦ rfl

theorem revised_putBack {w : World} (hw : w.Filed) (m : MindId) (id : FrameId) (frame : Frame) :
    Revised (atFrame m id fun c ↦ { c with frame := some frame }) w
      (w.modifyEntry m id fun e ↦ { e with frame := some frame }) :=
  revised_modifyEntry hw m id (fun _ ↦ rfl) fun _ _ ↦ rfl

theorem revised_taken {w : World} (hw : w.Filed) (m : MindId) (id : FrameId) :
    Revised (atFrame m id fun c ↦ { c with frame := none, delivered := none, wake := none }) w
      (w.modifyEntry m id FrameEntry.taken) :=
  revised_modifyEntry hw m id (fun _ ↦ rfl) fun _ _ ↦ rfl

theorem cell?_modifyOutcome (w : World) (o : OutcomeId) {g : Outcome → Outcome}
    (hg : ∀ c, (g c).bare = g c.bare) (o' : OutcomeId) :
    ({ w with heap := w.heap.modifyOutcome o g } : World).cell? o' =
      if o = o' then (w.cell? o').map g else w.cell? o' := by
  unfold cell?
  rw [Heap.outcome?_modifyOutcome]
  split
  · cases w.heap.outcome? o' <;> simp [hg]
  · rfl

/-- The outcome of one frame is changed. -/
theorem revised_modifyOutcome {w : World} (hw : w.Filed) {m : MindId} {id : FrameId} {e : FrameEntry}
    (he : w.entryAt m id = some e) {g : Outcome → Outcome} (hg : ∀ c, (g c).bare = g c.bare) :
    Revised (atFrame m id fun c ↦ { c with cell := g c.cell }) w
      { w with heap := w.heap.modifyOutcome e.handle.outcome g } := by
  have hcell := cell?_modifyOutcome w e.handle.outcome hg
  refine ⟨hw.of_entries hw.tidy (fun o ho ↦ ?_) fun _ _ e' he' ↦ ⟨e', he', rfl⟩, ?_, ?_, ?_, ?_, rfl⟩
  · rw [hcell]
    split
    · rwa [Option.isSome_map]
    · exact ho
  · intro m' k
    change (w.entryAt m' k).bind _ = _
    unfold World.card
    cases he' : w.entryAt m' k with
    | none => rfl
    | some e' =>
      simp only [Option.bind_some, hcell]
      by_cases hk : m' = m ∧ k = id
      · obtain ⟨rfl, rfl⟩ := hk
        obtain rfl := Option.some.inj (he.symm.trans he')
        simp [atFrame, Option.map_map, Function.comp_def, FrameEntry.card]
      · have hne : e.handle.outcome ≠ e'.handle.outcome := fun heq ↦
          hk ((hw.apart m id e m' k e' he he' heq).imp Eq.symm Eq.symm)
        simp [hne, atFrame, hk, Option.map_map, Function.comp_def]
  · intro m' k c _
    unfold atFrame
    split <;> rfl
  · intro o ho
    obtain ⟨cell, hc⟩ := hw.card he
    have hne : e.handle.outcome ≠ o := ho m id _ hc
    rw [hcell, if_neg hne]
  · simp [Heap.modifyOutcome]

theorem revised_setStatus {w : World} (hw : w.Filed) {m : MindId} {id : FrameId} {e : FrameEntry}
    (he : w.entryAt m id = some e) (s : FrameStatus) :
    Revised (atFrame m id fun c ↦ { c with cell := { c.cell with status := s } }) w
      (w.setStatus e.handle s) :=
  revised_modifyOutcome (g := fun o ↦ { o with status := s }) hw he fun _ ↦ rfl

end World

end MindScript
