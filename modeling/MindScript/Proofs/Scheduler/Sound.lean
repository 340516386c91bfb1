import Mathlib.Data.Set.Insert
import MindScript.Proofs.Scheduler.Changes

/-!
# Sound worlds

The invariant of the scheduler.  What a card shows depends on the status of the frame, the running frames are
those on the stack of steps, and children and parents refer to each other.

While a frame settles, the frames below it are stopped one after the other, and a frame that returns from
its step has been put back but is not settled or suspended yet.  Such frames are exempt from parts of the
invariant; the set of exempt frames is empty again when the scheduler is done.
-/

namespace MindScript

abbrev FrameKey := MindId × FrameId

/-- A result is there for a completed coroutine, and an error for a failed one. -/
structure Outcome.Fits (o : Outcome) : Prop where
  result : o.result.isSome = true ↔ o.status = .completed
  error : o.error.isSome = true ↔ o.status = .failed

/-- What a card shows goes with the status of the frame and with its place on the stack of steps. -/
structure Card.Fits (exempt onStack : Prop) (c : Card) : Prop where
  framed : c.isFinished = false → c.frame = none → c.status = .running ∧ onStack
  taken : c.status = .running → ¬exempt → c.frame = none
  stacked : onStack → c.status = .running ∧ c.frame = none
  waits : c.wake.isSome = true ↔ c.status = .suspended
  done : c.isFinished = true → c.frame = none ∧ c.delivered = none ∧ c.parent = none ∧ c.children = #[]

/-- Exemption matters only to a frame that runs. -/
theorem Card.Fits.exempt {exempt exempt' onStack : Prop} {c : Card} (h : c.Fits exempt onStack)
    (hexempt : c.status = .running → exempt → exempt') : c.Fits exempt' onStack :=
  { h with taken := fun hrun hnot ↦ h.taken hrun fun hx ↦ hnot (hexempt hrun hx) }

theorem Card.isFinished_of_running {c : Card} (h : c.cell.status = .running) : c.isFinished = false := by
  rw [Card.isFinished, h]
  rfl

/-- A running frame that has been told to stop. -/
def Card.Yields (c : Card) : Prop := c.status = .running ∧ c.stopRequested = true

structure Sound (X : Set FrameKey) (stack : List FrameKey) (w : World) : Prop where
  filed : w.Filed
  cells : ∀ o c, w.cell? o = some c → c.Fits
  fits : ∀ m id c, w.card m id = some c → c.Fits ((m, id) ∈ X) ((m, id) ∈ stack)
  stacked : ∀ m id, (m, id) ∈ stack → (w.card m id).isSome = true
  distinct : stack.Nodup
  child : ∀ m p a k, w.card m p = some a → k ∈ a.children →
    ∃ b, w.card m k = some b ∧ b.isFinished = false ∧ b.parent = some p ∧ a.age < b.age
  once : ∀ m p a, w.card m p = some a → a.children.toList.Nodup
  kept : ∀ m id b p, w.card m id = some b → b.isFinished = false → b.parent = some p → (m, id) ∉ X →
    b.Yields ∨ ∃ a, w.card m p = some a ∧ a.isFinished = false ∧ id ∈ a.children

namespace Sound

variable {X X' : Set FrameKey} {stack stack' : List FrameKey} {w w' : World}
  {G : MindId → FrameId → Card → Card} {m : MindId} {id : FrameId} {c : Card}

theorem mono (h : Sound X stack w) (hX : X ⊆ X') : Sound X' stack w where
  filed := h.filed
  cells := h.cells
  fits m id c hc := (h.fits m id c hc).exempt fun _ hmem ↦ hX hmem
  stacked := h.stacked
  distinct := h.distinct
  child := h.child
  once := h.once
  kept m id b p hb hu hp hexempt := h.kept m id b p hb hu hp fun hmem ↦ hexempt (hX hmem)

/-- A finished frame needs no exemption. -/
theorem of_finished (h : Sound (insert (m, id) X) stack w) (hc : w.card m id = some c)
    (hfin : c.isFinished = true) : Sound X stack w where
  filed := h.filed
  cells := h.cells
  fits m' k b hb := by
    refine (h.fits m' k b hb).exempt fun hrun hmem ↦
      (Set.mem_insert_iff.mp hmem).resolve_left fun heq ↦ ?_
    obtain ⟨rfl, rfl⟩ := Prod.mk.inj heq
    obtain rfl := Option.some.inj (hc.symm.trans hb)
    exact Bool.false_ne_true ((Card.isFinished_of_running hrun).symm.trans hfin)
  stacked := h.stacked
  distinct := h.distinct
  child := h.child
  once := h.once
  kept m' k b p hb hu hp hexempt := by
    refine h.kept m' k b p hb hu hp fun hmem ↦ ?_
    rcases Set.mem_insert_iff.mp hmem with heq | hmem
    · obtain ⟨rfl, rfl⟩ := Prod.mk.inj heq
      obtain rfl := Option.some.inj (hc.symm.trans hb)
      rw [hfin] at hu
      exact absurd hu.symm Bool.false_ne_true
    · exact hexempt hmem

/-- What is left to show when cards are changed in place and nobody gets new children. -/
theorem revise (h : Sound X stack w) (hG : World.Revised G w w')
    (hcell : ∀ m id c, w.card m id = some c → (G m id c).cell.Fits)
    (hfits : ∀ m id c, w.card m id = some c → (G m id c).Fits ((m, id) ∈ X') ((m, id) ∈ stack'))
    (hstack : ∀ m id, (m, id) ∈ stack' → (w.card m id).isSome = true) (hdistinct : stack'.Nodup)
    (hchildren : ∀ m p a, w.card m p = some a → (G m p a).children.toList.Sublist a.children.toList)
    (hchild : ∀ m p a k b, w.card m p = some a → k ∈ (G m p a).children → w.card m k = some b →
      b.isFinished = false → b.parent = some p →
      (G m k b).isFinished = false ∧ (G m k b).parent = some p)
    (hkept : ∀ m id b p, w.card m id = some b → (G m id b).isFinished = false →
      (G m id b).parent = some p → (m, id) ∉ X' → (G m id b).Yields ∨
      ∃ a, w.card m p = some a ∧ (G m p a).isFinished = false ∧ id ∈ (G m p a).children) :
    Sound X' stack' w' where
  filed := hG.filed
  cells o c hc := by
    by_cases howned : ∃ m id b, w.card m id = some b ∧ b.handle.outcome = o
    · obtain ⟨m, id, b, hb, rfl⟩ := howned
      have hb' : w'.card m id = some (G m id b) := by rw [hG.card, hb, Option.map_some]
      obtain ⟨e, -, hcell', he⟩ := World.card_eq_some_iff.mp hb'
      have hhandle : e.handle = b.handle := (congrArg Card.handle he).trans (hG.handle m id b hb)
      rw [hhandle, hc] at hcell'
      rw [Option.some.inj hcell']
      exact hcell m id b hb
    · rw [hG.orphan o fun m id b hb heq ↦ howned ⟨m, id, b, hb, heq⟩] at hc
      exact h.cells o c hc
  fits m id c' hc' := by
    rw [hG.card] at hc'
    obtain ⟨c, hc, rfl⟩ := Option.map_eq_some_iff.mp hc'
    exact hfits m id c hc
  stacked m id hmem := by
    rw [hG.card, Option.isSome_map]
    exact hstack m id hmem
  distinct := hdistinct
  child m p a' k ha' hk := by
    rw [hG.card] at ha'
    obtain ⟨a, ha, rfl⟩ := Option.map_eq_some_iff.mp ha'
    have hk' : k ∈ a.children := by
      rw [← Array.mem_toList_iff] at hk ⊢
      exact (hchildren m p a ha).subset hk
    obtain ⟨b, hb, hu, hp, hage⟩ := h.child m p a k ha hk'
    obtain ⟨hu', hp'⟩ := hchild m p a k b ha hk hb hu hp
    refine ⟨G m k b, by rw [hG.card, hb, Option.map_some], hu', hp', ?_⟩
    unfold Card.age
    rw [hG.handle m p a ha, hG.handle m k b hb]
    exact hage
  once m p a' ha' := by
    rw [hG.card] at ha'
    obtain ⟨a, ha, rfl⟩ := Option.map_eq_some_iff.mp ha'
    exact (hchildren m p a ha).nodup (h.once m p a ha)
  kept m id b' p hb' hu hp hexempt := by
    rw [hG.card] at hb'
    obtain ⟨b, hb, rfl⟩ := Option.map_eq_some_iff.mp hb'
    refine (hkept m id b p hb hu hp hexempt).imp_right ?_
    rintro ⟨a, ha, hua, hmem⟩
    exact ⟨G m p a, by rw [hG.card, ha, Option.map_some], hua, hmem⟩

/-- What is left to show when, besides, nobody's parent changes and nobody finishes. -/
theorem adjust (h : Sound X stack w) (hG : World.Revised G w w')
    (hcell : ∀ m id c, w.card m id = some c → (G m id c).cell.Fits)
    (hfits : ∀ m id c, w.card m id = some c → (G m id c).Fits ((m, id) ∈ X') ((m, id) ∈ stack'))
    (hstack : ∀ m id, (m, id) ∈ stack' → (w.card m id).isSome = true) (hdistinct : stack'.Nodup)
    (hlinks : ∀ m id c, w.card m id = some c → (G m id c).children = c.children ∧
      (G m id c).parent = c.parent ∧ (G m id c).isFinished = c.isFinished)
    (hyields : ∀ m id c, w.card m id = some c → (m, id) ∉ X' → (m, id) ∉ X ∧
      (c.Yields → (G m id c).Yields)) : Sound X' stack' w' := by
  refine h.revise hG hcell hfits hstack hdistinct ?_ ?_ ?_
  · intro m p a ha
    exact (hlinks m p a ha).1.symm ▸ List.Sublist.refl _
  · intro m p a k b _ _ hb hu hp
    obtain ⟨-, hparent, hfin⟩ := hlinks m k b hb
    exact ⟨hfin.trans hu, hparent.trans hp⟩
  · intro m id b p hb hu hp hexempt
    obtain ⟨-, hparent, hfin⟩ := hlinks m id b hb
    obtain ⟨hexempt', hyield⟩ := hyields m id b hb hexempt
    rcases h.kept m id b p hb (hfin.symm.trans hu) (hparent.symm.trans hp) hexempt' with hy | ⟨a, ha, hua, hmem⟩
    · exact .inl (hyield hy)
    · obtain ⟨hchildren, -, hfina⟩ := hlinks m p a ha
      exact .inr ⟨a, ha, hfina.trans hua, hchildren ▸ hmem⟩

theorem cell_fits (h : Sound X stack w) (hc : w.card m id = some c) : c.cell.Fits := by
  obtain ⟨e, -, hcell, -⟩ := World.card_eq_some_iff.mp hc
  exact h.cells _ _ hcell

/-! The frames on the stack of steps. -/

theorem card_of_mem (h : Sound X stack w) (hmem : (m, id) ∈ stack) : ∃ c, w.card m id = some c :=
  Option.isSome_iff_exists.mp (h.stacked m id hmem)

theorem running_of_mem (h : Sound X stack w) (hmem : (m, id) ∈ stack) (hc : w.card m id = some c) :
    c.cell.status = .running :=
  ((h.fits m id c hc).stacked hmem).1

theorem unfinished_of_mem (h : Sound X stack w) (hmem : (m, id) ∈ stack) (hc : w.card m id = some c) :
    c.isFinished = false :=
  Card.isFinished_of_running (h.running_of_mem hmem hc)

theorem notMem_top (h : Sound X ((m, id) :: stack) w) : (m, id) ∉ stack := (List.nodup_cons.mp h.distinct).1

theorem still (h : Sound X stack w) (hs : World.Still w w') : Sound X stack w' :=
  h.adjust (.of_still hs h.filed) (fun _ _ _ hc ↦ h.cell_fits hc) h.fits h.stacked h.distinct
    (fun _ _ _ _ ↦ ⟨rfl, rfl, rfl⟩) fun _ _ _ _ hexempt ↦ ⟨hexempt, fun hy ↦ hy⟩

/-- What is left to show when one card is changed, and its frame keeps its parent and does not finish. -/
theorem reviseAt (h : Sound X stack w) {g : Card → Card} (hG : World.Revised (World.atFrame m id g) w w')
    (hc : w.card m id = some c) (hcell : (g c).cell.Fits)
    (hfits : (g c).Fits ((m, id) ∈ X') ((m, id) ∈ stack'))
    (hexempt : ∀ k, k ≠ (m, id) → k ∈ X → k ∈ X') (hstack : ∀ k, k ≠ (m, id) → (k ∈ stack' ↔ k ∈ stack))
    (hdistinct : stack'.Nodup) (hparent : (g c).parent = c.parent)
    (hfinished : (g c).isFinished = c.isFinished)
    (hchildren : (g c).children.toList.Sublist c.children.toList)
    (hlost : ∀ k ∈ c.children, k ∉ (g c).children → (m, k) ∈ X')
    (hyields : (m, id) ∉ X' → (g c).Yields ∨ (m, id) ∉ X ∧ (c.Yields → (g c).Yields)) :
    Sound X' stack' w' := by
  have hcases : ∀ m' k b, w.card m' k = some b →
      (m', k) ≠ (m, id) ∧ World.atFrame m id g m' k b = b ∨
      (m' = m ∧ k = id ∧ b = c) ∧ World.atFrame m id g m' k b = g c := by
    intro m' k b hb
    by_cases hk : m' = m ∧ k = id
    · obtain ⟨rfl, rfl⟩ := hk
      obtain rfl := Option.some.inj (hc.symm.trans hb)
      exact .inr ⟨⟨rfl, rfl, rfl⟩, World.atFrame_self ..⟩
    · exact .inl ⟨fun heq ↦ hk (Prod.mk.inj heq), World.atFrame_of_ne hk ..⟩
  have hlinks : ∀ m' k b, w.card m' k = some b →
      (World.atFrame m id g m' k b).parent = b.parent ∧
      (World.atFrame m id g m' k b).isFinished = b.isFinished := by
    intro m' k b hb
    rcases hcases m' k b hb with ⟨-, heq⟩ | ⟨⟨rfl, rfl, rfl⟩, heq⟩ <;> rw [heq]
    · exact ⟨rfl, rfl⟩
    · exact ⟨hparent, hfinished⟩
  refine h.revise hG ?_ ?_ ?_ hdistinct ?_ ?_ ?_
  · intro m' k b hb
    rcases hcases m' k b hb with ⟨-, heq⟩ | ⟨-, heq⟩ <;> rw [heq]
    · exact h.cell_fits hb
    · exact hcell
  · intro m' k b hb
    rcases hcases m' k b hb with ⟨hne, heq⟩ | ⟨⟨rfl, rfl, rfl⟩, heq⟩ <;> rw [heq]
    · have hb := h.fits m' k b hb
      exact ⟨fun hu hframe ↦ (hb.framed hu hframe).imp_right (hstack _ hne).mpr,
        fun hrun hx ↦ hb.taken hrun fun hmem ↦ hx (hexempt _ hne hmem),
        fun hmem ↦ hb.stacked ((hstack _ hne).mp hmem), hb.waits, hb.done⟩
    · exact hfits
  · intro m' k hmem
    by_cases hk : (m', k) = (m, id)
    · obtain ⟨rfl, rfl⟩ := Prod.mk.inj hk
      rw [hc, Option.isSome_some]
    · exact h.stacked m' k ((hstack _ hk).mp hmem)
  · intro m' p a ha
    rcases hcases m' p a ha with ⟨-, heq⟩ | ⟨⟨rfl, rfl, rfl⟩, heq⟩
    · exact heq.symm ▸ List.Sublist.refl _
    · rw [heq]
      exact hchildren
  · intro m' p a k b _ _ hb hu hp
    obtain ⟨hparent', hfinished'⟩ := hlinks m' k b hb
    exact ⟨hfinished'.trans hu, hparent'.trans hp⟩
  · intro m' k b p hb hu hp hx
    obtain ⟨hparent', hfinished'⟩ := hlinks m' k b hb
    -- Either the frame yields now, or it was not exempt before, and yields now if it did.
    have hyields' : (World.atFrame m id g m' k b).Yields ∨
        (m', k) ∉ X ∧ (b.Yields → (World.atFrame m id g m' k b).Yields) := by
      rcases hcases m' k b hb with ⟨hne, heq⟩ | ⟨⟨rfl, rfl, rfl⟩, heq⟩ <;> rw [heq]
      · exact .inr ⟨fun hmem ↦ hx (hexempt _ hne hmem), fun hy ↦ hy⟩
      · exact hyields hx
    rcases hyields' with hy | ⟨hx', hy⟩
    · exact .inl hy
    rcases h.kept m' k b p hb (hfinished'.symm.trans hu) (hparent'.symm.trans hp) hx' with hy' | ⟨a, ha, hua, hmem⟩
    · exact .inl (hy hy')
    · refine .inr ⟨a, ha, (hlinks m' p a ha).2.trans hua, ?_⟩
      rcases hcases m' p a ha with ⟨-, heq⟩ | ⟨⟨rfl, rfl, rfl⟩, heq⟩ <;> rw [heq]
      · exact hmem
      · by_contra hnot
        exact hx (hlost k hmem hnot)

/-! ### Settling -/

/-- The children of a frame about to settle are taken from it; they are exempt until they are stopped. -/
theorem clear (h : Sound X stack w) (hc : w.card m id = some c) :
    Sound (X ∪ {k | k.1 = m ∧ k.2 ∈ c.children.toList}) stack
      (w.modifyEntry m id fun e ↦ { e with children := #[] }) := by
  have hG := World.revised_clear h.filed m id
  have hfits := h.fits m id c hc
  have hcell := h.cell_fits hc
  refine h.reviseAt hG hc hcell ?_ (fun k _ hk ↦ .inl hk) (fun _ _ ↦ .rfl) h.distinct rfl rfl
    (List.nil_sublist _) (fun k hk _ ↦ .inr ⟨rfl, Array.mem_toList_iff.mpr hk⟩)
    fun hx ↦ .inr ⟨fun hmem ↦ hx (.inl hmem), fun hy ↦ hy⟩
  have hcleared : Card.Fits ((m, id) ∈ X) ((m, id) ∈ stack) { c with children := #[] } := by
    refine { hfits with done := fun hfin ↦ ?_ }
    obtain ⟨hframe, hdelivered, hparent, -⟩ := hfits.done hfin
    exact ⟨hframe, hdelivered, hparent, rfl⟩
  exact hcleared.exempt fun _ hmem ↦ .inl hmem

/-- A running frame that is told to stop takes note of it. -/
theorem mark (h : Sound (insert (m, id) X) stack w) (hc : w.card m id = some c)
    (hu : c.isFinished = false) (hframe : c.frame = none) :
    Sound X stack (w.modifyEntry m id fun e ↦ { e with stopRequested := true }) := by
  have hG := World.revised_tell h.filed m id
  have hfits := h.fits m id c hc
  have hcell := h.cell_fits hc
  have hrun : c.status = .running := (hfits.framed hu hframe).1
  refine h.reviseAt hG hc hcell ?_ ?_ (fun _ _ ↦ .rfl) h.distinct rfl rfl (.refl _)
    (fun k hk hnot ↦ absurd hk hnot) fun _ ↦ .inl ⟨hrun, rfl⟩
  · exact ⟨hfits.framed, fun _ _ ↦ hframe, hfits.stacked, hfits.waits, hfits.done⟩
  · exact fun k hne hmem ↦ (Set.mem_insert_iff.mp hmem).resolve_left hne

theorem fits_ended (ending : Ending) (f : EvalError → EvalError) (cell : Outcome) :
    Outcome.Fits { cell with
      status := ending.status, result := ending.result?, error := ending.error?.map f } := by
  cases ending <;> exact ⟨by simp [Ending.result?, Ending.status], by simp [Ending.error?, Ending.status]⟩

/-- A frame that has ended has left the stack. -/
theorem fits_card_ended {exempt onStack : Prop} {c : Card} (hchildren : c.children = #[]) (hstack : ¬onStack)
    (ending : Ending) (error : Option EvalError) : (c.ended ending error).Fits exempt onStack := by
  have hfin := c.isFinished_ended ending error
  refine ⟨fun hu ↦ absurd (hu.symm.trans hfin) Bool.false_ne_true, fun _ _ ↦ rfl, fun hmem ↦ absurd hmem hstack, ?_,
    fun _ ↦ ⟨rfl, rfl, rfl, hchildren⟩⟩
  change false = true ↔ ending.status = .suspended
  cases ending <;> simp [Ending.status]

/-- A frame that loses a child fits as before. -/
theorem fits_card_without {exempt onStack : Prop} {c : Card} (h : c.Fits exempt onStack) (child : FrameId) :
    (c.without child).Fits exempt onStack := by
  refine { h with done := fun hfin ↦ ?_ }
  obtain ⟨hframe, hdelivered, hparent, hchildren⟩ := h.done hfin
  exact ⟨hframe, hdelivered, hparent, by simp [Card.without, hchildren]⟩

/-- A frame without children ends. -/
theorem settle (h : Sound (insert (m, id) X) stack w) {e : FrameEntry} (he : w.entryAt m id = some e)
    (hu : w.isFinished e.handle = false) (hchildren : e.children = #[]) (hstack : (m, id) ∉ stack)
    (ending : Ending) : Sound X stack (w.settle m id ending) := by
  have hG := World.revised_settle h.filed he hu ending
  set error := ending.error?.map (w.withFrameOrigin e)
  set G := World.settling m id e.parent ending error
  obtain ⟨cell, hc⟩ := h.filed.card he
  set c := e.card cell
  -- Only the frame itself and its parent change, and the parent only loses a child.
  have hcases : ∀ m' k b, w.card m' k = some b →
      (m' = m ∧ k = id ∧ b = c) ∧ G m' k b = c.ended ending error ∨
      (m', k) ≠ (m, id) ∧ ((m' = m ∧ c.parent = some k) ∧ G m' k b = b.without id ∨
        ¬(m' = m ∧ c.parent = some k) ∧ G m' k b = b) := by
    intro m' k b hb
    have hown (hk : m' = m ∧ k = id) : b = c := by
      obtain ⟨rfl, rfl⟩ := hk
      exact Option.some.inj (hb.symm.trans hc)
    rcases World.settling_cases m id e.parent ending error m' k
      (fun hk ↦ (congrArg Card.children (hown hk)).trans hchildren) with ⟨hk, heq⟩ | ⟨hne, hrest⟩
    · exact .inl ⟨⟨hk.1, hk.2, hown hk⟩, heq.trans (congrArg _ (hown hk))⟩
    · exact .inr ⟨fun heq ↦ hne (Prod.mk.inj heq), hrest⟩
  have hexempt : ∀ k, k ≠ (m, id) → k ∈ insert (m, id) X → k ∈ X :=
    fun k hne hmem ↦ (Set.mem_insert_iff.mp hmem).resolve_left hne
  refine h.revise hG ?_ ?_ h.stacked h.distinct ?_ ?_ ?_
  · intro m' k b hb
    have hcell := h.cell_fits hb
    rcases hcases m' k b hb with ⟨-, heq⟩ | ⟨-, ⟨-, heq⟩ | ⟨-, heq⟩⟩ <;> rw [heq]
    · exact fits_ended ending _ c.cell
    · exact hcell
    · exact hcell
  · intro m' k b hb
    have hfits := h.fits m' k b hb
    rcases hcases m' k b hb with ⟨⟨rfl, rfl, rfl⟩, heq⟩ | ⟨hne, ⟨-, heq⟩ | ⟨-, heq⟩⟩ <;> rw [heq]
    · exact fits_card_ended hchildren hstack ending error
    · exact (fits_card_without hfits id).exempt fun _ ↦ hexempt _ hne
    · exact hfits.exempt fun _ ↦ hexempt _ hne
  · intro m' p a ha
    rcases hcases m' p a ha with ⟨⟨rfl, rfl, rfl⟩, heq⟩ | ⟨-, ⟨-, heq⟩ | ⟨-, heq⟩⟩
    · exact heq.symm ▸ List.Sublist.refl _
    · rw [heq, Card.toList_children_without]
      exact List.erase_sublist
    · exact heq.symm ▸ List.Sublist.refl _
  · intro m' p a k b ha hk hb hub hp
    rcases hcases m' k b hb with ⟨⟨rfl, rfl, rfl⟩, -⟩ | ⟨-, ⟨-, heq⟩ | ⟨-, heq⟩⟩
    · -- A frame that ends is no longer among the children of its parent.
      exfalso
      rcases hcases m' p a ha with ⟨⟨-, rfl, rfl⟩, heq⟩ | ⟨hne, ⟨-, heq⟩ | ⟨hnot, -⟩⟩
      · rw [heq] at hk
        have hk : _ ∈ e.children := hk
        simp [hchildren] at hk
      · rw [heq, ← Array.mem_toList_iff, Card.toList_children_without] at hk
        exact (h.once m' p a ha).not_mem_erase hk
      · exact hnot ⟨rfl, hp⟩
    · rw [heq]
      exact ⟨hub, hp⟩
    · rw [heq]
      exact ⟨hub, hp⟩
  · intro m' k b p hb hub hp hx
    rcases hcases m' k b hb with ⟨⟨rfl, rfl, rfl⟩, heq⟩ | ⟨hne, hrest⟩
    · rw [heq] at hub
      exact absurd (hub.symm.trans (c.isFinished_ended ending error)) Bool.false_ne_true
    · have hx' : (m', k) ∉ insert (m, id) X := fun hmem ↦ hx (hexempt _ hne hmem)
      have hsame : (G m' k b).isFinished = b.isFinished ∧ (G m' k b).parent = b.parent ∧
          (b.Yields → (G m' k b).Yields) := by
        rcases hrest with ⟨-, heq⟩ | ⟨-, heq⟩ <;> rw [heq] <;> exact ⟨rfl, rfl, fun hy ↦ hy⟩
      rcases h.kept m' k b p hb (hsame.1.symm.trans hub) (hsame.2.1.symm.trans hp) hx' with hy | ⟨a, ha, hua, hmem⟩
      · exact .inl (hsame.2.2 hy)
      · refine .inr ⟨a, ha, ?_⟩
        rcases hcases m' p a ha with ⟨⟨rfl, rfl, rfl⟩, -⟩ | ⟨-, ⟨⟨rfl, -⟩, heq⟩ | ⟨-, heq⟩⟩
        · have hmem : k ∈ e.children := hmem
          simp [hchildren] at hmem
        · rw [heq]
          refine ⟨hua, ?_⟩
          have hki : k ≠ id := fun heq ↦ hne (by rw [heq])
          rw [← Array.mem_toList_iff, Card.toList_children_without, List.mem_erase_of_ne hki]
          exact Array.mem_toList_iff.mpr hmem
        · rw [heq]
          exact ⟨hua, hmem⟩

end Sound

end MindScript
