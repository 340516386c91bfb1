import MindScript.Proofs.Bare
import MindScript.Proofs.Inward
import MindScript.Proofs.Scheduler.Slab

/-!
# What the scheduler changes

For each function of the scheduler, what an identity resolves to afterwards and what every outcome then
shows.  All that follows about frames is read off these descriptions; the definitions are not looked at
again.
-/

namespace MindScript

namespace World

/-- What an outcome shows, whoever refers to it. -/
def cell? (w : World) (o : OutcomeId) : Option Outcome := (w.heap.outcome? o).map Outcome.bare

/-- Every Mind keeps only empty slots for reuse. -/
def Tidy (w : World) : Prop := ∀ m mind, w.mind? m = some mind → mind.Tidy

theorem status_eq (w : World) (h : Handle) : w.status h = ((w.cell? h.outcome).getD default).status := by
  unfold status Heap.outcome cell?
  cases w.heap.outcome? h.outcome <;> rfl

theorem status_of_cell? {w : World} {h : Handle} {c : Outcome} (hc : w.cell? h.outcome = some c) :
    w.status h = c.status := by
  rw [status_eq, hc, Option.getD_some]

theorem outcome_of_cell? {w : World} {o : OutcomeId} {c : Outcome} (h : w.cell? o = some c) :
    (w.heap.outcome o).bare = c := by
  obtain ⟨out, hout, rfl⟩ := Option.map_eq_some_iff.mp h
  rw [Heap.outcome, hout, Option.getD_some]

/-- A handle that has finished has an outcome. -/
theorem cell_of_isFinished {w : World} {h : Handle} (hfin : w.isFinished h = true) :
    ∃ c, w.cell? h.outcome = some c ∧ c.status.isFinished = true := by
  rw [isFinished, status_eq] at hfin
  cases hc : w.cell? h.outcome with
  | none =>
    rw [hc] at hfin
    exact absurd hfin (by decide)
  | some c =>
    rw [hc] at hfin
    exact ⟨c, rfl, hfin⟩

/-! ### Worlds that agree on frames -/

/-- Two worlds with the same frames in the same slots, and the same outcomes. -/
structure Still (w w' : World) : Prop where
  slots : w'.minds.map Mind.slots = w.minds.map Mind.slots
  free : w'.minds.map Mind.free = w.minds.map Mind.free
  outcomes : w'.heap.outcomes.map Outcome.bare = w.heap.outcomes.map Outcome.bare

namespace Still

variable {w w' w'' : World}

theorem refl (w : World) : Still w w := ⟨rfl, rfl, rfl⟩

theorem trans (h : Still w w') (h' : Still w' w'') : Still w w'' :=
  ⟨h'.slots.trans h.slots, h'.free.trans h.free, h'.outcomes.trans h.outcomes⟩

theorem symm (h : Still w w') : Still w' w := ⟨h.slots.symm, h.free.symm, h.outcomes.symm⟩

theorem size_minds (h : Still w w') : w'.minds.size = w.minds.size := by
  simpa using congrArg Array.size h.slots

theorem size_outcomes (h : Still w w') : w'.heap.outcomes.size = w.heap.outcomes.size := by
  simpa using congrArg Array.size h.outcomes

theorem slots_mind? (h : Still w w') (m : MindId) :
    (w'.mind? m).map Mind.slots = (w.mind? m).map Mind.slots := by
  have hm := congrArg (fun xs : Array (Array FrameSlot) ↦ xs[m.index]?) h.slots
  simpa [mind?] using hm

theorem free_mind? (h : Still w w') (m : MindId) :
    (w'.mind? m).map Mind.free = (w.mind? m).map Mind.free := by
  have hm := congrArg (fun xs : Array (List Nat) ↦ xs[m.index]?) h.free
  simpa [mind?] using hm

theorem entryAt (h : Still w w') : w'.entryAt = w.entryAt := by
  funext m id
  have hm := h.slots_mind? m
  unfold World.entryAt
  cases hw : w.mind? m <;> cases hw' : w'.mind? m <;> simp_all [Mind.entryAt]

theorem cell? (h : Still w w') : w'.cell? = w.cell? := by
  funext o
  have ho := congrArg (fun xs : Array Outcome ↦ xs[o.index]?) h.outcomes
  simpa [World.cell?, Heap.outcome?] using ho

theorem status (h : Still w w') : w'.status = w.status := by
  funext x
  rw [status_eq, status_eq, h.cell?]

theorem isFinished (h : Still w w') : w'.isFinished = w.isFinished := by
  funext x
  simp only [World.isFinished, h.status]

theorem tidy (h : Still w w') (hw : w.Tidy) : w'.Tidy := by
  intro m mind' hmind'
  have hs := h.slots_mind? m
  have hf := h.free_mind? m
  rw [hmind', Option.map_some] at hs hf
  obtain ⟨mind, hmind, hslots⟩ := Option.map_eq_some_iff.mp hs.symm
  rw [hmind, Option.map_some] at hf
  exact (hw m mind hmind).congr hslots.symm (Option.some.inj hf)

end Still

theorem still_heap (w : World) {heap : Heap}
    (h : heap.outcomes.map Outcome.bare = w.heap.outcomes.map Outcome.bare) :
    Still w { w with heap } := ⟨rfl, rfl, h⟩

theorem still_release (w : World) (links : List Link) : Still w (w.release links) :=
  still_heap w (Heap.bare_outcomes_release w.heap links)

theorem still_retain (w : World) (link : Link) : Still w (w.retain link) := by
  refine still_heap w ?_
  have hbare := congrArg Heap.outcomes (Heap.bare_retain w.heap link)
  exact hbare

/-- Changes to a Mind other than to its slots. -/
theorem still_modifyMind (w : World) (m : MindId) {f : Mind → Mind} (hs : ∀ mind, (f mind).slots = mind.slots)
    (hf : ∀ mind, (f mind).free = mind.free) : Still w (w.modifyMind m f) := by
  refine ⟨?_, ?_, rfl⟩
  · exact Heap.map_modify_of_eq hs _ _
  · exact Heap.map_modify_of_eq hf _ _

/-! ### Changing Minds and entries -/

theorem mind?_modifyMind (w : World) (m m' : MindId) (f : Mind → Mind) :
    (w.modifyMind m f).mind? m' = if m' = m then (w.mind? m).map f else w.mind? m' := by
  obtain ⟨i⟩ := m
  obtain ⟨j⟩ := m'
  simp only [modifyMind, mind?, Array.getElem?_modify, MindId.mk.injEq]
  by_cases h : i = j
  · simp [h]
  · simp [h, Ne.symm h]

@[simp] theorem heap_modifyMind (w : World) (m : MindId) (f : Mind → Mind) :
    (w.modifyMind m f).heap = w.heap := rfl

@[simp] theorem cell?_modifyMind (w : World) (m : MindId) (f : Mind → Mind) :
    (w.modifyMind m f).cell? = w.cell? := rfl

@[simp] theorem status_modifyMind (w : World) (m : MindId) (f : Mind → Mind) :
    (w.modifyMind m f).status = w.status := rfl

@[simp] theorem isFinished_modifyMind (w : World) (m : MindId) (f : Mind → Mind) :
    (w.modifyMind m f).isFinished = w.isFinished := rfl

theorem entryAt_modifyMind (w : World) (m m' : MindId) (id : FrameId) (f : Mind → Mind) :
    (w.modifyMind m f).entryAt m' id =
      if m' = m then (w.mind? m).bind fun mind ↦ (f mind).entryAt id else w.entryAt m' id := by
  unfold entryAt
  rw [mind?_modifyMind]
  split
  · cases w.mind? m <;> rfl
  · rfl

theorem Tidy.modifyMind {w : World} (h : w.Tidy) (m : MindId) {f : Mind → Mind}
    (hf : ∀ mind, mind.Tidy → (f mind).Tidy) : (w.modifyMind m f).Tidy := by
  intro m' mind hmind
  rw [mind?_modifyMind] at hmind
  split at hmind
  · obtain ⟨mind', hmind', rfl⟩ := Option.map_eq_some_iff.mp hmind
    exact hf mind' (h m mind' hmind')
  · exact h m' mind hmind

theorem entryAt_modifyEntry (w : World) (m m' : MindId) (id k : FrameId) (f : FrameEntry → FrameEntry) :
    (w.modifyEntry m id f).entryAt m' k =
      (w.entryAt m' k).map fun e ↦ if m' = m ∧ k = id then f e else e := by
  unfold modifyEntry
  rw [entryAt_modifyMind]
  by_cases hm : m' = m
  · subst hm
    simp only [true_and, if_true, Mind.entryAt_modifyEntry, entryAt]
    by_cases hk : k = id
    · subst hk
      cases w.mind? m' <;> simp
    · cases w.mind? m' <;> simp [hk]
  · simp [hm]

theorem entryAt_modifyEntry_self {w : World} {m : MindId} {id : FrameId} {e : FrameEntry}
    (he : w.entryAt m id = some e) (f : FrameEntry → FrameEntry) :
    (w.modifyEntry m id f).entryAt m id = some (f e) := by
  rw [entryAt_modifyEntry, he, Option.map_some, if_pos ⟨rfl, rfl⟩]

@[simp] theorem cell?_modifyEntry (w : World) (m : MindId) (id : FrameId) (f : FrameEntry → FrameEntry) :
    (w.modifyEntry m id f).cell? = w.cell? := rfl

@[simp] theorem status_modifyEntry (w : World) (m : MindId) (id : FrameId) (f : FrameEntry → FrameEntry) :
    (w.modifyEntry m id f).status = w.status := rfl

@[simp] theorem isFinished_modifyEntry (w : World) (m : MindId) (id : FrameId)
    (f : FrameEntry → FrameEntry) : (w.modifyEntry m id f).isFinished = w.isFinished := rfl

end World

end MindScript
