import MindScript.Mind.Slab

/-!
# Slots and identities

What an identity resolves to after a frame is stored, changed or removed.  Each of these touches one
identity only; for a new frame this needs that the slots kept for reuse are really empty.
-/

namespace MindScript

theorem FrameId.eq_of_index_generation {a b : FrameId} (hi : a.index = b.index)
    (hg : a.generation = b.generation) : a = b := by
  cases a
  cases b
  simp_all

namespace Mind

/-- Every slot that is kept for reuse is empty, and is kept once. -/
structure Tidy (m : Mind) : Prop where
  nodup : m.free.Nodup
  empty : ∀ i ∈ m.free, ∃ slot, m.slots[i]? = some slot ∧ slot.entry = none

theorem Tidy.congr {m m' : Mind} (h : m.Tidy) (hs : m'.slots = m.slots) (hf : m'.free = m.free) :
    m'.Tidy := by
  refine ⟨hf ▸ h.nodup, fun i hi ↦ ?_⟩
  rw [hs]
  exact h.empty i (hf ▸ hi)

theorem entryAt_congr {m m' : Mind} (hs : m'.slots = m.slots) : m'.entryAt = m.entryAt := by
  funext id
  simp only [entryAt, hs]

theorem entryAt_eq_some_iff {m : Mind} {id : FrameId} {e : FrameEntry} :
    m.entryAt id = some e ↔ m.slots[id.index]? = some ⟨id.generation, some e⟩ := by
  unfold entryAt
  constructor
  · intro h
    split at h
    · exact absurd h (by simp)
    · next slot hslot =>
      split at h
      · next hg =>
        rw [hslot, ← hg, ← h]
      · exact absurd h (by simp)
  · intro h
    simp [h]

/-! ### What leaves the slots alone -/

@[simp] theorem slots_wake (m : Mind) (ids : Array FrameId) : (m.wake ids).slots = m.slots := by
  unfold wake
  split <;> rfl

@[simp] theorem free_wake (m : Mind) (ids : Array FrameId) : (m.wake ids).free = m.free := by
  unfold wake
  split <;> rfl

@[simp] theorem slots_record (m : Mind) (id : FrameId) (name : String) (s : FrameStatus) :
    (m.record id name s).slots = m.slots := by
  unfold record
  split <;> rfl

@[simp] theorem free_record (m : Mind) (id : FrameId) (name : String) (s : FrameStatus) :
    (m.record id name s).free = m.free := by
  unfold record
  split <;> rfl

@[simp] theorem slots_recordFailure (m : Mind) (f : FrameFailure) :
    (m.recordFailure f).slots = m.slots := rfl

@[simp] theorem free_recordFailure (m : Mind) (f : FrameFailure) : (m.recordFailure f).free = m.free := rfl

@[simp] theorem entryAt_wake (m : Mind) (ids : Array FrameId) : (m.wake ids).entryAt = m.entryAt :=
  entryAt_congr (slots_wake m ids)

@[simp] theorem entryAt_record (m : Mind) (id : FrameId) (name : String) (s : FrameStatus) :
    (m.record id name s).entryAt = m.entryAt :=
  entryAt_congr (slots_record m id name s)

@[simp] theorem entryAt_recordFailure (m : Mind) (f : FrameFailure) :
    (m.recordFailure f).entryAt = m.entryAt := rfl

theorem Tidy.wake {m : Mind} (h : m.Tidy) (ids : Array FrameId) : (m.wake ids).Tidy :=
  h.congr (slots_wake m ids) (free_wake m ids)

theorem Tidy.record {m : Mind} (h : m.Tidy) (id : FrameId) (name : String) (s : FrameStatus) :
    (m.record id name s).Tidy :=
  h.congr (slots_record m id name s) (free_record m id name s)

/-! ### Storing -/

theorem entryAt_nextFrameId {m : Mind} (h : m.Tidy) : m.entryAt m.nextFrameId = none := by
  unfold nextFrameId
  cases hf : m.free with
  | nil => simp [entryAt]
  | cons i rest =>
    obtain ⟨slot, hslot, hempty⟩ := h.empty i (by simp [hf])
    simp [entryAt, hslot, hempty]

/-- A stored frame is found under the next identity; all others are found as before. -/
theorem entryAt_insert {m : Mind} (h : m.Tidy) (e : FrameEntry) (id : FrameId) :
    (m.insert e).2.entryAt id = if id = m.nextFrameId then some e else m.entryAt id := by
  unfold insert nextFrameId
  cases hf : m.free with
  | nil =>
    have hslot : ((m.slots.push {}).modify m.slots.size fun slot ↦ { slot with entry := some e })[
        m.slots.size]? = some ⟨0, some e⟩ := by
      rw [Array.getElem?_modify]
      simp
    by_cases hi : id.index = m.slots.size
    · by_cases hg : id.generation = 0
      · have hid : id = ⟨m.slots.size, 0⟩ := FrameId.eq_of_index_generation hi hg
        simp only [entryAt, hid, hslot, if_true]
      · have hid : id ≠ ⟨m.slots.size, 0⟩ := fun heq ↦ hg (by rw [heq])
        simp only [entryAt, hid, hi, hslot, Ne.symm hg, if_false]
        simp
    · have hid : id ≠ ⟨m.slots.size, 0⟩ := fun heq ↦ hi (by rw [heq])
      simp [entryAt, hid, Array.getElem?_modify, Array.getElem?_push, hi, Ne.symm hi]
  | cons i rest =>
    obtain ⟨slot, hslot, hempty⟩ := h.empty i (by simp [hf])
    have hgen : (m.slots.getD i {}).generation = slot.generation := by
      rw [Array.getD_eq_getD_getElem?, hslot, Option.getD_some]
    simp only [hgen]
    by_cases hi : id.index = i
    · by_cases hg : id.generation = slot.generation
      · have hid : id = ⟨i, slot.generation⟩ := FrameId.eq_of_index_generation hi hg
        simp [entryAt, hid, Array.getElem?_modify, hslot]
      · have hid : id ≠ ⟨i, slot.generation⟩ := fun heq ↦ hg (by rw [heq])
        simp [entryAt, hid, hi, Array.getElem?_modify, hslot, Ne.symm hg]
    · have hid : id ≠ ⟨i, slot.generation⟩ := fun heq ↦ hi (by rw [heq])
      simp [entryAt, hid, Array.getElem?_modify, Ne.symm hi]

theorem Tidy.insert {m : Mind} (h : m.Tidy) (e : FrameEntry) : (m.insert e).2.Tidy := by
  unfold Mind.insert nextFrameId
  cases hf : m.free with
  | nil => exact ⟨by simp, by simp⟩
  | cons i rest =>
    have hnodup := h.nodup
    rw [hf, List.nodup_cons] at hnodup
    refine ⟨hnodup.2, fun j hj ↦ ?_⟩
    have hne : i ≠ j := fun heq ↦ hnodup.1 (heq ▸ hj)
    obtain ⟨slot, hslot, hempty⟩ := h.empty j (by rw [hf]; exact List.mem_cons_of_mem i hj)
    exact ⟨slot, by simp [Array.getElem?_modify, hne, hslot], hempty⟩

/-! ### Changing -/

theorem entryAt_modifyEntry (m : Mind) (id other : FrameId) (f : FrameEntry → FrameEntry) :
    (m.modifyEntry id f).entryAt other = if other = id then (m.entryAt id).map f else m.entryAt other := by
  split
  · next heq => rw [heq, entryAt_modifyEntry_self]
  · next hne => exact entryAt_modifyEntry_of_ne hne f

theorem Tidy.modifyEntry {m : Mind} (h : m.Tidy) (id : FrameId) (f : FrameEntry → FrameEntry) :
    (m.modifyEntry id f).Tidy := by
  refine ⟨h.nodup, fun i hi ↦ ?_⟩
  obtain ⟨slot, hslot, hempty⟩ := h.empty i hi
  by_cases hid : id.index = i
  · refine ⟨if slot.generation = id.generation then { slot with entry := slot.entry.map f } else slot,
      ?_, ?_⟩
    · simp [Mind.modifyEntry, Array.getElem?_modify, hid, hslot]
    · split <;> simp [hempty]
  · exact ⟨slot, by simp [Mind.modifyEntry, Array.getElem?_modify, hid, hslot], hempty⟩

/-! ### Removing -/

/-- A removed frame is not found any more; all others are found as before. -/
theorem entryAt_remove (m : Mind) (id other : FrameId) :
    (m.remove id).2.entryAt other = if other = id then none else m.entryAt other := by
  unfold remove
  cases he : m.entryAt id with
  | none =>
    by_cases hid : other = id
    · simp [hid, he]
    · simp [hid]
  | some e =>
    have hslot := entryAt_eq_some_iff.mp he
    by_cases hi : id.index = other.index
    · by_cases hg : id.generation = other.generation
      · have hid : other = id := (FrameId.eq_of_index_generation hi hg).symm
        simp [entryAt, hid, Array.getElem?_modify, hslot]
      · have hid : other ≠ id := fun heq ↦ hg (by rw [heq])
        rw [hi] at hslot
        simp [entryAt, hid, hi, Array.getElem?_modify, hslot, hg]
    · have hid : other ≠ id := fun heq ↦ hi (by rw [heq])
      simp [entryAt, hid, Array.getElem?_modify, hi]

theorem Tidy.remove {m : Mind} (h : m.Tidy) (id : FrameId) : (m.remove id).2.Tidy := by
  unfold Mind.remove
  cases he : m.entryAt id with
  | none => exact h
  | some e =>
    have hslot := entryAt_eq_some_iff.mp he
    have hfresh : id.index ∉ m.free := by
      intro hmem
      obtain ⟨slot, hslot', hempty⟩ := h.empty _ hmem
      rw [hslot] at hslot'
      obtain rfl := Option.some.inj hslot'
      exact absurd hempty (by simp)
    refine ⟨List.nodup_cons.mpr ⟨hfresh, h.nodup⟩, fun i hi ↦ ?_⟩
    rcases List.mem_cons.mp hi with rfl | hi
    · exact ⟨⟨id.generation + 1, none⟩, by simp [Array.getElem?_modify, hslot], rfl⟩
    · have hne : id.index ≠ i := fun heq ↦ hfresh (heq ▸ hi)
      obtain ⟨slot, hslot, hempty⟩ := h.empty i hi
      exact ⟨slot, by simp [Array.getElem?_modify, hne, hslot], hempty⟩

end Mind

end MindScript
