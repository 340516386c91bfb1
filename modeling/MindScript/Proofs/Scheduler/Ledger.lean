import Mathlib.Data.List.Nodup
import MindScript.Proofs.Scheduler.Slab

/-!
# Identities name one frame

A Mind hands out an identity with each frame that it stores, and slots are used again.  Beside the Mind one may
keep a ledger of all frames that it has ever stored.  The slots say the same as the ledger: an identity resolves from the
time that it is handed out until its frame is removed, and to that frame, whatever is still known of older ones.
-/

namespace MindScript

/-- The frames that a Mind has stored, in the order of their registration, each under its identity; those that have
been removed have left nothing else behind. -/
abbrev Ledger := List (FrameId × Option FrameEntry)

namespace Ledger

/-- Change the frame of an identity. -/
def change (l : Ledger) (id : FrameId) (f : FrameEntry → FrameEntry) : Ledger :=
  l.map fun t ↦ (t.1, if t.1 = id then t.2.map f else t.2)

/-- Strike the frames of some identities out. -/
def strike (l : Ledger) (gone : FrameId → Bool) : Ledger := l.map fun t ↦ (t.1, if gone t.1 then none else t.2)

/-- The identities of the frames that are still stored. -/
def present (l : Ledger) : List FrameId := (l.filter fun t ↦ t.2.isSome).map Prod.fst

variable {l : Ledger} {k id : FrameId} {e : FrameEntry} {gone : FrameId → Bool}

@[simp] theorem keys_change (f : FrameEntry → FrameEntry) : (l.change id f).map Prod.fst = l.map Prod.fst := by
  simp [change, Function.comp_def]

@[simp] theorem keys_strike : (l.strike gone).map Prod.fst = l.map Prod.fst := by
  simp [strike, Function.comp_def]

theorem mem_change {f : FrameEntry → FrameEntry} {e? : Option FrameEntry} : (k, e?) ∈ l.change id f ↔
    ∃ old, (k, old) ∈ l ∧ e? = if k = id then old.map f else old := by
  simp only [change, List.mem_map, Prod.mk.injEq, Prod.exists]
  constructor
  · rintro ⟨_, old, hmem, rfl, rfl⟩
    exact ⟨old, hmem, rfl⟩
  · rintro ⟨old, hmem, rfl⟩
    exact ⟨k, old, hmem, rfl, rfl⟩

theorem mem_strike {e? : Option FrameEntry} : (k, e?) ∈ l.strike gone ↔
    ∃ old, (k, old) ∈ l ∧ e? = if gone k then none else old := by
  simp only [strike, List.mem_map, Prod.mk.injEq, Prod.exists]
  constructor
  · rintro ⟨_, old, hmem, rfl, rfl⟩
    exact ⟨old, hmem, rfl⟩
  · rintro ⟨old, hmem, rfl⟩
    exact ⟨k, old, hmem, rfl, rfl⟩

theorem mem_present : k ∈ l.present ↔ ∃ e, (k, some e) ∈ l := by
  simp only [present, List.mem_map, List.mem_filter]
  constructor
  · rintro ⟨⟨_, e?⟩, ⟨hmem, hsome⟩, rfl⟩
    obtain ⟨e, rfl⟩ := Option.isSome_iff_exists.mp hsome
    exact ⟨e, hmem⟩
  · rintro ⟨e, hmem⟩
    exact ⟨(k, some e), ⟨hmem, rfl⟩, rfl⟩

@[simp] theorem present_change (f : FrameEntry → FrameEntry) : (l.change id f).present = l.present := by
  induction l with
  | nil => rfl
  | cons t l ih =>
    obtain ⟨k, _ | e⟩ := t
    · simpa [change, present] using ih
    · by_cases hk : k = id <;> simpa [change, present, hk] using ih

theorem present_strike : (l.strike gone).present = l.present.filter (not ∘ gone) := by
  induction l with
  | nil => rfl
  | cons t l ih =>
    obtain ⟨k, _ | e⟩ := t
    · simpa [strike, present] using ih
    · cases hk : gone k <;> simpa [strike, present, hk] using ih

end Ledger

namespace Mind

/-! ### What the slots hold after a change -/

theorem free_insert (a : Mind) (e : FrameEntry) : (a.insert e).2.free = a.free.tail := by
  unfold insert
  cases hfree : a.free with
  | nil => rfl
  | cons i rest => rfl

/-- The slot of the next identity, if there is one, is empty and of that generation. -/
theorem slot_of_nextFrameId {a : Mind} (h : a.Tidy) {slot : FrameSlot} (hslot : a.slots[a.nextFrameId.index]? = some slot) :
    slot.entry = none ∧ slot.generation = a.nextFrameId.generation ∧ a.free.head? = some a.nextFrameId.index := by
  unfold nextFrameId at hslot ⊢
  cases hfree : a.free with
  | nil =>
    rw [hfree] at hslot
    exact absurd (Array.getElem?_eq_some_iff.mp hslot).1 (Nat.lt_irrefl _)
  | cons i rest =>
    simp only [hfree] at hslot ⊢
    obtain ⟨slot', hslot', hempty⟩ := h.empty i (by simp [hfree])
    obtain rfl := Option.some.inj (hslot'.symm.trans hslot)
    exact ⟨hempty, by rw [Array.getD_eq_getD_getElem?, hslot, Option.getD_some], rfl⟩

theorem slots_insert {a : Mind} (h : a.Tidy) (e : FrameEntry) (i : Nat) : (a.insert e).2.slots[i]? =
    if i = a.nextFrameId.index then some ⟨a.nextFrameId.generation, some e⟩ else a.slots[i]? := by
  unfold insert nextFrameId
  cases hfree : a.free with
  | nil =>
    simp only [Array.getElem?_modify, Array.getElem?_push]
    by_cases hi : i = a.slots.size <;> simp [hi, Ne.symm]
  | cons j rest =>
    obtain ⟨slot, hslot, -⟩ := h.empty j (by simp [hfree])
    simp only [Array.getElem?_modify]
    by_cases hi : i = j
    · subst hi
      simp [hslot]
    · simp [hi, Ne.symm hi]

theorem slots_modifyEntry {a : Mind} {id : FrameId} {f : FrameEntry → FrameEntry} (i : Nat) :
    (a.modifyEntry id f).slots[i]? = (a.slots[i]?).map fun slot ↦
      if (⟨i, slot.generation⟩ : FrameId) = id then ⟨slot.generation, slot.entry.map f⟩ else slot := by
  obtain ⟨j, g⟩ := id
  simp only [modifyEntry, Array.getElem?_modify, FrameId.mk.injEq]
  by_cases hi : j = i
  · simp [hi]
  · simp [hi, Ne.symm hi]

theorem slots_remove {a : Mind} {id : FrameId} {e : FrameEntry} (he : a.entryAt id = some e) (i : Nat) :
    (a.remove id).2.slots[i]? = if i = id.index then some ⟨id.generation + 1, none⟩ else a.slots[i]? := by
  have hslot := entryAt_eq_some_iff.mp he
  simp only [remove, he, Array.getElem?_modify]
  by_cases hi : i = id.index
  · subst hi
    simp [hslot]
  · simp [hi, Ne.symm hi]

/-! ### Identities that have been handed out -/

/-- The identity has been handed out: its frame is stored, or the slot has been emptied since. -/
def Issued (a : Mind) (id : FrameId) : Prop := ∃ slot : FrameSlot, a.slots[id.index]? = some slot ∧
  (id.generation < slot.generation ∨ id.generation = slot.generation ∧ slot.entry.isSome = true)

namespace Issued

variable {a b : Mind} {k : FrameId}

theorem congr (h : a.Issued k) (hslots : b.slots = a.slots) : b.Issued k := by rwa [Issued, hslots]

theorem of_stored (h : (a.entryAt k).isSome = true) : a.Issued k := by
  obtain ⟨e, he⟩ := Option.isSome_iff_exists.mp h
  exact ⟨_, entryAt_eq_some_iff.mp he, .inr ⟨rfl, rfl⟩⟩

theorem modifyEntry (h : a.Issued k) (id : FrameId) (f : FrameEntry → FrameEntry) : (a.modifyEntry id f).Issued k := by
  obtain ⟨slot, hslot, hpast⟩ := h
  rw [Issued, slots_modifyEntry, hslot]
  refine ⟨_, rfl, ?_⟩
  dsimp only
  split
  · exact hpast.imp_right fun ⟨hg, hsome⟩ ↦ ⟨hg, by rwa [Option.isSome_map]⟩
  · exact hpast

theorem insert (h : a.Issued k) (htidy : a.Tidy) (e : FrameEntry) : (a.insert e).2.Issued k := by
  obtain ⟨slot, hslot, hpast⟩ := h
  rw [Issued, slots_insert htidy]
  split
  · next hindex =>
    rw [hindex] at hslot
    obtain ⟨hnone, hgeneration, -⟩ := slot_of_nextFrameId htidy hslot
    refine ⟨_, rfl, .inl ?_⟩
    rw [← hgeneration]
    exact hpast.resolve_right fun ⟨_, hsome⟩ ↦ by simp [hnone] at hsome
  · exact ⟨slot, hslot, hpast⟩

theorem remove (h : a.Issued k) (id : FrameId) : (a.remove id).2.Issued k := by
  cases he : a.entryAt id with
  | none => simpa only [Mind.remove, he] using h
  | some e =>
    obtain ⟨slot, hslot, hpast⟩ := h
    rw [Issued, slots_remove he]
    split
    · next hindex =>
      rw [hindex, entryAt_eq_some_iff.mp he] at hslot
      obtain rfl := Option.some.inj hslot
      exact ⟨_, rfl, .inl (Nat.lt_succ_of_le (hpast.elim Nat.le_of_lt fun ⟨hg, _⟩ ↦ Nat.le_of_eq hg))⟩
    · exact ⟨slot, hslot, hpast⟩

end Issued

/-- The next identity is a new one. -/
theorem not_issued_nextFrameId {a : Mind} (h : a.Tidy) : ¬ a.Issued a.nextFrameId := by
  rintro ⟨slot, hslot, hpast⟩
  obtain ⟨hnone, hgeneration, -⟩ := slot_of_nextFrameId h hslot
  rcases hpast with hlt | ⟨-, hsome⟩
  · exact absurd hgeneration (Nat.ne_of_gt hlt)
  · simp [hnone] at hsome

/-! ### Slots that say the same as a ledger -/

/-- The slots hold the frames of the ledger that are still stored, and no others; they have been emptied since they
held one that is not; and those that are empty are kept for reuse. -/
structure Records (l : Ledger) (a : Mind) : Prop where
  tidy : a.Tidy
  once : (l.map Prod.fst).Nodup
  present : ∀ k e, (k, some e) ∈ l → a.slots[k.index]? = some ⟨k.generation, some e⟩
  gone : ∀ k, (k, none) ∈ l → ∃ slot, a.slots[k.index]? = some slot ∧ k.generation < slot.generation
  recorded : ∀ i g e, a.slots[i]? = some ⟨g, some e⟩ → (⟨i, g⟩, some e) ∈ l
  vacant : ∀ i slot, a.slots[i]? = some slot → slot.entry = none → i ∈ a.free

namespace Records

variable {l : Ledger} {a b : Mind} {id : FrameId}

theorem opens (name : String) (trace : Bool) : Records [] { name, trace } where
  tidy := ⟨List.nodup_nil, fun _ hi ↦ (List.not_mem_nil hi).elim⟩
  once := List.nodup_nil
  present _ _ hk := (List.not_mem_nil hk).elim
  gone _ hk := (List.not_mem_nil hk).elim
  recorded _ _ _ hslot := nomatch hslot
  vacant _ _ hslot := nomatch hslot

theorem congr (h : Records l a) (hslots : b.slots = a.slots) (hfree : b.free = a.free) : Records l b where
  tidy := h.tidy.congr hslots hfree
  once := h.once
  present := hslots ▸ h.present
  gone := hslots ▸ h.gone
  recorded := hslots ▸ h.recorded
  vacant := hfree ▸ hslots ▸ h.vacant

theorem entryAt (h : Records l a) {k : FrameId} {e? : Option FrameEntry} (hk : (k, e?) ∈ l) : a.entryAt k = e? := by
  cases e? with
  | some e => exact entryAt_eq_some_iff.mpr (h.present k e hk)
  | none =>
    obtain ⟨slot, hslot, hlt⟩ := h.gone k hk
    rw [Mind.entryAt, hslot]
    exact if_neg (Nat.ne_of_gt hlt)

/-- The next identity has never been handed out. -/
theorem nextFrameId_fresh (h : Records l a) : a.nextFrameId ∉ l.map Prod.fst := by
  intro hmem
  obtain ⟨⟨k, e?⟩, hk, rfl⟩ := List.mem_map.mp hmem
  obtain rfl : e? = none := (h.entryAt hk).symm.trans (entryAt_nextFrameId h.tidy)
  obtain ⟨slot, hslot, hlt⟩ := h.gone _ hk
  exact absurd (slot_of_nextFrameId h.tidy hslot).2.1 (Nat.ne_of_gt hlt)

theorem insert (h : Records l a) (e : FrameEntry) : Records (l ++ [((a.insert e).1, some e)]) (a.insert e).2 := by
  have hid : (a.insert e).1 = a.nextFrameId := rfl
  rw [hid]
  have hslots := slots_insert h.tidy e
  refine ⟨h.tidy.insert e, ?_, fun k e' hk ↦ ?_, fun k hk ↦ ?_, fun i g e' hslot ↦ ?_, fun i slot hslot hnone ↦ ?_⟩
  · rw [List.map_append, List.nodup_append]
    refine ⟨h.once, List.nodup_cons.mpr ⟨List.not_mem_nil, List.nodup_nil⟩, fun k hk k' hk' heq ↦ ?_⟩
    obtain rfl : k' = a.nextFrameId := List.mem_singleton.mp hk'
    exact h.nextFrameId_fresh (heq ▸ hk)
  · rw [hslots]
    rcases List.mem_append.mp hk with hold | hnew
    · have hslot := h.present k e' hold
      rw [if_neg, hslot]
      intro hindex
      rw [hindex] at hslot
      cases (slot_of_nextFrameId h.tidy hslot).1
    · obtain ⟨rfl, he⟩ := Prod.mk.inj (List.mem_singleton.mp hnew)
      rw [if_pos rfl, he]
  · rcases List.mem_append.mp hk with hold | hnew
    · obtain ⟨slot, hslot, hlt⟩ := h.gone k hold
      rw [hslots]
      by_cases hindex : k.index = a.nextFrameId.index
      · refine ⟨_, if_pos hindex, ?_⟩
        rw [hindex] at hslot
        rwa [← (slot_of_nextFrameId h.tidy hslot).2.1]
      · exact ⟨slot, by rw [if_neg hindex, hslot], hlt⟩
    · cases List.mem_singleton.mp hnew
  · rw [hslots] at hslot
    split at hslot
    · next hindex =>
      cases hslot
      rw [hindex]
      exact List.mem_append_right _ List.mem_cons_self
    · exact List.mem_append_left _ (h.recorded i g e' hslot)
  · rw [hslots] at hslot
    split at hslot
    · cases hslot
      cases hnone
    · next hindex =>
      have hmem := h.vacant i slot hslot hnone
      rw [free_insert]
      cases hfree : a.free with
      | nil => exact absurd hmem (hfree ▸ List.not_mem_nil)
      | cons j rest =>
        have hnext : a.nextFrameId.index = j := by simp [nextFrameId, hfree]
        exact (List.mem_cons.mp (hfree ▸ hmem)).resolve_left (hnext ▸ hindex)

theorem modifyEntry (h : Records l a) (id : FrameId) (f : FrameEntry → FrameEntry) :
    Records (l.change id f) (a.modifyEntry id f) := by
  refine ⟨h.tidy.modifyEntry id f, by rw [Ledger.keys_change]; exact h.once, fun k e hk ↦ ?_, fun k hk ↦ ?_,
    fun i g e hslot ↦ ?_, fun i slot hslot hnone ↦ ?_⟩
  · obtain ⟨old, hold, he⟩ := Ledger.mem_change.mp hk
    cases old with
    | none => split at he <;> cases he
    | some e₀ =>
      rw [slots_modifyEntry, h.present k e₀ hold, Option.map_some]
      split at he
      · next heq => rw [if_pos heq, he]
      · next hne => rw [if_neg hne, he]
  · obtain ⟨old, hold, he⟩ := Ledger.mem_change.mp hk
    obtain rfl : old = none := by
      split at he
      · exact Option.map_eq_none_iff.mp he.symm
      · exact he.symm
    obtain ⟨slot, hslot, hlt⟩ := h.gone k hold
    refine ⟨_, by rw [slots_modifyEntry, hslot, Option.map_some], ?_⟩
    split
    · exact hlt
    · exact hlt
  · rw [slots_modifyEntry] at hslot
    obtain ⟨⟨g₀, e₀⟩, hslot₀, heq⟩ := Option.map_eq_some_iff.mp hslot
    refine Ledger.mem_change.mpr ?_
    split at heq
    · next hid =>
      obtain ⟨rfl, he⟩ := FrameSlot.mk.inj heq
      obtain ⟨e₁, rfl, rfl⟩ := Option.map_eq_some_iff.mp he
      exact ⟨some e₁, h.recorded i _ e₁ hslot₀, by rw [if_pos hid, Option.map_some]⟩
    · next hid =>
      obtain ⟨rfl, rfl⟩ := FrameSlot.mk.inj heq
      exact ⟨some e, h.recorded i _ e hslot₀, by rw [if_neg hid]⟩
  · rw [slots_modifyEntry] at hslot
    obtain ⟨slot₀, hslot₀, rfl⟩ := Option.map_eq_some_iff.mp hslot
    refine h.vacant i slot₀ hslot₀ ?_
    split at hnone
    · exact Option.map_eq_none_iff.mp hnone
    · exact hnone

theorem remove (h : Records l a) (id : FrameId) : Records (l.strike (· == id)) (a.remove id).2 := by
  cases he : a.entryAt id with
  | none =>
    -- Nothing is stored under the identity, so it is struck out already.
    have hsame : l.strike (· == id) = l := by
      refine (List.map_congr_left fun ⟨k, e?⟩ hk ↦ ?_).trans (List.map_id l)
      by_cases heq : k = id
      · obtain rfl : e? = none := (h.entryAt hk).symm.trans (heq ▸ he)
        simp
      · simp [heq]
    rw [hsame, Mind.remove, he]
    exact h
  | some e =>
    have hslots := slots_remove he
    have hslot := entryAt_eq_some_iff.mp he
    have hfree : (a.remove id).2.free = id.index :: a.free := by rw [Mind.remove, he]
    refine ⟨h.tidy.remove id, by rw [Ledger.keys_strike]; exact h.once, fun k e' hk ↦ ?_, fun k hk ↦ ?_,
      fun i g e' hi ↦ ?_, fun i slot hi hnone ↦ ?_⟩
    · obtain ⟨old, hold, heq⟩ := Ledger.mem_strike.mp hk
      split at heq
      · cases heq
      · next hne =>
        subst heq
        have hk' := h.present k e' hold
        rw [hslots, if_neg, hk']
        intro hindex
        rw [hindex, hslot] at hk'
        have hg := congrArg FrameSlot.generation (Option.some.inj hk')
        exact hne (beq_iff_eq.mpr (FrameId.eq_of_index_generation hindex hg.symm))
    · obtain ⟨old, hold, heq⟩ := Ledger.mem_strike.mp hk
      rw [hslots]
      by_cases hindex : k.index = id.index
      · refine ⟨_, if_pos hindex, ?_⟩
        split at heq
        · next hid =>
          obtain rfl := beq_iff_eq.mp hid
          exact Nat.lt_succ_self _
        · subst heq
          obtain ⟨slot, hk', hlt⟩ := h.gone k hold
          rw [hindex, hslot] at hk'
          obtain rfl := Option.some.inj hk'
          exact Nat.lt_succ_of_lt hlt
      · rw [if_neg hindex]
        split at heq
        · next hid => exact absurd (congrArg FrameId.index (beq_iff_eq.mp hid)) hindex
        · subst heq
          exact h.gone k hold
    · rw [hslots] at hi
      split at hi
      · cases hi
      · next hindex =>
        refine Ledger.mem_strike.mpr ⟨some e', h.recorded i g e' hi, ?_⟩
        rw [if_neg]
        exact fun hid ↦ hindex (congrArg FrameId.index (beq_iff_eq.mp hid))
    · rw [hfree]
      rw [hslots] at hi
      split at hi
      · next hindex => exact hindex ▸ List.mem_cons_self
      · exact List.mem_cons_of_mem _ (h.vacant i slot hi hnone)

theorem foldl_remove (h : Records l a) (ids : List FrameId) :
    Records (l.strike (ids.contains ·)) (ids.foldl (fun mind id ↦ (mind.remove id).2) a) := by
  induction ids generalizing l a with
  | nil =>
    have hsame : l.strike (([] : List FrameId).contains ·) = l := by simp [Ledger.strike]
    rwa [hsame]
  | cons k ids ih =>
    have hstruck : l.strike ((k :: ids).contains ·) = (l.strike (· == k)).strike (ids.contains ·) := by
      simp only [Ledger.strike, List.map_map, Function.comp_def, List.contains_cons]
      refine List.map_congr_left fun t _ ↦ ?_
      by_cases hk : t.1 = k <;> simp [hk]
    rw [hstruck]
    exact ih (h.remove k)

end Records

/-! ### The life of a Mind -/

/-- Remove those of the listed frames that have settled. -/
def purge (a : Mind) (settled : FrameId → Bool) : Mind :=
  { (a.live.toList.filter settled).foldl (fun mind id ↦ (mind.remove id).2) a with
    live := (a.live.toList.filter (not ∘ settled)).toArray, unswept := false }

/-- A Mind to which something has happened since it was made, and the frames that it has stored in all that time. -/
inductive Life : Ledger → Mind → Prop where
  | opens (name : String) (trace : Bool) : Life [] { name, trace }
  | insert {l : Ledger} {a : Mind} (e : FrameEntry) : Life l a → Life (l ++ [((a.insert e).1, some e)]) (a.insert e).2
  /-- A frame runs, suspends, is given something or settles. -/
  | change {l : Ledger} {a : Mind} (id : FrameId) (f : FrameEntry → FrameEntry) : Life l a →
      Life (l.change id f) (a.modifyEntry id f)
  | sweep {l : Ledger} {a : Mind} (settled : FrameId → Bool) : Life l a → Life (l.strike settled) (a.purge settled)
  /-- Anything that has nothing to do with the stored frames. -/
  | other {l : Ledger} {a b : Mind} : b.slots = a.slots → b.free = a.free → b.live = a.live → Life l a → Life l b

namespace Life

variable {l : Ledger} {a : Mind}

theorem records_live (h : Life l a) : Records l a ∧ a.live.toList = l.present := by
  induction h with
  | opens name trace => exact ⟨.opens name trace, rfl⟩
  | @insert l a e _ ih =>
    refine ⟨ih.1.insert e, ?_⟩
    have hlive : (a.insert e).2.live.toList = a.live.toList ++ [a.nextFrameId] := by
      unfold Mind.insert
      cases a.free <;> exact Array.toList_push
    rw [hlive, ih.2, Ledger.present, Ledger.present, List.filter_append, List.map_append]
    rfl
  | change id f _ ih => exact ⟨ih.1.modifyEntry id f, by rw [Ledger.present_change]; exact ih.2⟩
  | @sweep l a settled _ ih =>
    have hstrike : l.strike ((a.live.toList.filter settled).contains ·) = l.strike settled := by
      refine List.map_congr_left fun ⟨k, e?⟩ hk ↦ ?_
      cases e? with
      | none => simp
      | some e =>
        have hmem : k ∈ a.live.toList := ih.2 ▸ Ledger.mem_present.mpr ⟨e, hk⟩
        cases hs : settled k <;> simp [hs, Array.mem_toList_iff.mp hmem]
    refine ⟨hstrike ▸ (ih.1.foldl_remove (a.live.toList.filter settled)).congr rfl rfl, ?_⟩
    rw [Ledger.present_strike, ← ih.2]
    rfl
  | other hslots hfree hlive _ ih => exact ⟨ih.1.congr hslots hfree, hlive ▸ ih.2⟩

end Life

end Mind

/-! ### Identities in words -/

/-- An identity as it is written in two words. -/
def FrameId.words (id : FrameId) : UInt32 × UInt32 := (id.index.toUInt32, id.generation.toUInt32)

/-- The frame that is found by the words of an identity, where the generation of a slot is counted in a word. -/
def Mind.entryOfWords (a : Mind) (words : UInt32 × UInt32) : Option FrameEntry :=
  match a.slots[words.1.toNat]? with
  | none => none
  | some (slot : FrameSlot) => if slot.generation.toUInt32 = words.2 then slot.entry else none

/-- The words hold the identity as a whole. -/
def FrameId.Short (id : FrameId) : Prop := id.index < UInt32.size ∧ id.generation < UInt32.size

theorem toNat_toUInt32 {i : Nat} (hi : i < UInt32.size) : i.toUInt32.toNat = i :=
  (UInt32.toNat_ofNat' ..).trans (Nat.mod_eq_of_lt hi)

theorem toUInt32_inj {i j : Nat} (hi : i < UInt32.size) (hj : j < UInt32.size) : i.toUInt32 = j.toUInt32 ↔ i = j := by
  refine ⟨fun h ↦ ?_, congrArg _⟩
  rw [← toNat_toUInt32 hi, h, toNat_toUInt32 hj]

theorem FrameId.Short.words_inj {id id' : FrameId} (h : id.Short) (h' : id'.Short) : id.words = id'.words ↔ id = id' := by
  rw [words, words, Prod.mk.injEq, toUInt32_inj h.1 h'.1, toUInt32_inj h.2 h'.2]
  exact ⟨fun heq ↦ FrameId.eq_of_index_generation heq.1 heq.2, fun heq ↦ heq ▸ ⟨rfl, rfl⟩⟩

namespace Mind

/-- Words can count the slots, and how often each of them has been emptied. -/
structure Bounded (a : Mind) : Prop where
  slots : a.slots.size < UInt32.size
  generations : ∀ (i : Nat) (slot : FrameSlot), a.slots[i]? = some slot → slot.generation < UInt32.size

variable {l : Ledger} {a : Mind}

/-- By the words of an identity the frame of that identity is found. -/
theorem entryOfWords_words {id : FrameId} (hid : id.Short)
    (h : ∀ slot : FrameSlot, a.slots[id.index]? = some slot → slot.generation < UInt32.size) :
    a.entryOfWords id.words = a.entryAt id := by
  have hindex : id.words.1.toNat = id.index := toNat_toUInt32 hid.1
  rw [entryOfWords, hindex, entryAt]
  cases hslot : a.slots[id.index]? with
  | none => rfl
  | some slot =>
    have hgeneration : slot.generation.toUInt32 = id.words.2 ↔ slot.generation = id.generation :=
      toUInt32_inj (h slot hslot) hid.2
    simp only [hgeneration]

namespace Bounded

theorem index_lt (h : a.Bounded) {i : Nat} {slot : FrameSlot} (hslot : a.slots[i]? = some slot) : i < UInt32.size :=
  Nat.lt_trans (Array.getElem?_eq_some_iff.mp hslot).1 h.slots

/-- All identities that have been handed out are held by their words. -/
theorem short (h : a.Bounded) (hrecords : Records l a) {t : FrameId × Option FrameEntry} (ht : t ∈ l) : t.1.Short := by
  obtain ⟨k, _ | e⟩ := t
  · obtain ⟨slot, hslot, hlt⟩ := hrecords.gone k ht
    exact ⟨h.index_lt hslot, Nat.lt_trans hlt (h.generations _ _ hslot)⟩
  · have hslot := hrecords.present k e ht
    exact ⟨h.index_lt hslot, h.generations _ _ hslot⟩

theorem short_nextFrameId (h : a.Bounded) (htidy : a.Tidy) : a.nextFrameId.Short := by
  cases hslot : a.slots[a.nextFrameId.index]? with
  | some slot =>
    obtain ⟨-, hgeneration, -⟩ := slot_of_nextFrameId htidy hslot
    exact ⟨h.index_lt hslot, hgeneration ▸ h.generations _ _ hslot⟩
  | none =>
    unfold nextFrameId at hslot ⊢
    cases hfree : a.free with
    | nil => exact ⟨h.slots, Nat.zero_lt_succ _⟩
    | cons i rest =>
      obtain ⟨slot, hslot', -⟩ := htidy.empty i (by simp [hfree])
      simp only [hfree] at hslot
      cases hslot.symm.trans hslot'

end Bounded

/-- The identities that a Mind hands out are all different, also as words.  By its words the frame of an identity is
found, as it is by now, from its registration to its removal; by other words nothing is found.  The Mind lists the
frames that are found in the order of their registration, each once, and keeps exactly the empty slots for reuse, each
once.  The next frame is stored under the next identity, which is a new one. -/
theorem identity_names_one_frame (h : Life l a) (hbounded : a.Bounded) :
    (l.map fun t ↦ t.1.words).Nodup ∧
    (∀ t ∈ l, a.entryOfWords t.1.words = t.2) ∧
    (∀ words, a.entryOfWords words ≠ none → ∃ t ∈ l, t.1.words = words) ∧
    (a.live.toList = (l.filter fun t ↦ t.2.isSome).map Prod.fst ∧ a.live.toList.Nodup) ∧
    (a.free.Nodup ∧ ∀ i, i ∈ a.free ↔ ∃ slot : FrameSlot, a.slots[i]? = some slot ∧ slot.entry = none) ∧
    ∀ e, (a.insert e).1 = a.nextFrameId ∧ a.nextFrameId.words ∉ l.map (fun t ↦ t.1.words) ∧
      (a.insert e).2.entryOfWords a.nextFrameId.words = some e := by
  obtain ⟨hrecords, hlive⟩ := h.records_live
  have hnext := hbounded.short_nextFrameId hrecords.tidy
  have hwords : (l.map fun t ↦ t.1.words).Nodup := by
    have hmap : (l.map fun t ↦ t.1.words) = (l.map Prod.fst).map FrameId.words := by simp [Function.comp_def]
    have hinj : ∀ k ∈ l.map Prod.fst, ∀ k' ∈ l.map Prod.fst, k.words = k'.words → k = k' := by
      intro k hk k' hk' heq
      obtain ⟨t, ht, rfl⟩ := List.mem_map.mp hk
      obtain ⟨t', ht', rfl⟩ := List.mem_map.mp hk'
      exact ((hbounded.short hrecords ht).words_inj (hbounded.short hrecords ht')).mp heq
    rw [hmap]
    exact hrecords.once.map_on hinj
  refine ⟨hwords, fun t ht ↦ ?_, fun words hfound ↦ ?_, ⟨hlive, ?_⟩, ⟨hrecords.tidy.nodup, fun i ↦ ⟨fun hi ↦ ?_, ?_⟩⟩,
    fun e ↦ ⟨rfl, fun hmem ↦ ?_, ?_⟩⟩
  · rw [entryOfWords_words (hbounded.short hrecords ht) (hbounded.generations _), hrecords.entryAt ht]
  · unfold entryOfWords at hfound
    cases hslot : a.slots[words.1.toNat]? with
    | none => simp [hslot] at hfound
    | some slot =>
      simp only [hslot] at hfound
      split at hfound
      · next hgeneration =>
        obtain ⟨e, he⟩ := Option.ne_none_iff_exists'.mp hfound
        have hrecorded : a.slots[words.1.toNat]? = some ⟨slot.generation, some e⟩ := by rw [hslot, ← he]
        refine ⟨_, hrecords.recorded _ _ e hrecorded, Prod.ext ?_ hgeneration⟩
        exact UInt32.ofNat_toNat
      · exact absurd rfl hfound
  · rw [hlive]
    exact (List.filter_sublist.map Prod.fst).nodup hrecords.once
  · obtain ⟨slot, hslot, hnone⟩ := hrecords.tidy.empty i hi
    exact ⟨slot, hslot, hnone⟩
  · rintro ⟨slot, hslot, hnone⟩
    exact hrecords.vacant i slot hslot hnone
  · obtain ⟨t, ht, heq⟩ := List.mem_map.mp hmem
    obtain hid := ((hbounded.short hrecords ht).words_inj hnext).mp heq
    exact hrecords.nextFrameId_fresh (hid ▸ List.mem_map.mpr ⟨t, ht, rfl⟩)
  · rw [entryOfWords_words hnext fun slot hslot ↦ ?_, entryAt_insert hrecords.tidy, if_pos rfl]
    rw [slots_insert hrecords.tidy, if_pos rfl] at hslot
    exact Option.some.inj hslot ▸ hnext.2

/-- A Mind that has stored a frame, removed it and stored another one. -/
def reopened : Mind := (((({ name := "mind" } : Mind).insert default).2.purge fun _ ↦ true).insert default).2

theorem identity_names_one_frame_reopened :
    reopened.entryOfWords (0, 0) = none ∧ reopened.entryOfWords (0, 1) = some default := by
  have hlife : Life [(⟨0, 0⟩, none), (⟨0, 1⟩, some default)] reopened :=
    .insert default (.sweep (fun _ ↦ true) (.insert default (.opens "mind" false)))
  have hbounded : reopened.Bounded := by
    refine ⟨by decide, fun i slot hslot ↦ ?_⟩
    have hslots : reopened.slots = #[⟨1, some default⟩] := rfl
    rw [hslots] at hslot
    obtain ⟨rfl, rfl⟩ : i = 0 ∧ slot = ⟨1, some default⟩ := by
      cases i with
      | zero => exact ⟨rfl, (Option.some.inj hslot).symm⟩
      | succ i => cases hslot
    decide
  have hfound := (identity_names_one_frame hlife hbounded).2.1
  exact ⟨hfound _ List.mem_cons_self, hfound _ (List.mem_cons_of_mem _ List.mem_cons_self)⟩

end Mind

end MindScript
