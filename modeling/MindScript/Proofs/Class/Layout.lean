import MindScript.Proofs.Class.Order

/-!
# The slots of instances

A class inherits the slots of its supertypes, one supertype after the other, and then has its own.  A slot that is
there already, by its owner and its name, is not inherited again, so the top of a diamond contributes its slots once.

When the slots of a supertype are gone through, those of the ancestors of an owner come before those of the owner, and
whatever is passed over is there already.  So every layout keeps the slots of an owner behind those of all its proper
ancestors, whatever the order of the supertypes, and the last slot of a name is one that nobody overrides.
-/

namespace MindScript

/-- The slot is the one that a class declares under a name. -/
def Slot.is (owner : ClassId) (name : String) (slot : Slot) : Bool := slot.owner == owner && slot.name == name

@[simp] theorem Slot.is_iff {owner : ClassId} {name : String} {slot : Slot} :
    slot.is owner name = true ↔ slot.owner = owner ∧ slot.name = name := by
  simp [Slot.is]

namespace Registry

/-! ### Inheriting slots -/

section merge

variable {acc inherited : List Slot} {owner : ClassId} {name : String}

theorem inheritSlots_cons (acc : List Slot) (slot : Slot) (rest : List Slot) :
    inheritSlots acc (slot :: rest) =
      if acc.any (Slot.is slot.owner slot.name) then inheritSlots acc rest else inheritSlots (acc ++ [slot]) rest := by
  have hknown : (acc.any fun s ↦ s.owner == slot.owner && s.name == slot.name) =
      acc.any (Slot.is slot.owner slot.name) := rfl
  rw [inheritSlots, List.foldl_cons, hknown]
  split <;> rfl

/-- The first slot of an owner and a name stays, whatever is inherited later. -/
theorem find?_inheritSlots (acc inherited : List Slot) (owner : ClassId) (name : String) :
    (inheritSlots acc inherited).find? (Slot.is owner name) =
      (acc.find? (Slot.is owner name)).or (inherited.find? (Slot.is owner name)) := by
  induction inherited generalizing acc with
  | nil => simp [inheritSlots]
  | cons slot rest ih =>
    rw [inheritSlots_cons]
    split
    · next hknown =>
      rw [ih, List.find?_cons]
      split
      · next hslot =>
        obtain ⟨rfl, rfl⟩ := Slot.is_iff.mp hslot
        obtain ⟨first, hfirst⟩ := Option.isSome_iff_exists.mp (List.find?_isSome.mpr (List.any_eq_true.mp hknown))
        rw [hfirst, Option.some_or, Option.some_or]
      · rfl
    · rw [ih, List.find?_append, Option.or_assoc, List.find?_cons, List.find?_cons]
      split <;> simp

theorem countP_inheritSlots_le (h : acc.countP (Slot.is owner name) ≤ 1) :
    (inheritSlots acc inherited).countP (Slot.is owner name) ≤ 1 := by
  induction inherited generalizing acc with
  | nil => exact h
  | cons slot rest ih =>
    rw [inheritSlots_cons]
    split
    · exact ih h
    · next hnew =>
      apply ih
      rw [List.countP_append, List.countP_singleton]
      split
      · next hslot =>
        obtain ⟨rfl, rfl⟩ := Slot.is_iff.mp hslot
        have hnone : acc.countP (Slot.is slot.owner slot.name) = 0 := by
          rw [List.countP_eq_zero]
          simpa using hnew
        omega
      · exact h

end merge

/-- What is inherited from supertypes after what is there already. -/
def inheritFrom (r : Registry) (acc : List Slot) (ss : List ClassId) : List Slot :=
  ss.foldl (fun acc s ↦ inheritSlots acc (r.layout s)) acc

section inheritFrom

variable {r : Registry} {acc : List Slot} {owner : ClassId} {name : String}

theorem find?_inheritFrom (r : Registry) (acc : List Slot) (ss : List ClassId) (owner : ClassId) (name : String) :
    (r.inheritFrom acc ss).find? (Slot.is owner name) =
      (acc.find? (Slot.is owner name)).or (ss.findSome? fun s ↦ (r.layout s).find? (Slot.is owner name)) := by
  induction ss generalizing acc with
  | nil => simp [inheritFrom]
  | cons s rest ih =>
    have hrest := ih (inheritSlots acc (r.layout s))
    rw [inheritFrom, List.foldl_cons]
    rw [inheritFrom] at hrest
    rw [hrest, find?_inheritSlots, Option.or_assoc, List.findSome?_cons]
    cases (r.layout s).find? (Slot.is owner name) <;> rfl

theorem countP_inheritFrom_le (h : acc.countP (Slot.is owner name) ≤ 1) (ss : List ClassId) :
    (r.inheritFrom acc ss).countP (Slot.is owner name) ≤ 1 := by
  induction ss generalizing acc with
  | nil => exact h
  | cons s rest ih => exact ih (countP_inheritSlots_le h)

theorem mem_inheritSlots {slot : Slot} {inherited : List Slot} (h : slot ∈ inheritSlots acc inherited) :
    slot ∈ acc ∨ slot ∈ inherited := by
  induction inherited generalizing acc with
  | nil => exact .inl h
  | cons first rest ih =>
    rw [inheritSlots_cons] at h
    split at h
    · exact (ih h).imp_right (List.mem_cons_of_mem first)
    · rcases ih h with hacc | hrest
      · rcases List.mem_append.mp hacc with hacc | hfirst
        · exact .inl hacc
        · exact .inr (List.mem_cons.mpr (.inl (List.mem_singleton.mp hfirst)))
      · exact .inr (List.mem_cons_of_mem first hrest)

theorem mem_inheritFrom {slot : Slot} {ss : List ClassId} (h : slot ∈ r.inheritFrom acc ss) :
    slot ∈ acc ∨ ∃ s ∈ ss, slot ∈ r.layout s := by
  induction ss generalizing acc with
  | nil => exact .inl h
  | cons s rest ih =>
    rcases ih h with hacc | ⟨s', hs', hslot⟩
    · exact (mem_inheritSlots hacc).imp_right fun hslot ↦ ⟨s, List.mem_cons_self, hslot⟩
    · exact .inr ⟨s', List.mem_cons_of_mem s hs', hslot⟩

end inheritFrom

/-! ### Layouts that are put together -/

/-- The slots are those of the data that a class declares, in order. -/
def Realizes (r : Registry) (c : ClassId) (data : List DataDecl) (own : List Slot) : Prop :=
  List.Forall₂ (fun d slot ↦ slot.name = d.name ∧ r.classNamed d.className = some slot.valueClass ∧ slot.owner = c)
    data own

/-- Each class has the slots that it inherits and then those of the data that it was declared with. -/
structure Laid (decls : List ClassDecl) (r : Registry) : Prop where
  size : r.size = decls.length
  layout : ∀ c decl, decls[c.index]? = some decl → ∃ own, r.Realizes c decl.data own ∧
    r.layout c = r.inheritFrom [] (r.supertypes c) ++ own

/-- By induction on the registration: the supertypes of a class come before it. -/
theorem Sound.supertypes_induction {r : Registry} (hsound : r.Sound) {p : ClassId → Prop}
    (hstep : ∀ c, c.index < r.size → (∀ s ∈ r.supertypes c, s.index < r.size → p s) → p c) {c : ClassId}
    (hc : c.index < r.size) : p c := by
  obtain ⟨n⟩ := c
  induction n using Nat.strongRecOn with
  | _ n ih => exact hstep ⟨n⟩ hc fun s hs hlt ↦ ih s.index (hsound.supertypes ⟨n⟩ hc s hs) hlt

namespace Laid

variable {decls : List ClassDecl} {r : Registry} {c : ClassId}

theorem owner_of_realizes {data : List DataDecl} {own : List Slot} (h : r.Realizes c data own) {slot : Slot}
    (hslot : slot ∈ own) : slot.owner = c := by
  induction h with
  | nil => cases hslot
  | cons hfirst _ ih =>
    rcases List.mem_cons.mp hslot with rfl | hslot
    · exact hfirst.2.2
    · exact ih hslot

/-- A registered class has its own slots behind those that it inherits. -/
theorem exists_own (h : Laid decls r) (hc : c.index < r.size) :
    ∃ own, (∀ slot ∈ own, slot.owner = c) ∧ r.layout c = r.inheritFrom [] (r.supertypes c) ++ own := by
  obtain ⟨own, hown, hlayout⟩ := h.layout c _ (List.getElem?_eq_getElem (h.size ▸ hc))
  exact ⟨own, fun slot hslot ↦ owner_of_realizes hown hslot, hlayout⟩

theorem owner_mem (h : Laid decls r) (hsound : r.Sound) (hc : c.index < r.size) :
    ∀ slot ∈ r.layout c, slot.owner ∈ r.ancestors c := by
  refine hsound.supertypes_induction (p := fun c ↦ ∀ slot ∈ r.layout c, slot.owner ∈ r.ancestors c) ?_ hc
  intro c hc ih slot hslot
  obtain ⟨own, hown, hlayout⟩ := h.exists_own hc
  rw [hlayout, List.mem_append] at hslot
  rcases hslot with hslot | hslot
  · obtain ⟨s, hs, hslot⟩ := (mem_inheritFrom hslot).resolve_left List.not_mem_nil
    have hlt := hsound.index_of_supertype hc hs
    exact (hsound.ancestors c hc _).mpr (.inr ⟨s, hs, ih s hs hlt slot hslot⟩)
  · rw [hown slot hslot]
    exact hsound.self_mem_ancestors hc

/-- What a class inherits from an owner is the first slot of each name that the owner declares. -/
theorem find?_layout (h : Laid decls r) (hsound : r.Sound) (hc : c.index < r.size) :
    ∀ owner ∈ r.ancestors c, ∀ name,
      (r.layout c).find? (Slot.is owner name) = (r.layout owner).find? (Slot.is owner name) := by
  refine hsound.supertypes_induction (p := fun c ↦ ∀ owner ∈ r.ancestors c, ∀ name,
    (r.layout c).find? (Slot.is owner name) = (r.layout owner).find? (Slot.is owner name)) ?_ hc
  intro c hc ih owner howner name
  rcases (hsound.ancestors c hc owner).mp howner with rfl | ⟨s, hs, hsowner⟩
  · rfl
  · obtain ⟨own, hown, hlayout⟩ := h.exists_own hc
    have hlt : s.index < c.index := hsound.supertypes c hc s hs
    have hle : owner.index ≤ s.index := hsound.index_le_of_mem (hsound.index_of_supertype hc hs) hsowner
    have hnone : own.find? (Slot.is owner name) = none := by
      rw [List.find?_eq_none]
      intro slot hslot his
      have hsame : owner = c := (Slot.is_iff.mp his).1.symm.trans (hown slot hslot)
      rw [hsame] at hle
      omega
    rw [hlayout, List.find?_append, hnone, Option.or_none, find?_inheritFrom, List.find?_nil, Option.none_or]
    -- A supertype either has the owner among its ancestors, or no slot of the owner.
    have heach : ∀ s' ∈ r.supertypes c, owner ∉ r.ancestors s' → (r.layout s').find? (Slot.is owner name) = none := by
      intro s' hs' hnot
      rw [List.find?_eq_none]
      intro slot hslot his
      rw [Slot.is_iff] at his
      exact hnot (his.1 ▸ h.owner_mem hsound (hsound.index_of_supertype hc hs') slot hslot)
    cases hfound : (r.layout owner).find? (Slot.is owner name) with
    | none =>
      rw [List.findSome?_eq_none_iff]
      intro s' hs'
      by_cases hmem : owner ∈ r.ancestors s'
      · rw [ih s' hs' (hsound.index_of_supertype hc hs') owner hmem name, hfound]
      · exact heach s' hs' hmem
    | some slot =>
      have hsome : ((r.supertypes c).findSome? fun s ↦ (r.layout s).find? (Slot.is owner name)).isSome := by
        rw [List.findSome?_isSome_iff]
        refine ⟨s, hs, ?_⟩
        rw [ih s hs (hsound.index_of_supertype hc hs) owner hsowner name, hfound, Option.isSome_some]
      obtain ⟨found, hfirst⟩ := Option.isSome_iff_exists.mp hsome
      obtain ⟨s', hs', hslot⟩ := List.exists_of_findSome?_eq_some hfirst
      rw [hfirst]
      by_cases hmem : owner ∈ r.ancestors s'
      · rw [← hslot, ih s' hs' (hsound.index_of_supertype hc hs') owner hmem name, hfound]
      · rw [heach s' hs' hmem] at hslot
        cases hslot

/-- An inherited slot occurs once, along however many supertypes it is reached. -/
theorem countP_layout_le (h : Laid decls r) (hc : c.index < r.size) {owner : ClassId} (hne : owner ≠ c)
    (name : String) : (r.layout c).countP (Slot.is owner name) ≤ 1 := by
  obtain ⟨own, hown, hlayout⟩ := h.exists_own hc
  have hnone : own.countP (Slot.is owner name) = 0 := by
    rw [List.countP_eq_zero]
    intro slot hslot his
    exact hne ((Slot.is_iff.mp his).1.symm.trans (hown slot hslot))
  have hstart : ([] : List Slot).countP (Slot.is owner name) ≤ 1 := Nat.zero_le 1
  rw [hlayout, List.countP_append, hnone, Nat.add_zero]
  exact countP_inheritFrom_le hstart (r.supertypes c)

theorem eq_of_inherited (h : Laid decls r) (hc : c.index < r.size) {i j : Nat} {slot other : Slot}
    (hi : (r.layout c)[i]? = some slot) (hj : (r.layout c)[j]? = some other) (hne : slot.owner ≠ c)
    (howner : other.owner = slot.owner) (hname : other.name = slot.name) : i = j := by
  have honce := h.countP_layout_le hc hne slot.name
  by_contra hij
  have htwice : ∀ {i j : Nat} {a b : Slot} {slots : List Slot} {p : Slot → Bool}, i < j → slots[i]? = some a →
      slots[j]? = some b → p a = true → p b = true → 1 < slots.countP p := by
    intro i j a b slots p hlt ha hb hpa hpb
    have hfront : a ∈ slots.take (i + 1) :=
      List.mem_of_getElem? (i := i) (by rw [List.getElem?_take_of_lt (Nat.lt_succ_self i), ha])
    have hback : b ∈ slots.drop (i + 1) := by
      refine List.mem_of_getElem? (i := j - (i + 1)) ?_
      rw [List.getElem?_drop, Nat.add_sub_cancel' hlt, hb]
    have hone := List.countP_pos_iff.mpr ⟨a, hfront, hpa⟩
    have hanother := List.countP_pos_iff.mpr ⟨b, hback, hpb⟩
    have hsum : slots.countP p = (slots.take (i + 1)).countP p + (slots.drop (i + 1)).countP p := by
      rw [← List.countP_append, List.take_append_drop]
    omega
  have hslot : slot.is slot.owner slot.name = true := Slot.is_iff.mpr ⟨rfl, rfl⟩
  have hother : other.is slot.owner slot.name = true := Slot.is_iff.mpr ⟨howner, hname⟩
  rcases Nat.lt_or_gt_of_ne hij with hlt | hlt
  · exact Nat.not_lt_of_le honce (htwice hlt hi hj hslot hother)
  · exact Nat.not_lt_of_le honce (htwice hlt hj hi hother hslot)

end Laid

/-! ### The order of slots -/

/-- In front of a slot stand all slots that the proper ancestors of its owner declare. -/
def Settled (r : Registry) (slots : List Slot) : Prop :=
  ∀ i slot, slots[i]? = some slot → ∀ a ∈ r.ancestors slot.owner, a ≠ slot.owner →
    ∀ other ∈ r.layout a, other.owner = a → (slots.take i).any (Slot.is a other.name) = true

namespace Settled

variable {r : Registry} {acc : List Slot}

theorem nil (r : Registry) : r.Settled [] := fun i slot h ↦ by simp at h

theorem concat (h : r.Settled acc) {slot : Slot}
    (hslot : ∀ a ∈ r.ancestors slot.owner, a ≠ slot.owner → ∀ other ∈ r.layout a, other.owner = a →
      acc.any (Slot.is a other.name) = true) : r.Settled (acc ++ [slot]) := by
  intro i found hfound a ha hne other hother howner
  rcases Nat.lt_trichotomy i acc.length with hlt | rfl | hgt
  · rw [List.getElem?_append_left hlt] at hfound
    rw [List.take_append_of_le_length (Nat.le_of_lt hlt)]
    exact h i found hfound a ha hne other hother howner
  · obtain rfl : slot = found := by simpa using hfound
    rw [List.take_left]
    exact hslot a ha hne other hother howner
  · rw [List.getElem?_append_right (Nat.le_of_lt hgt), List.getElem?_eq_none (by simp; omega)] at hfound
    cases hfound

theorem append (h : r.Settled acc) {slots : List Slot}
    (hslots : ∀ slot ∈ slots, ∀ a ∈ r.ancestors slot.owner, a ≠ slot.owner → ∀ other ∈ r.layout a, other.owner = a →
      acc.any (Slot.is a other.name) = true) : r.Settled (acc ++ slots) := by
  induction slots generalizing acc with
  | nil => rwa [List.append_nil]
  | cons slot rest ih =>
    rw [List.forall_mem_cons] at hslots
    rw [List.append_cons]
    refine ih (h.concat hslots.1) fun slot hslot a ha hne other hother howner ↦ ?_
    rw [List.any_append, hslots.2 slot hslot a ha hne other hother howner, Bool.true_or]

/-- Going through a settled list: what was passed over is there already, so whatever stands in front of the next slot
is there. -/
theorem inheritSlots {done rest : List Slot} (h : r.Settled acc) (hrest : r.Settled (done ++ rest))
    (hdone : ∀ slot ∈ done, acc.any (Slot.is slot.owner slot.name) = true) : r.Settled (inheritSlots acc rest) := by
  induction rest generalizing acc done with
  | nil => exact h
  | cons slot rest ih =>
    rw [List.append_cons] at hrest
    have hnext : ∀ {acc' : List Slot}, (∀ s ∈ acc, s ∈ acc') → acc'.any (Slot.is slot.owner slot.name) = true →
        ∀ s ∈ done ++ [slot], acc'.any (Slot.is s.owner s.name) = true := by
      intro acc' hsub hslot s hs
      rcases List.mem_append.mp hs with hs | hs
      · obtain ⟨found, hfound, his⟩ := List.any_eq_true.mp (hdone s hs)
        exact List.any_eq_true.mpr ⟨found, hsub found hfound, his⟩
      · rw [List.mem_singleton.mp hs]
        exact hslot
    rw [inheritSlots_cons]
    split
    · next hknown => exact ih h hrest (hnext (fun _ hs ↦ hs) hknown)
    · refine ih (h.concat fun a ha hne other hother howner ↦ ?_) hrest
        (hnext (fun _ hs ↦ List.mem_append_left _ hs) (by simp))
      have hat : (done ++ [slot] ++ rest)[done.length]? = some slot := by simp
      have hfront := hrest done.length slot hat a ha hne other hother howner
      rw [List.append_assoc, List.take_left] at hfront
      obtain ⟨found, hfound, his⟩ := List.any_eq_true.mp hfront
      obtain ⟨rfl, hname⟩ := Slot.is_iff.mp his
      rw [← hname]
      exact hdone found hfound

end Settled

namespace Laid

variable {decls : List ClassDecl} {r : Registry} {c : ClassId}

theorem settled (h : Laid decls r) (hsound : r.Sound) (hc : c.index < r.size) : r.Settled (r.layout c) := by
  refine hsound.supertypes_induction (p := fun c ↦ r.Settled (r.layout c)) (fun c hc ih ↦ ?_) hc
  obtain ⟨own, hown, hlayout⟩ := h.exists_own hc
  have hinherited : ∀ ss, (∀ s ∈ ss, s ∈ r.supertypes c) → ∀ acc, r.Settled acc → r.Settled (r.inheritFrom acc ss) := by
    intro ss
    induction ss with
    | nil => exact fun _ _ hacc ↦ hacc
    | cons s rest ih' =>
      intro hss acc hacc
      rw [List.forall_mem_cons] at hss
      have hpart : r.Settled ([] ++ r.layout s) := ih s hss.1 (hsound.index_of_supertype hc hss.1)
      exact ih' hss.2 _ (hacc.inheritSlots hpart fun _ hs ↦ absurd hs List.not_mem_nil)
  rw [hlayout]
  refine (hinherited _ (fun _ hs ↦ hs) [] (.nil r)).append fun slot hslot a ha hne other hother howner ↦ ?_
  rw [hown slot hslot] at ha hne
  -- The slot is one of an ancestor, so the class has it, and it is none of its own.
  have hthere : ((r.layout a).find? (Slot.is a other.name)).isSome :=
    List.find?_isSome.mpr ⟨other, hother, Slot.is_iff.mpr ⟨howner, rfl⟩⟩
  rw [← h.find?_layout hsound hc a ha other.name, hlayout, List.find?_append] at hthere
  have hnone : own.find? (Slot.is a other.name) = none := by
    rw [List.find?_eq_none]
    exact fun s hs his ↦ hne ((Slot.is_iff.mp his).1.symm.trans (hown s hs))
  rw [hnone, Option.or_none, List.find?_isSome] at hthere
  exact List.any_eq_true.mpr hthere

/-- An inherited slot is one that its owner has. -/
theorem mem_layout_owner (h : Laid decls r) (hsound : r.Sound) (hc : c.index < r.size) :
    ∀ slot ∈ r.layout c, slot ∈ r.layout slot.owner := by
  refine hsound.supertypes_induction (p := fun c ↦ ∀ slot ∈ r.layout c, slot ∈ r.layout slot.owner) ?_ hc
  intro c hc ih slot hslot
  have hkept := hslot
  obtain ⟨own, hown, hlayout⟩ := h.exists_own hc
  rw [hlayout, List.mem_append] at hslot
  rcases hslot with hslot | hslot
  · obtain ⟨s, hs, hslot⟩ := (mem_inheritFrom hslot).resolve_left List.not_mem_nil
    exact ih s hs (hsound.index_of_supertype hc hs) slot hslot
  · rwa [hown slot hslot]

/-- A slot stands behind every slot of the proper ancestors of its owner. -/
theorem lt_of_ancestor (h : Laid decls r) (hsound : r.Sound) (hc : c.index < r.size) {i j : Nat} {slot other : Slot}
    (hi : (r.layout c)[i]? = some slot) (hj : (r.layout c)[j]? = some other) (hne : other.owner ≠ slot.owner)
    (hancestor : other.owner ∈ r.ancestors slot.owner) : j < i := by
  have howner := h.owner_mem hsound hc slot (List.mem_of_getElem? hi)
  have hinherited : other.owner ≠ c := by
    rintro rfl
    exact hne (hsound.ancestors_antisymm hc howner hancestor).symm
  have hdeclared := h.mem_layout_owner hsound hc other (List.mem_of_getElem? hj)
  have hfront := h.settled hsound hc i slot hi other.owner hancestor hne other hdeclared rfl
  obtain ⟨found, hfound, his⟩ := List.any_eq_true.mp hfront
  obtain ⟨hsame, hname⟩ := Slot.is_iff.mp his
  obtain ⟨k, hk⟩ := List.getElem?_of_mem hfound
  rw [List.getElem?_take] at hk
  split at hk
  · next hlt =>
    obtain rfl := h.eq_of_inherited hc hj hk hinherited hsame hname
    exact hlt
  · cases hk

end Laid

end Registry

end MindScript
