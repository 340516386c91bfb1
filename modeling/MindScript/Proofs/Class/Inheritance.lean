import Mathlib.Data.List.Nodup
import Mathlib.Data.List.Perm.Subperm
import MindScript.Proofs.Class.Declared

/-!
# What a class inherits

A slot is inherited by its owner and its name.  If a class declares a name twice it has two slots, of which only the
first is handed on; this is the one case in which something of a supertype is lost.

Nothing is lost of a class that declares every name once.  A name that it gives a meaning to then keeps that meaning in
its subclasses, as long as whatever else they inherit under the name is overridden there already.
-/

namespace MindScript

def Slot.named (name : String) (slot : Slot) : Bool := slot.name == name

@[simp] theorem Slot.named_iff {name : String} {slot : Slot} : slot.named name = true ↔ slot.name = name := beq_iff_eq

namespace Registry

/-! ### Lists of slots -/

section slots

variable {acc inherited : List Slot} {name : String}

/-- Slots that are all there already add nothing. -/
theorem inheritSlots_of_known (h : ∀ slot ∈ inherited, acc.any (Slot.is slot.owner slot.name) = true) :
    inheritSlots acc inherited = acc := by
  induction inherited with
  | nil => rfl
  | cons slot rest ih =>
    rw [List.forall_mem_cons] at h
    rw [inheritSlots_cons, if_pos h.1, ih h.2]

/-- Slots of which no two are alike are inherited as they are. -/
theorem inheritSlots_of_countP_le
    (h : ∀ owner name, (acc ++ inherited).countP (Slot.is owner name) ≤ 1) :
    inheritSlots acc inherited = acc ++ inherited := by
  induction inherited generalizing acc with
  | nil => rw [List.append_nil]; rfl
  | cons slot rest ih =>
    have hnew : ¬ acc.any (Slot.is slot.owner slot.name) = true := by
      intro hknown
      obtain ⟨found, hfound, his⟩ := List.any_eq_true.mp hknown
      have honce := h slot.owner slot.name
      have hself : slot.is slot.owner slot.name = true := Slot.is_iff.mpr ⟨rfl, rfl⟩
      have hpos : 0 < acc.countP (Slot.is slot.owner slot.name) := List.countP_pos_iff.mpr ⟨found, hfound, his⟩
      rw [List.countP_append, List.countP_cons_of_pos hself] at honce
      omega
    rw [inheritSlots_cons, if_neg hnew, List.append_cons acc slot rest]
    apply ih
    rwa [← List.append_cons]

/-- The slots of a name are inherited among themselves. -/
theorem filter_inheritSlots (acc inherited : List Slot) (name : String) :
    (inheritSlots acc inherited).filter (Slot.named name) =
      inheritSlots (acc.filter (Slot.named name)) (inherited.filter (Slot.named name)) := by
  induction inherited generalizing acc with
  | nil => rfl
  | cons slot rest ih =>
    rw [inheritSlots_cons]
    by_cases hname : slot.named name = true
    · have hknown : (acc.filter (Slot.named name)).any (Slot.is slot.owner slot.name) =
          acc.any (Slot.is slot.owner slot.name) := by
        rw [List.any_filter]
        congr 1
        funext s
        rw [Bool.eq_iff_iff, Bool.and_eq_true, Slot.is_iff, Slot.named_iff, ← Slot.named_iff.mp hname]
        exact and_iff_right_of_imp And.right
      rw [List.filter_cons_of_pos hname, inheritSlots_cons, hknown]
      split
      · exact ih acc
      · rw [ih, List.filter_append, List.filter_cons_of_pos hname, List.filter_nil]
    · rw [List.filter_cons_of_neg hname]
      split
      · exact ih acc
      · rw [ih, List.filter_append, List.filter_cons_of_neg hname, List.filter_nil, List.append_nil]

/-- The slot that a name reaches is the last one that has the name. -/
theorem getElem?_lastIndexOf (name : String) (slots : List Slot) :
    (lastIndexOf name slots).bind (slots[·]?) = (slots.filter (Slot.named name)).getLast? := by
  induction slots with
  | nil => rfl
  | cons slot rest ih =>
    have hnamed : (slot.name == name) = slot.named name := rfl
    rw [lastIndexOf, List.filter_cons, hnamed]
    cases hrest : lastIndexOf name rest with
    | some i =>
      obtain ⟨⟨found, hfound, -⟩, -⟩ := getElem?_of_lastIndexOf hrest
      rw [hrest, Option.bind_some, hfound] at ih
      rw [Option.bind_some, List.getElem?_cons_succ, hfound]
      split
      · rw [List.getLast?_cons, ← ih, Option.getD_some]
      · exact ih
    | none =>
      have hnone : rest.filter (Slot.named name) = [] := by
        rw [List.filter_eq_nil_iff]
        exact fun slot hslot his ↦ lastIndexOf_eq_none_iff.mp hrest slot hslot (Slot.named_iff.mp his)
      rw [hnone]
      cases slot.named name <;> rfl

end slots

/-- The slot that a name reaches. -/
def slotNamed (r : Registry) (c : ClassId) (name : String) : Option Slot :=
  (r.slotIndex c name).bind ((r.layout c)[·]?)

theorem slotNamed_eq (r : Registry) (c : ClassId) (name : String) :
    r.slotNamed c name = ((r.layout c).filter (Slot.named name)).getLast? :=
  getElem?_lastIndexOf name (r.layout c)

/-! ### Layouts -/

theorem map_name_of_realizes {r : Registry} {c : ClassId} {data : List DataDecl} {own : List Slot}
    (h : r.Realizes c data own) : own.map Slot.name = data.map DataDecl.name := by
  induction h with
  | nil => rfl
  | cons hfirst _ ih => rw [List.map_cons, List.map_cons, hfirst.1, ih]

theorem eq_of_countP_le_one {slots : List Slot} {p : Slot → Bool} (h : slots.countP p ≤ 1) {a b : Slot} (ha : a ∈ slots)
    (hb : b ∈ slots) (hpa : p a = true) (hpb : p b = true) : a = b := by
  have hfa := List.mem_filter.mpr ⟨ha, hpa⟩
  have hfb := List.mem_filter.mpr ⟨hb, hpb⟩
  rw [List.countP_eq_length_filter] at h
  match hfound : slots.filter p with
  | [] =>
    rw [hfound] at hfa
    cases hfa
  | [only] =>
    rw [hfound, List.mem_singleton] at hfa hfb
    rw [hfa, hfb]
  | _ :: _ :: _ =>
    rw [hfound] at h
    simp at h

namespace Laid

variable {decls : List ClassDecl} {r : Registry} {c s : ClassId} {decl base : ClassDecl}

/-- A class owns a slot for each time that it declares a name. -/
theorem countP_layout (h : Laid decls r) (hsound : r.Sound) (hc : c.index < r.size)
    (hdecl : decls[c.index]? = some decl) (name : String) :
    (r.layout c).countP (Slot.is c name) = (decl.data.map DataDecl.name).count name := by
  obtain ⟨own, hown, hlayout⟩ := h.layout c decl hdecl
  have hinherited : (r.inheritFrom [] (r.supertypes c)).countP (Slot.is c name) = 0 := by
    rw [List.countP_eq_zero]
    intro slot hslot his
    obtain ⟨s, hs, hslot⟩ := (mem_inheritFrom hslot).resolve_left List.not_mem_nil
    have hindex := hsound.index_of_supertype hc hs
    have hle := hsound.index_le_of_mem hindex (h.owner_mem hsound hindex slot hslot)
    rw [(Slot.is_iff.mp his).1] at hle
    exact Nat.not_lt_of_le hle (hsound.supertypes c hc s hs)
  rw [hlayout, List.countP_append, hinherited, Nat.zero_add, ← map_name_of_realizes hown, List.count, List.countP_map]
  refine List.countP_congr fun slot hslot ↦ ?_
  simp [owner_of_realizes hown hslot]

/-- If a class declares every name once, no two of its slots have the same owner and name. -/
theorem countP_layout_le_of_nodup (h : Laid decls r) (hsound : r.Sound) (hc : c.index < r.size)
    (hdecl : decls[c.index]? = some decl) (hnodup : (decl.data.map DataDecl.name).Nodup) (owner : ClassId)
    (name : String) : (r.layout c).countP (Slot.is owner name) ≤ 1 := by
  by_cases howner : owner = c
  · rw [howner, h.countP_layout hsound hc hdecl name]
    exact List.nodup_iff_count_le_one.mp hnodup name
  · exact h.countP_layout_le hc howner name

section supertype

variable (h : Laid decls r) (hsound : r.Sound) (hc : c.index < r.size) (hs : s ∈ r.supertypes c)
  (hbase : decls[s.index]? = some base)

include h hsound hc hs

/-- Only the first slot of a repeated name is handed on. -/
theorem nodup_of_count_le (hbase : decls[s.index]? = some base)
    (hcount : ∀ slot, (r.layout s).count slot ≤ (r.layout c).count slot) : (base.data.map DataDecl.name).Nodup := by
  have hindex := hsound.index_of_supertype hc hs
  have hsub : (r.layout s).Subperm (r.layout c) := List.subperm_ext_iff.mpr fun slot _ ↦ hcount slot
  rw [List.nodup_iff_count_le_one]
  intro name
  have hne : s ≠ c := by
    rintro rfl
    exact Nat.lt_irrefl _ (hsound.supertypes s hc s hs)
  calc (base.data.map DataDecl.name).count name
    _ = (r.layout s).countP (Slot.is s name) := (h.countP_layout hsound hindex hbase name).symm
    _ ≤ (r.layout c).countP (Slot.is s name) := hsub.countP_le _
    _ ≤ 1 := h.countP_layout_le hc hne name

variable (hnodup : (base.data.map DataDecl.name).Nodup)

include hbase hnodup

theorem mem_of_supertype {slot : Slot} (hslot : slot ∈ r.layout s) : slot ∈ r.layout c := by
  have hindex := hsound.index_of_supertype hc hs
  have howner := h.owner_mem hsound hindex slot hslot
  have hanc : slot.owner ∈ r.ancestors c := (hsound.ancestors c hc _).mpr (.inr ⟨s, hs, howner⟩)
  have hself : slot.is slot.owner slot.name = true := Slot.is_iff.mpr ⟨rfl, rfl⟩
  have hsame : (r.layout c).find? (Slot.is slot.owner slot.name) = (r.layout s).find? (Slot.is slot.owner slot.name) :=
    (h.find?_layout hsound hc _ hanc _).trans (h.find?_layout hsound hindex _ howner _).symm
  obtain ⟨first, hfirst⟩ := Option.isSome_iff_exists.mp (List.find?_isSome.mpr ⟨slot, hslot, hself⟩)
  have honce := h.countP_layout_le_of_nodup hsound hindex hbase hnodup slot.owner slot.name
  obtain rfl := eq_of_countP_le_one honce (List.mem_of_find?_eq_some hfirst) hslot (List.find?_some hfirst) hself
  exact List.mem_of_find?_eq_some (hsame.trans hfirst)

theorem count_le_of_nodup (slot : Slot) : (r.layout s).count slot ≤ (r.layout c).count slot := by
  have hindex := hsound.index_of_supertype hc hs
  have honce : (r.layout s).count slot ≤ 1 := by
    refine Nat.le_trans (List.countP_mono_left fun other _ hother ↦ ?_)
      (h.countP_layout_le_of_nodup hsound hindex hbase hnodup slot.owner slot.name)
    rw [eq_of_beq hother]
    exact Slot.is_iff.mpr ⟨rfl, rfl⟩
  by_cases hslot : slot ∈ r.layout s
  · exact Nat.le_trans honce (List.count_pos_iff.mpr (h.mem_of_supertype hsound hc hs hbase hnodup hslot))
  · rw [List.count_eq_zero.mpr hslot]
    exact Nat.zero_le _

/-- Of a single supertype a class inherits the layout as it is. -/
theorem layout_of_single (hdecl : decls[c.index]? = some decl) (hsingle : r.supertypes c = [s]) :
    ∃ own, r.Realizes c decl.data own ∧ r.layout c = r.layout s ++ own := by
  obtain ⟨own, hown, hlayout⟩ := h.layout c decl hdecl
  refine ⟨own, hown, ?_⟩
  have honce := h.countP_layout_le_of_nodup hsound (hsound.index_of_supertype hc hs) hbase hnodup
  have hinherits : inheritSlots [] (r.layout s) = [] ++ r.layout s := inheritSlots_of_countP_le honce
  rw [hlayout, hsingle]
  exact congrArg (· ++ own) hinherits

/-- A name that nothing else brings in reaches what it reaches in the supertype. -/
theorem slotNamed_of_supertype (hdecl : decls[c.index]? = some decl) {name : String}
    (hown : ∀ d ∈ decl.data, d.name ≠ name)
    (hothers : ∀ s' ∈ r.supertypes c, s' ≠ s → ∀ slot ∈ r.layout s', slot.name ≠ name) :
    r.slotNamed c name = r.slotNamed s name := by
  obtain ⟨own, hrealizes, hlayout⟩ := h.layout c decl hdecl
  set found := (r.layout s).filter (Slot.named name) with hfound
  have hnone : own.filter (Slot.named name) = [] := by
    rw [List.filter_eq_nil_iff]
    intro slot hslot hnamed
    have hname : slot.name ∈ decl.data.map DataDecl.name := by
      rw [← map_name_of_realizes hrealizes]
      exact List.mem_map_of_mem hslot
    obtain ⟨d, hd, hsame⟩ := List.mem_map.mp hname
    exact hown d hd (hsame.trans (Slot.named_iff.mp hnamed))
  have honce : ∀ owner name, found.countP (Slot.is owner name) ≤ 1 := fun owner name ↦
    Nat.le_trans (List.filter_sublist.countP_le)
      (h.countP_layout_le_of_nodup hsound (hsound.index_of_supertype hc hs) hbase hnodup owner name)
  have hknown : inheritSlots found found = found := inheritSlots_of_known fun slot hslot ↦
    List.any_eq_true.mpr ⟨slot, hslot, Slot.is_iff.mpr ⟨rfl, rfl⟩⟩
  have hmerge : ∀ ss, (∀ s' ∈ ss, s' ∈ r.supertypes c) → ∀ acc,
      acc.filter (Slot.named name) = [] ∧ s ∈ ss ∨ acc.filter (Slot.named name) = found →
      (r.inheritFrom acc ss).filter (Slot.named name) = found := by
    intro ss
    induction ss with
    | nil => exact fun _ acc hacc ↦ hacc.resolve_left fun hempty ↦ List.not_mem_nil hempty.2
    | cons s' rest ih =>
      intro hss acc hacc
      rw [List.forall_mem_cons] at hss
      refine ih hss.2 _ ?_
      rw [filter_inheritSlots]
      by_cases hs' : s' = s
      · subst hs'
        rcases hacc with ⟨hempty, -⟩ | hthere
        · rw [hempty]
          exact .inr (inheritSlots_of_countP_le honce)
        · rw [hthere]
          exact .inr hknown
      · have hempty : (r.layout s').filter (Slot.named name) = [] := by
          rw [List.filter_eq_nil_iff]
          exact fun slot hslot hnamed ↦ hothers s' hss.1 hs' slot hslot (Slot.named_iff.mp hnamed)
        rw [hempty]
        exact hacc.imp_left fun ⟨hacc, hmem⟩ ↦ ⟨hacc, (List.mem_cons.mp hmem).resolve_left (Ne.symm hs')⟩
  rw [slotNamed_eq, slotNamed_eq, hlayout, List.filter_append, hnone, List.append_nil,
    hmerge (r.supertypes c) (fun _ hs ↦ hs) [] (.inl ⟨rfl, hs⟩)]

/-- A slot that overrides whatever else has its name stays the one that the name reaches. -/
theorem slotNamed_of_overriding {name : String} {slot : Slot} (hslot : r.slotNamed s name = some slot)
    (hall : ∀ other ∈ r.layout c, other.name = name → r.isSubtype slot.owner other.owner = true) :
    r.slotNamed c name = some slot := by
  have hindex := hsound.index_of_supertype hc hs
  obtain ⟨hmem, hname⟩ : slot ∈ r.layout s ∧ slot.name = name := by
    rw [slotNamed_eq] at hslot
    simpa using List.mem_of_getLast? hslot
  have hthere := h.mem_of_supertype hsound hc hs hbase hnodup hmem
  obtain ⟨k, hk⟩ := List.getElem?_of_mem hthere
  cases hlast : r.slotIndex c name with
  | none => exact absurd hname (lastIndexOf_eq_none_iff.mp hlast slot hthere)
  | some i =>
    obtain ⟨⟨last, hi, hlastName⟩, hlater⟩ := getElem?_of_lastIndexOf hlast
    have hle : k ≤ i := Nat.le_of_not_lt fun hlt ↦ hlater k slot hlt hk hname
    rw [slotNamed, hlast, Option.bind_some]
    by_cases howner : last.owner = slot.owner
    · have hne : slot.owner ≠ c := by
        intro heq
        have hbelow := hsound.index_le_of_mem hindex (h.owner_mem hsound hindex slot hmem)
        rw [heq] at hbelow
        exact Nat.not_lt_of_le hbelow (hsound.supertypes c hc s hs)
      obtain rfl := h.eq_of_inherited hc hk hi hne howner (hlastName.trans hname.symm)
      exact hk
    · have hsub := hall last (List.mem_of_getElem? hi) hlastName
      have hancestor := (isSubtype_iff.mp hsub).resolve_left (Ne.symm howner)
      have hlt := h.lt_of_ancestor hsound hc hk hi howner hancestor
      exact absurd hlt (Nat.not_lt_of_le hle)

end supertype

end Laid

/-! ### The only slots that are lost -/

/-- All slots of a supertype are inherited if and only if it declares every name once.  Its layout then comes first in
that of a class without other supertypes, and its slots keep their names unless something overrides them. -/
theorem inherits_slots_iff {decls : List ClassDecl} {r : Registry} (h : Declared decls r) {c s : ClassId}
    {decl base : ClassDecl} (hdecl : decls[c.index]? = some decl) (hbase : decls[s.index]? = some base)
    (hs : s ∈ r.supertypes c) :
    ((∀ slot, (r.layout s).count slot ≤ (r.layout c).count slot) ↔ (base.data.map DataDecl.name).Nodup) ∧
    ((base.data.map DataDecl.name).Nodup →
      (r.supertypes c = [s] → ∃ own, r.Realizes c decl.data own ∧ r.layout c = r.layout s ++ own) ∧
      ∀ name,
        ((∀ d ∈ decl.data, d.name ≠ name) →
          (∀ s' ∈ r.supertypes c, s' ≠ s → ∀ slot ∈ r.layout s', slot.name ≠ name) →
            r.slotNamed c name = r.slotNamed s name) ∧
        ∀ slot, r.slotNamed s name = some slot →
          (∀ other ∈ r.layout c, other.name = name → r.isSubtype slot.owner other.owner = true) →
            r.slotNamed c name = some slot) := by
  have hlaid := h.laid
  have hc : c.index < r.size := by
    rw [hlaid.size]
    exact (List.getElem?_eq_some_iff.mp hdecl).1
  refine ⟨⟨hlaid.nodup_of_count_le h.sound hc hs hbase, hlaid.count_le_of_nodup h.sound hc hs hbase⟩, fun hnodup ↦ ?_⟩
  refine ⟨hlaid.layout_of_single h.sound hc hs hbase hnodup hdecl, fun name ↦ ⟨fun hown hothers ↦ ?_, fun slot ↦ ?_⟩⟩
  · exact hlaid.slotNamed_of_supertype h.sound hc hs hbase hnodup hdecl hown hothers
  · exact hlaid.slotNamed_of_overriding h.sound hc hs hbase hnodup

/-- A base that declares two names once each, and a class below it. -/
def derivation : List ClassDecl := [
  { name := "Base", data := [⟨"x", "Base"⟩, ⟨"y", "Base"⟩] },
  { name := "Derived", supertypes := ["Base"], data := [⟨"y", "Derived"⟩] }]

/-- The name that is not declared again reaches the inherited slot. -/
theorem inherits_slots_iff_derivation : ∃ r, Declared derivation r ∧ r.supertypes ⟨1⟩ = [⟨0⟩] ∧
    (∀ slot, (r.layout ⟨0⟩).count slot ≤ (r.layout ⟨1⟩).count slot) ∧
    r.slotNamed ⟨0⟩ "x" = some ⟨"x", ⟨0⟩, ⟨0⟩⟩ ∧ r.slotNamed ⟨1⟩ "x" = some ⟨"x", ⟨0⟩, ⟨0⟩⟩ := by
  have hdeclared : Declared derivation (afterAll {} derivation) := Declared.empty.afterAll (by decide +kernel)
  have hsuper : (afterAll {} derivation).supertypes ⟨1⟩ = [⟨0⟩] := by decide +kernel
  have hreached : (afterAll {} derivation).slotNamed ⟨0⟩ "x" = some ⟨"x", ⟨0⟩, ⟨0⟩⟩ := by decide +kernel
  obtain ⟨hcount, hrest⟩ := inherits_slots_iff hdeclared (c := ⟨1⟩) (s := ⟨0⟩) rfl rfl (by simp [hsuper])
  obtain ⟨-, hnames⟩ := hrest (by decide)
  refine ⟨_, hdeclared, hsuper, hcount.mpr (by decide), hreached, ?_⟩
  exact (hnames "x").2 _ hreached (by decide +kernel)

/-- A base that declares one name with two classes, and a class below it. -/
def repetition : List ClassDecl := [
  { name := "Part" },
  { name := "Base", supertypes := ["Part"], data := [⟨"x", "Part"⟩, ⟨"x", "Base"⟩] },
  { name := "Derived", supertypes := ["Base"] }]

/-- The class below has lost a slot, and the name reaches one of another class than above. -/
theorem not_inherits_slots :
    (¬ ∀ decls r, Declared decls r → ∀ c s : ClassId, c.index < r.size → s ∈ r.supertypes c →
      ∀ slot, (r.layout s).count slot ≤ (r.layout c).count slot) ∧
    ¬ ∀ decls r, Declared decls r → ∀ (c s : ClassId) decl, decls[c.index]? = some decl → decl.data = [] →
      r.supertypes c = [s] → ∀ name,
        (r.slotNamed c name).map Slot.valueClass = (r.slotNamed s name).map Slot.valueClass := by
  have hdeclared : Declared repetition (afterAll {} repetition) := Declared.empty.afterAll (by decide +kernel)
  refine ⟨fun hall ↦ ?_, fun hall ↦ ?_⟩
  · have hlost : ¬ ((afterAll {} repetition).layout ⟨1⟩).count ⟨"x", ⟨1⟩, ⟨1⟩⟩ ≤
        ((afterAll {} repetition).layout ⟨2⟩).count ⟨"x", ⟨1⟩, ⟨1⟩⟩ := by decide +kernel
    exact hlost (hall _ _ hdeclared ⟨2⟩ ⟨1⟩ (by decide +kernel) (by decide +kernel) _)
  · have hchanged : ((afterAll {} repetition).slotNamed ⟨2⟩ "x").map Slot.valueClass ≠
        ((afterAll {} repetition).slotNamed ⟨1⟩ "x").map Slot.valueClass := by decide +kernel
    exact hchanged (hall _ _ hdeclared ⟨2⟩ ⟨1⟩ _ rfl rfl (by decide +kernel) "x")

end Registry

end MindScript
