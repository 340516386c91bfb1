import Mathlib.Data.List.Forall2
import MindScript.Proofs.Class.Layout

/-!
# Declared classes

A registry comes about from requests and from changes to class data.  Each class keeps the layout that it was given:
its name, its supertypes and its slots never change, so a class is laid out as it is declared.

Hence the order in which slots are put together is one of every registry.  A name reaches the last slot that has it,
and this is one that nobody overrides.
-/

namespace MindScript.Registry

/-! ### Names of classes -/

section names

variable {r r' : Registry} {c : ClassId} {name : String}

theorem nameOf_eq {i : Nat} (hi : i < r.classes.size) : r.nameOf ⟨i⟩ = r.classes[i].name := by
  rw [nameOf, record, Array.getD_eq_getD_getElem?, Array.getElem?_eq_getElem hi, Option.getD_some]

theorem classNamed_eq_some_iff : r.classNamed name = some c ↔
    c.index < r.size ∧ r.nameOf c = name ∧ ∀ d : ClassId, d.index < c.index → r.nameOf d ≠ name := by
  obtain ⟨i⟩ := c
  have hmk : r.classNamed name = some ⟨i⟩ ↔ (r.classes.findIdx? fun record ↦ record.name == name) = some i := by
    rw [classNamed, Option.map_eq_some_iff]
    constructor
    · rintro ⟨j, hj, heq⟩
      cases heq
      exact hj
    · exact fun h ↦ ⟨i, h, rfl⟩
  rw [hmk, Array.findIdx?_eq_some_iff_getElem]
  constructor
  · rintro ⟨hi, hname, hfirst⟩
    refine ⟨hi, by rw [nameOf_eq hi]; simpa using hname, fun d hd ↦ ?_⟩
    have hne := hfirst d.index hd
    rw [show d = ⟨d.index⟩ from rfl, nameOf_eq (Nat.lt_trans hd hi)]
    simpa using hne
  · rintro ⟨hi, hname, hfirst⟩
    rw [nameOf_eq hi] at hname
    refine ⟨hi, by simpa using hname, fun j hj ↦ ?_⟩
    have hne := hfirst ⟨j⟩ hj
    rw [nameOf_eq (Nat.lt_trans hj hi)] at hne
    simpa using hne

theorem classNamed_eq_none_iff : r.classNamed name = none ↔ ∀ c : ClassId, c.index < r.size → r.nameOf c ≠ name := by
  rw [classNamed, Option.map_eq_none_iff, Array.findIdx?_eq_none_iff]
  constructor
  · intro h c hc
    rw [show c = ⟨c.index⟩ from rfl, nameOf_eq hc]
    simpa using h _ (Array.getElem_mem hc)
  · intro h record hrecord
    obtain ⟨i, hi, rfl⟩ := Array.mem_iff_getElem.mp hrecord
    have hne := h ⟨i⟩ hi
    rw [nameOf_eq hi] at hne
    simpa using hne

theorem classNamed_eq_none_of_checkName {decl : ClassDecl} (h : r.checkName decl = .ok ()) :
    r.classNamed decl.name = none := by
  unfold checkName at h
  split at h
  · cases h
  · split at h
    · next hnone => exact hnone
    · split at h <;> cases h

end names

/-! ### Registries that grow -/

/-- There may be more classes than before, and the earlier ones have the names, supertypes and layouts that they had. -/
structure Extends (r r' : Registry) : Prop where
  size : r.size ≤ r'.size
  nameOf : ∀ c, c.index < r.size → r'.nameOf c = r.nameOf c
  supertypes : ∀ c, c.index < r.size → r'.supertypes c = r.supertypes c
  layout : ∀ c, c.index < r.size → r'.layout c = r.layout c

namespace Extends

variable {r r' : Registry} {c : ClassId}

theorem of_classes (h : r'.classes = r.classes) : r.Extends r' := by
  have hrecord : r'.record = r.record := by
    funext c
    rw [record, record, h]
  refine ⟨Nat.le_of_eq (congrArg Array.size h).symm, fun c _ ↦ ?_, fun c _ ↦ ?_, fun c _ ↦ ?_⟩
  · rw [Registry.nameOf, hrecord, Registry.nameOf]
  · rw [Registry.supertypes, hrecord, Registry.supertypes]
  · rw [Registry.layout, hrecord, Registry.layout]

theorem trans {r'' : Registry} (h : r.Extends r') (h' : r'.Extends r'') : r.Extends r'' := by
  have hlt : ∀ {c : ClassId}, c.index < r.size → c.index < r'.size := fun hc ↦ Nat.lt_of_lt_of_le hc h.size
  refine ⟨Nat.le_trans h.size h'.size, fun c hc ↦ ?_, fun c hc ↦ ?_, fun c hc ↦ ?_⟩
  · exact (h'.nameOf c (hlt hc)).trans (h.nameOf c hc)
  · exact (h'.supertypes c (hlt hc)).trans (h.supertypes c hc)
  · exact (h'.layout c (hlt hc)).trans (h.layout c hc)

theorem storeMember (r : Registry) (c : ClassId) (decl : MemberDecl) : r.Extends (r.storeMember c decl) := by
  refine ⟨Nat.le_of_eq (size_storeMember r c decl).symm, fun d hd ↦ ?_, fun d hd ↦ ?_, fun d hd ↦ ?_⟩
  · rw [Registry.nameOf, record_storeMember r c decl hd, Registry.nameOf]
  · exact supertypes_storeMember r c decl hd
  · rw [Registry.layout, record_storeMember r c decl hd, Registry.layout]

theorem addRecord (r : Registry) (new : ClassRecord) : r.Extends (r.addRecord new) := by
  have hrecord : ∀ c : ClassId, c.index < r.size →
      ∃ subclasses, (r.addRecord new).record c = { r.record c with subclasses } := by
    intro c hc
    rcases record_addRecord r new c with ⟨heq, -⟩ | ⟨-, hsame⟩
    · exact absurd heq (Nat.ne_of_lt hc)
    · exact hsame
  refine ⟨size_addRecord r new ▸ Nat.le_succ _, fun c hc ↦ ?_, fun c hc ↦ ?_, fun c hc ↦ ?_⟩ <;>
    obtain ⟨subclasses, heq⟩ := hrecord c hc
  · rw [Registry.nameOf, heq, Registry.nameOf]
  · rw [Registry.supertypes, heq, Registry.supertypes]
  · rw [Registry.layout, heq, Registry.layout]

theorem classNamed (h : r.Extends r') {name : String} (hc : r.classNamed name = some c) :
    r'.classNamed name = some c := by
  rw [classNamed_eq_some_iff] at hc ⊢
  obtain ⟨hlt, hname, hfirst⟩ := hc
  refine ⟨Nat.lt_of_lt_of_le hlt h.size, (h.nameOf c hlt).trans hname, fun d hd ↦ ?_⟩
  rw [h.nameOf d (Nat.lt_trans hd hlt)]
  exact hfirst d hd

theorem inheritFrom (h : r.Extends r') {ss : List ClassId} (hss : ∀ s ∈ ss, s.index < r.size) (acc : List Slot) :
    r'.inheritFrom acc ss = r.inheritFrom acc ss := by
  induction ss generalizing acc with
  | nil => rfl
  | cons s rest ih =>
    rw [List.forall_mem_cons] at hss
    have hpart : inheritSlots acc (r'.layout s) = inheritSlots acc (r.layout s) := by rw [h.layout s hss.1]
    exact (congrArg (fun acc ↦ r'.inheritFrom acc rest) hpart).trans (ih hss.2 _)

theorem realizes (h : r.Extends r') {data : List DataDecl} {own : List Slot} (hown : r.Realizes c data own) :
    r'.Realizes c data own := by
  rw [Realizes] at hown ⊢
  exact hown.imp fun _ _ ⟨hname, hclass, howner⟩ ↦ ⟨hname, h.classNamed hclass, howner⟩

/-- An earlier class is laid out as it was. -/
theorem exists_own (h : r.Extends r') (hsound : r.Sound) (hc : c.index < r.size) {data : List DataDecl}
    (hlaid : ∃ own, r.Realizes c data own ∧ r.layout c = r.inheritFrom [] (r.supertypes c) ++ own) :
    ∃ own, r'.Realizes c data own ∧ r'.layout c = r'.inheritFrom [] (r'.supertypes c) ++ own := by
  obtain ⟨own, hown, hlayout⟩ := hlaid
  refine ⟨own, h.realizes hown, ?_⟩
  rw [h.layout c hc, hlayout, h.supertypes c hc, h.inheritFrom (fun s hs ↦ hsound.index_of_supertype hc hs)]

end Extends

/-- The declaration that a request adds if it is granted. -/
def Request.declared (r : Registry) : Request → List ClassDecl
  | register decl =>
    match (Registry.register decl r).1 with
    | .ok _ => [decl]
    | .error _ => []
  | define _ _ | find _ _ | resolve _ _ _ => []

theorem classes_register_of_error {decl : ClassDecl} {r : Registry} {e : EvalError}
    (h : (register decl r).1 = .error e) : (register decl r).2.classes = r.classes := by
  rcases register_cases decl r with heq | ⟨supertypes, r₁, -, hchecked, heq | ⟨own, classData, -, heq⟩⟩
  · rw [heq]
  · rw [heq, ← hchecked]
    exact classes_checkMembers ..
  · rw [heq] at h
    cases h

namespace Laid

variable {decls : List ClassDecl} {r r' : Registry}

theorem empty : Laid [] {} := ⟨rfl, fun _ _ h ↦ by simp at h⟩

theorem of_extends (h : Laid decls r) (hsound : r.Sound) (hextends : r.Extends r') (hsize : r'.size = r.size) :
    Laid decls r' := by
  refine ⟨hsize.trans h.size, fun c decl hdecl ↦ ?_⟩
  have hc : c.index < r.size := h.size ▸ (List.getElem?_eq_some_iff.mp hdecl).1
  exact hextends.exists_own hsound hc (h.layout c decl hdecl)

theorem forall₂_of_mapM {α β : Type} {f : α → Except EvalError β} {as : List α} {bs : List β}
    (h : as.mapM f = .ok bs) : List.Forall₂ (fun a b ↦ f a = .ok b) as bs := by
  induction as generalizing bs with
  | nil =>
    cases h
    exact .nil
  | cons a rest ih =>
    rw [List.mapM_cons] at h
    obtain ⟨b, hb, h⟩ := except_bind_eq_ok h
    obtain ⟨bs', hbs', h⟩ := except_bind_eq_ok h
    cases h
    exact .cons hb (ih hbs')

/-- A class that is registered is laid out as it is declared. -/
theorem register (h : Laid decls r) (hsound : r.Sound) {decl : ClassDecl} {id : ClassId}
    (hreg : Registry.register decl r = (.ok id, r')) : Laid (decls ++ [decl]) r' := by
  obtain ⟨supertypes, own, classData, r₁, hname, hsuper, hown, hcheck, hadded⟩ := exists_of_register_eq_ok hreg
  have hindex := index_of_resolveSupertypes hsuper
  have hclasses : r₁.classes = r.classes := by
    have hremembers := (checkMembers_of_sound hsound hindex decl.name decl.members).1
    rw [hcheck] at hremembers
    exact hremembers.classes
  have hsize₁ : r₁.size = r.size := congrArg Array.size hclasses
  obtain rfl := hadded hsize₁
  set new := r₁.newRecord decl supertypes own classData
  have hextends₁ : r.Extends r₁ := .of_classes hclasses
  have hextends₂ := Extends.addRecord r₁ new
  have hself : (r₁.addRecord new).record ⟨r.size⟩ = new := hsize₁ ▸ record_addRecord_self r₁ new
  have hnamed : (r₁.addRecord new).classNamed decl.name = some ⟨r.size⟩ := by
    rw [classNamed_eq_some_iff, size_addRecord, hsize₁]
    refine ⟨Nat.lt_succ_self _, by rw [nameOf, hself]; rfl, fun d hd ↦ ?_⟩
    rw [hextends₂.nameOf d (hsize₁ ▸ hd), hextends₁.nameOf d hd]
    exact classNamed_eq_none_iff.mp (classNamed_eq_none_of_checkName hname) d hd
  refine ⟨by rw [size_addRecord, hsize₁, h.size, List.length_append, List.length_singleton], fun c d hd ↦ ?_⟩
  by_cases hc : c.index < r.size
  · rw [List.getElem?_append_left (h.size ▸ hc)] at hd
    have hold := hextends₁.exists_own hsound hc (h.layout c d hd)
    refine hextends₂.exists_own (hsound.of_classes hclasses ?_) (hsize₁ ▸ hc) hold
    have hremembers := (checkMembers_of_sound hsound hindex decl.name decl.members).1
    rw [hcheck] at hremembers
    exact hremembers.sound.cache
  · obtain ⟨hlt, hat⟩ := List.getElem?_eq_some_iff.mp hd
    have hci : c.index = r.size := by
      rw [List.length_append, List.length_singleton, ← h.size] at hlt
      omega
    obtain rfl : c = ⟨r.size⟩ := by
      cases c
      exact congrArg ClassId.mk hci
    obtain rfl : decl = d := by
      rw [List.getElem?_append_right (Nat.le_of_eq h.size.symm), h.size, Nat.sub_self] at hd
      exact Option.some.inj hd
    refine ⟨own, ?_, ?_⟩
    · refine (forall₂_of_mapM hown).imp fun d slot hslot ↦ ?_
      obtain ⟨v, hv, hslot⟩ := except_bind_eq_ok hslot
      cases hslot
      refine ⟨rfl, ?_, rfl⟩
      unfold resolveDataClass at hv
      split at hv
      · next hself =>
        cases hv
        rw [eq_of_beq hself, hnamed]
      · split at hv
        · next hfound =>
          cases hv
          exact hextends₂.classNamed (hextends₁.classNamed hfound)
        · cases hv
    · have hparts : (r₁.addRecord new).inheritFrom [] supertypes = r₁.inheritFrom [] supertypes :=
        hextends₂.inheritFrom (fun s hs ↦ hsize₁ ▸ hindex s hs) []
      rw [Registry.layout, Registry.supertypes, hself]
      exact congrArg (· ++ own) hparts.symm

/-- Granted or refused, a request leaves the classes as they are laid out, and may add one. -/
theorem request (h : Laid decls r) (hsound : r.Sound) (q : Request) : Laid (decls ++ q.declared r) (q.after r) := by
  have hkept : ∀ {r'}, r'.classes = r.classes → Laid (decls ++ []) r' := by
    intro r' hclasses
    rw [List.append_nil]
    exact h.of_extends hsound (.of_classes hclasses) (congrArg Array.size hclasses)
  cases q with
  | register decl =>
    rw [Request.declared, Request.after]
    rcases hreg : Registry.register decl r with ⟨e | id, r'⟩
    · refine hkept ?_
      have hsame := classes_register_of_error (e := e) (congrArg Prod.fst hreg)
      rwa [hreg] at hsame
    · exact h.register hsound hreg
  | define c decl =>
    obtain ⟨r₁, rfl, heq | heq⟩ := define_cases c decl r <;> rw [Request.declared, Request.after, heq]
    · exact hkept (classes_checkMembers ..)
    · have hchecked := classes_checkMembers (r.supertypes c) (r.nameOf c) [decl] r
      set r₁ := (checkMembers (r.supertypes c) (r.nameOf c) [decl] r).2
      have hextends := (Extends.of_classes hchecked).trans (.storeMember r₁ c decl)
      rw [List.append_nil]
      exact h.of_extends hsound hextends ((size_storeMember r₁ c decl).trans (congrArg Array.size hchecked))
  | find c name => exact hkept (classes_find r c name)
  | resolve c name qualifier =>
    rw [Request.declared, Request.after]
    rcases resolve_cases r c name qualifier with ⟨start, heq⟩ | ⟨note, heq⟩ <;> rw [heq]
    · exact hkept (classes_find r start name)
    · exact hkept rfl

end Laid

/-! ### Class data -/

/-- Nothing but the values of class data has changed. -/
structure Revalued (r r' : Registry) : Prop where
  size : r'.size = r.size
  cache : r'.cache = r.cache
  record : ∀ c, ∃ classData, r'.record c = { r.record c with classData }

namespace Revalued

variable {r r' : Registry}

theorem of_setClassData (r : Registry) (c : ClassId) (i : Nat) (value : Ref) :
    r.Revalued (r.setClassData c i value).2 := by
  refine ⟨Array.size_modify, rfl, fun d ↦ ?_⟩
  simp only [Registry.setClassData, Registry.record, Array.getD_eq_getD_getElem?, Array.getElem?_modify]
  split
  · cases r.classes[d.index]? <;> exact ⟨_, rfl⟩
  · exact ⟨_, rfl⟩

theorem of_clearClassData (r : Registry) : r.Revalued r.clearClassData :=
  ⟨Array.size_map, rfl, fun d ↦ ⟨_, r.record_clearClassData d⟩⟩

theorem extended (h : r.Revalued r') : r.Extends r' := by
  refine ⟨Nat.le_of_eq h.size.symm, fun c _ ↦ ?_, fun c _ ↦ ?_, fun c _ ↦ ?_⟩ <;> obtain ⟨classData, heq⟩ := h.record c
  · rw [Registry.nameOf, heq, Registry.nameOf]
  · rw [Registry.supertypes, heq, Registry.supertypes]
  · rw [Registry.layout, heq, Registry.layout]

theorem sound (h : r.Revalued r') (hsound : r.Sound) (hmarked : r.Marked) : r'.Sound ∧ r'.Marked := by
  have hsupertypes : r'.supertypes = r.supertypes := by
    funext c
    obtain ⟨classData, heq⟩ := h.record c
    rw [supertypes, heq, supertypes]
  have hsubclasses : r'.subclasses = r.subclasses := by
    funext c
    obtain ⟨classData, heq⟩ := h.record c
    rw [subclasses, heq, subclasses]
  have hancestors : r'.ancestors = r.ancestors := by
    funext c
    obtain ⟨classData, heq⟩ := h.record c
    rw [ancestors, heq, ancestors]
  have hmembers : r'.ownMembers = r.ownMembers := by
    funext c
    obtain ⟨classData, heq⟩ := h.record c
    rw [ownMembers, heq, ownMembers]
  have hmark : r'.hasDestructor = r.hasDestructor := by
    funext c
    obtain ⟨classData, heq⟩ := h.record c
    rw [hasDestructor, heq, hasDestructor]
  have hsearch : r'.search = r.search := by
    funext c name
    rw [search, search, hancestors, hmembers]
  refine ⟨⟨?_, ?_, ?_, ?_⟩, ?_⟩
  · simpa only [h.size, hsupertypes] using hsound.supertypes
  · simpa only [h.size, hsubclasses, hsupertypes] using hsound.subclasses
  · simpa only [h.size, hancestors, hsupertypes] using hsound.ancestors
  · simpa only [h.size, h.cache, hsearch] using hsound.cache
  · simpa only [Marked, h.size, hmark, hsearch] using hmarked

end Revalued

/-- Registries that requests and changes to class data make out of the empty one, with the declarations that were
granted. -/
inductive Declared : List ClassDecl → Registry → Prop
  | empty : Declared [] {}
  | request {decls : List ClassDecl} {r : Registry} {q : Request} (declared : Declared decls r) (fits : q.Fits r) :
      Declared (decls ++ q.declared r) (q.after r)
  | setClassData {decls : List ClassDecl} {r : Registry} (declared : Declared decls r) (c : ClassId) (i : Nat)
      (value : Ref) : Declared decls (r.setClassData c i value).2
  | clearClassData {decls : List ClassDecl} {r : Registry} (declared : Declared decls r) :
      Declared decls r.clearClassData

namespace Declared

variable {decls : List ClassDecl} {r : Registry}

theorem sound_marked (h : Declared decls r) : r.Sound ∧ r.Marked := by
  induction h with
  | empty => exact ⟨.empty, fun c hc ↦ absurd hc (Nat.not_lt_zero _)⟩
  | request _ hfits ih => exact Request.sound_after ih.1 ih.2 hfits
  | setClassData _ c i value ih => exact (Revalued.of_setClassData _ c i value).sound ih.1 ih.2
  | clearClassData _ ih => exact (Revalued.of_clearClassData _).sound ih.1 ih.2

theorem sound (h : Declared decls r) : r.Sound := h.sound_marked.1

theorem laid (h : Declared decls r) : Laid decls r := by
  have hrevalued : ∀ {decls r r'}, Laid decls r → r.Sound → r.Revalued r' → Laid decls r' :=
    fun hlaid hsound h ↦ hlaid.of_extends hsound h.extended h.size
  induction h with
  | empty => exact .empty
  | request h _ ih => exact ih.request h.sound _
  | setClassData h c i value ih => exact hrevalued ih h.sound (.of_setClassData _ c i value)
  | clearClassData h ih => exact hrevalued ih h.sound (.of_clearClassData _)

end Declared

/-! ### Which slot a name reaches -/

/-- A name reaches a slot that nothing overrides, a slot stands behind those of the proper ancestors of its owner, and
what is inherited along several supertypes is there once. -/
theorem slots_in_order {decls : List ClassDecl} {r : Registry} (h : Declared decls r) {c : ClassId}
    (hc : c.index < r.size) :
    (∀ name, r.slotIndex c name = none ↔ ∀ slot ∈ r.layout c, slot.name ≠ name) ∧
    (∀ name i, r.slotIndex c name = some i → ∃ slot, (r.layout c)[i]? = some slot ∧ slot.name = name ∧
      ∀ other ∈ r.layout c, other.name = name → other.owner ≠ slot.owner →
        r.isSubtype other.owner slot.owner = false) ∧
    (∀ (i j : Nat) (slot other : Slot), (r.layout c)[i]? = some slot → (r.layout c)[j]? = some other →
      other.owner ≠ slot.owner → r.isSubtype slot.owner other.owner = true → j < i) ∧
    ∀ (i j : Nat) (slot other : Slot), (r.layout c)[i]? = some slot → (r.layout c)[j]? = some other → slot.owner ≠ c →
      other.owner = slot.owner → other.name = slot.name → i = j := by
  have horder : ∀ (i j : Nat) (slot other : Slot), (r.layout c)[i]? = some slot → (r.layout c)[j]? = some other →
      other.owner ≠ slot.owner → r.isSubtype slot.owner other.owner = true → j < i := by
    intro i j slot other hi hj hne hsub
    have hancestor := (isSubtype_iff.mp hsub).resolve_left (Ne.symm hne)
    exact h.laid.lt_of_ancestor h.sound hc hi hj hne hancestor
  refine ⟨fun name ↦ lastIndexOf_eq_none_iff, fun name i hi ↦ ?_, horder,
    fun i j slot other hi hj ↦ h.laid.eq_of_inherited hc hi hj⟩
  obtain ⟨⟨slot, hat, hname⟩, hlast⟩ := getElem?_of_lastIndexOf hi
  refine ⟨slot, hat, hname, fun other hother hsame hne ↦ Bool.eq_false_iff.mpr fun hsub ↦ ?_⟩
  obtain ⟨j, hj⟩ := List.getElem?_of_mem hother
  exact hlast j other (horder j i other slot hj hat (Ne.symm hne) hsub) hj hsame

/-! ### A diamond with data -/

/-- The classes of a list are registered one after the other. -/
def afterAll (r : Registry) : List ClassDecl → Registry
  | [] => r
  | decl :: rest => ((Request.register decl).after r).afterAll rest

def grantsAll (r : Registry) : List ClassDecl → Bool
  | [] => true
  | decl :: rest => (register decl r).1.isOk && ((Request.register decl).after r).grantsAll rest

theorem Declared.afterAll {decls added : List ClassDecl} {r : Registry} (h : Declared decls r)
    (hgrants : r.grantsAll added = true) : Declared (decls ++ added) (r.afterAll added) := by
  induction added generalizing decls r with
  | nil => rwa [List.append_nil]
  | cons decl rest ih =>
    rw [grantsAll, Bool.and_eq_true] at hgrants
    have hdeclared : (Request.register decl).declared r = [decl] := by
      rw [Request.declared]
      split
      · rfl
      · next hrefused =>
        rw [hrefused] at hgrants
        cases hgrants.1
    have hnext := h.request (q := .register decl) trivial
    rw [hdeclared] at hnext
    rw [List.append_cons]
    exact ih hnext hgrants.2

section diamond

/-- The last class has two marks, of which the left one overrides the shared one, and one size. -/
def markedDiamond : List ClassDecl := [
  { name := "Thing", data := [⟨"mark", "Thing"⟩, ⟨"size", "Thing"⟩] },
  { name := "Left", supertypes := ["Thing"], data := [⟨"mark", "Left"⟩] },
  { name := "Right", supertypes := ["Thing"] },
  { name := "Both", supertypes := ["Left", "Right"] }]

/-- The name reaches the overriding mark, the third slot. -/
theorem slots_in_order_markedDiamond : ∃ r, Declared markedDiamond r ∧
    r.layout ⟨3⟩ = [⟨"mark", ⟨0⟩, ⟨0⟩⟩, ⟨"size", ⟨0⟩, ⟨0⟩⟩, ⟨"mark", ⟨1⟩, ⟨1⟩⟩] ∧ r.slotIndex ⟨3⟩ "mark" = some 2 ∧
    ∃ slot, (r.layout ⟨3⟩)[2]? = some slot ∧ slot.name = "mark" ∧
      ∀ other ∈ r.layout ⟨3⟩, other.name = "mark" → other.owner ≠ slot.owner →
        r.isSubtype other.owner slot.owner = false := by
  have hdeclared : Declared markedDiamond (afterAll {} markedDiamond) := Declared.empty.afterAll (by decide +kernel)
  have hreached : (afterAll {} markedDiamond).slotIndex ⟨3⟩ "mark" = some 2 := by decide +kernel
  have horder := slots_in_order hdeclared (c := ⟨3⟩) (by decide +kernel)
  exact ⟨_, hdeclared, by decide +kernel, hreached, horder.2.1 "mark" 2 hreached⟩

end diamond

end MindScript.Registry
