import Mathlib.Data.List.Forall2
import MindScript.Proofs.Custody.Ages
import MindScript.Proofs.Places

/-!
# Typed worlds

What is stored conforms to what is declared: the slots of every instance to the layout of its class, the items of
every list to the class of its items, and class data to the classes that they are declared with.  An interpreter
only ever adds to what is declared, so what conforms once conforms from then on.  It does not matter whether an
instance is still referred to.
-/

namespace MindScript.World

/-- The value is an instance of the class or of one derived from it. -/
def Conforms (w : World) (value : Ref) (c : ClassId) : Prop :=
  ∃ o, w.heap.object? value = some o ∧ o.classId.index < w.classes.size ∧ w.classes.isSubtype o.classId c = true

/-- The value may be stored where the class is declared. -/
def Fits (w : World) (value : Ref) (c : ClassId) : Prop := value = .nil ∨ w.Conforms value c

/-- An instance whose slots and items conform. -/
structure Houses (w : World) (o : Object) : Prop where
  classId : o.classId.index < w.classes.size
  slots : List.Forall₂ (fun value (slot : Slot) ↦ w.Fits value slot.valueClass) o.slots.toList
    (w.classes.layout o.classId)
  items : ∀ s, o.payload = .list s → ∀ value ∈ s.items.toList, w.Conforms value s.itemClass

structure Typed (w : World) : Prop where
  instances : ∀ r o, w.heap.object? r = some o → w.Houses o
  classData : ∀ c d value, d ∈ w.classes.classDataOf c → d.value = some value → w.Fits value d.valueClass
  /-- Values of the core classes have no slots. -/
  core : ∀ c : ClassId, c.index ≤ Core.invokedCoroutine.index →
    c.index < w.classes.size ∧ w.classes.layout c = []

/-- Instances stay of their classes, and what a class declares and derives from stays as it is. -/
structure Grows (w w' : World) : Prop where
  objects : ∀ r o, w.heap.object? r = some o → ∃ o', w'.heap.object? r = some o' ∧ o'.classId = o.classId
  size : w.classes.size ≤ w'.classes.size
  layout : ∀ c : ClassId, c.index < w.classes.size → w'.classes.layout c = w.classes.layout c
  ancestors : ∀ c : ClassId, c.index < w.classes.size → w'.classes.ancestors c = w.classes.ancestors c

variable {w w' w'' : World} {value : Ref} {c : ClassId}

namespace Grows

theorem refl (w : World) : Grows w w := ⟨fun _ o ho ↦ ⟨o, ho, rfl⟩, Nat.le_refl _, fun _ _ ↦ rfl, fun _ _ ↦ rfl⟩

theorem trans (h : Grows w w') (h' : Grows w' w'') : Grows w w'' where
  objects r o ho := by
    obtain ⟨o', ho', hc⟩ := h.objects r o ho
    obtain ⟨o'', ho'', hc'⟩ := h'.objects r o' ho'
    exact ⟨o'', ho'', hc'.trans hc⟩
  size := Nat.le_trans h.size h'.size
  layout c hc := (h'.layout c (Nat.lt_of_lt_of_le hc h.size)).trans (h.layout c hc)
  ancestors c hc := (h'.ancestors c (Nat.lt_of_lt_of_le hc h.size)).trans (h.ancestors c hc)

theorem of_classes (hclasses : w'.classes.classes = w.classes.classes)
    (hobjects : ∀ r o, w.heap.object? r = some o → ∃ o', w'.heap.object? r = some o' ∧ o'.classId = o.classId) :
    Grows w w' := by
  refine ⟨hobjects, Nat.le_of_eq ?_, fun c _ ↦ ?_, fun c _ ↦ ?_⟩
  · rw [Registry.size, Registry.size, hclasses]
  · rw [Registry.layout, Registry.record_congr hclasses, Registry.layout]
  · rw [Registry.ancestors, Registry.record_congr hclasses, Registry.ancestors]

theorem conforms (h : Grows w w') (hv : w.Conforms value c) : w'.Conforms value c := by
  obtain ⟨o, ho, hsize, hsub⟩ := hv
  obtain ⟨o', ho', heq⟩ := h.objects value o ho
  refine ⟨o', ho', heq ▸ Nat.lt_of_lt_of_le hsize h.size, ?_⟩
  rw [heq]
  rw [Registry.isSubtype_iff] at hsub ⊢
  rwa [h.ancestors _ hsize]

theorem fits (h : Grows w w') (hv : w.Fits value c) : w'.Fits value c := hv.imp_right h.conforms

theorem houses (h : Grows w w') {o : Object} (ho : w.Houses o) : w'.Houses o where
  classId := Nat.lt_of_lt_of_le ho.classId h.size
  slots := by
    rw [h.layout _ ho.classId]
    exact ho.slots.imp fun _ _ ↦ h.fits
  items s hs value hvalue := h.conforms (ho.items s hs value hvalue)

end Grows

/-- Instances have a value for each slot of their classes, and nothing else has slots. -/
theorem Typed.filled (h : w.Typed) : w.Filled := by
  intro r name i hi
  obtain ⟨⟨slot, hslot, -⟩, -⟩ := Registry.getElem?_of_lastIndexOf hi
  obtain ⟨hlt, -⟩ := List.getElem?_eq_some_iff.mp hslot
  cases ho : w.heap.object? r with
  | none =>
    have hroot : w.heap.classOf r = Core.object := by rw [Heap.classOf, Heap.object, ho]; rfl
    rw [hroot, (h.core Core.object (Nat.zero_le _)).2] at hlt
    cases hlt
  | some o =>
    have hlength := (h.instances r o ho).slots.length_eq
    rw [Heap.classOf, Heap.object, ho, Option.getD_some] at hlt
    simpa [Heap.object, ho, ← hlength] using hlt

/-- Counts and marks do not matter. -/
theorem Houses.of_stock {o o' : Object} (h : w.Houses o) (heq : o'.stock = o.stock) : w.Houses o' := by
  have hclass : o'.classId = o.classId := (congrArg Object.classId heq :)
  have hpayload : o'.payload = o.payload := (congrArg Object.payload heq :)
  have hslots : o'.slots = o.slots := (congrArg Object.slots heq :)
  exact ⟨hclass ▸ h.classId, by rw [hslots, hclass]; exact h.slots, by rw [hpayload]; exact h.items⟩

namespace Typed

/-- A world stays typed as it grows, if whatever is new in it is typed. -/
theorem grow (h : w.Typed) (hg : Grows w w')
    (hobjects : ∀ r o', w'.heap.object? r = some o' →
      (∃ o, w.heap.object? r = some o ∧ o'.stock = o.stock) ∨ w'.Houses o')
    (hdata : ∀ c d value, d ∈ w'.classes.classDataOf c → d.value = some value →
      d ∈ w.classes.classDataOf c ∨ w'.Fits value d.valueClass) : w'.Typed where
  instances r o' ho' := by
    rcases hobjects r o' ho' with ⟨o, ho, heq⟩ | hnew
    · exact (hg.houses (h.instances r o ho)).of_stock heq
    · exact hnew
  classData c d value hd hvalue :=
    (hdata c d value hd hvalue).elim (fun hd ↦ hg.fits (h.classData c d value hd hvalue)) id
  core c hc := by
    obtain ⟨hlt, hlayout⟩ := h.core c hc
    exact ⟨Nat.lt_of_lt_of_le hlt hg.size, (hg.layout c hlt).trans hlayout⟩

theorem object_of_stock {h h' : Heap} (hstock : h'.objects.map Object.stock = h.objects.map Object.stock) {r : Ref}
    {o' : Object} (ho' : h'.object? r = some o') : ∃ o, h.object? r = some o ∧ o'.stock = o.stock := by
  have hr := congrArg (fun xs : Array Object ↦ xs[r.index]?) hstock
  simp only [Array.getElem?_map] at hr
  rw [show h'.objects[r.index]? = some o' from ho', Option.map_some, eq_comm, Option.map_eq_some_iff] at hr
  obtain ⟨o, ho, heq⟩ := hr
  exact ⟨o, ho, heq.symm⟩

theorem grows_of_stock (hstock : w'.heap.objects.map Object.stock = w.heap.objects.map Object.stock)
    (hclasses : w'.classes.classes = w.classes.classes) : Grows w w' := by
  refine .of_classes hclasses fun r o ho ↦ ?_
  obtain ⟨o', ho', heq⟩ := object_of_stock hstock.symm ho
  exact ⟨o', ho', (congrArg Object.classId heq).symm⟩

/-- What the scheduler does to instances leaves a world typed. -/
theorem of_stock (h : w.Typed) (hstock : w'.heap.objects.map Object.stock = w.heap.objects.map Object.stock)
    (hclasses : w'.classes.classes = w.classes.classes) : w'.Typed := by
  refine h.grow (grows_of_stock hstock hclasses) (fun r o' ho' ↦ .inl (object_of_stock hstock ho')) ?_
  intro c d value hd _
  rw [Registry.classDataOf, Registry.record_congr hclasses] at hd
  exact .inl hd

/-! ### New instances -/

theorem grows_newObject (w : World) (o : Object) : Grows w { w with heap := (w.heap.newObject o).2 } := by
  refine .of_classes rfl fun r o' ho' ↦ ⟨o', ?_, rfl⟩
  refine (Heap.object?_newObject_of_ne fun heq ↦ ?_).trans ho'
  have hlt := (Array.getElem?_eq_some_iff.mp ho').1
  rw [heq] at hlt
  exact Nat.lt_irrefl _ hlt

theorem newObject (h : w.Typed) {o : Object} (ho : w.Houses o) :
    Typed { w with heap := (w.heap.newObject o).2 } := by
  have hgrows := grows_newObject w o
  refine h.grow hgrows (fun r o' ho' ↦ ?_) fun c d value hd _ ↦ .inl hd
  by_cases hr : r = (w.heap.newObject o).1
  · rw [hr] at ho'
    obtain rfl := Option.some.inj ((Heap.object?_newObject_self w.heap o).symm.trans ho')
    exact .inr (hgrows.houses ho)
  · exact .inl ⟨o', (Heap.object?_newObject_of_ne hr).symm.trans ho', rfl⟩

/-- An instance of a core class without slots. -/
theorem houses_value (h : w.Typed) (hc : c.index ≤ Core.invokedCoroutine.index) {payload : Payload}
    (hitems : ∀ s, payload = .list s → ∀ value ∈ s.items.toList, w.Conforms value s.itemClass) :
    w.Houses { classId := c, payload } := by
  obtain ⟨hlt, hlayout⟩ := h.core c hc
  exact ⟨hlt, by rw [hlayout]; exact .nil, hitems⟩

/-! ### Changes to an instance -/

theorem grows_modifyObject (w : World) (r : Ref) {f : Object → Object} (hf : ∀ o, (f o).classId = o.classId) :
    Grows w { w with heap := w.heap.modifyObject r f } := by
  refine .of_classes rfl fun s o ho ↦ ?_
  simp only [Heap.object?_modifyObject]
  split
  · exact ⟨f o, by rw [ho, Option.map_some], hf o⟩
  · exact ⟨o, ho, rfl⟩

theorem modifyObject (h : w.Typed) {r : Ref} {f : Object → Object} (hf : ∀ o, (f o).classId = o.classId)
    (hhouses : ∀ o, w.heap.object? r = some o → w.Houses (f o)) :
    Typed { w with heap := w.heap.modifyObject r f } := by
  have hgrows := grows_modifyObject w r hf
  refine h.grow hgrows (fun s o' ho' ↦ ?_) fun c d value hd _ ↦ .inl hd
  simp only [Heap.object?_modifyObject] at ho'
  split at ho'
  · next heq =>
    subst heq
    obtain ⟨o, ho, rfl⟩ := Option.map_eq_some_iff.mp ho'
    exact .inr (hgrows.houses (hhouses o ho))
  · exact .inl ⟨o', ho', rfl⟩

/-- A slot takes a value that fits its declared class. -/
theorem setSlot (h : w.Typed) {r : Ref} {i : Nat} {slot : Slot}
    (hslot : (w.classes.layout (w.heap.classOf r))[i]? = some slot) (hv : w.Fits value slot.valueClass) :
    Typed { w with heap := w.heap.modifyObject r fun o ↦ { o with slots := o.slots.setIfInBounds i value } } := by
  refine h.modifyObject ?_ fun o ho ↦ ?_
  · exact fun _ ↦ rfl
  · have hhouses := h.instances r o ho
    refine ⟨hhouses.classId, ?_, hhouses.items⟩
    have hclass : w.heap.classOf r = o.classId := by rw [Heap.classOf, Heap.object, ho, Option.getD_some]
    rw [hclass] at hslot
    have hforall := List.forall₂_iff_get.mp hhouses.slots
    refine List.forall₂_iff_get.mpr ⟨by simpa using hforall.1, fun j hj hj' ↦ ?_⟩
    have hold := hforall.2 j (by simpa using hj) hj'
    simp only [Array.toList_setIfInBounds, List.get_eq_getElem, List.getElem_set] at hold ⊢
    split
    · next heq =>
      subst heq
      rw [List.getElem?_eq_getElem hj', Option.some.injEq] at hslot
      rw [hslot]
      exact hv
    · exact hold

/-- A list takes items that conform to the class of its items. -/
theorem setItems (h : w.Typed) {r : Ref} {s : Sequence}
    (hs : ∀ value ∈ s.items.toList, w.Conforms value s.itemClass) :
    Typed { w with heap := w.heap.setPayload r (.list s) } := by
  refine h.modifyObject ?_ fun o ho ↦ ?_
  · exact fun _ ↦ rfl
  · have hhouses := h.instances r o ho
    refine ⟨hhouses.classId, hhouses.slots, fun s' hs' ↦ ?_⟩
    cases hs'
    exact hs

/-! ### Class data -/

theorem setClassData (h : w.Typed) {i : Nat} {d : ClassDatum} (hd : (w.classes.classDataOf c)[i]? = some d)
    (hv : w.Fits value d.valueClass) : Typed { w with classes := (w.classes.setClassData c i value).2 } := by
  have hrecord : ∀ b, ∃ classData, (w.classes.setClassData c i value).2.record b =
      { w.classes.record b with classData } ∧ ∀ x ∈ classData, x ∈ w.classes.classDataOf b ∨
        b = c ∧ x = { d with value := some value } := by
    intro b
    simp only [Registry.setClassData, Registry.record, Registry.classDataOf, Array.getD_eq_getD_getElem?,
      Array.getElem?_modify] at hd ⊢
    split
    · next heq =>
      cases hb : w.classes.classes[b.index]? with
      | none => exact ⟨_, rfl, fun x hx ↦ .inl hx⟩
      | some record =>
        refine ⟨record.classData.modify i fun d ↦ { d with value := some value }, rfl, fun x hx ↦ ?_⟩
        obtain ⟨j, hj⟩ := List.mem_iff_getElem?.mp hx
        rw [List.getElem?_modify] at hj
        split at hj
        · next hij =>
          subst hij
          have hbc : b = c := by
            cases b
            cases c
            simp_all
          subst hbc
          rw [hb, Option.getD_some] at hd
          rw [hd] at hj
          exact .inr ⟨rfl, (Option.some.inj hj).symm⟩
        · exact .inl (List.mem_of_getElem? (by simpa using hj))
    · exact ⟨_, rfl, fun x hx ↦ .inl hx⟩
  have hgrows : Grows w { w with classes := (w.classes.setClassData c i value).2 } := by
    refine ⟨fun r o ho ↦ ⟨o, ho, rfl⟩, by simp [Registry.setClassData, Registry.size], fun b _ ↦ ?_, fun b _ ↦ ?_⟩
    · obtain ⟨classData, heq, -⟩ := hrecord b
      rw [Registry.layout, heq, Registry.layout]
    · obtain ⟨classData, heq, -⟩ := hrecord b
      rw [Registry.ancestors, heq, Registry.ancestors]
  refine h.grow hgrows (fun r o ho ↦ .inl ⟨o, ho, rfl⟩) fun b x v hx hxv ↦ ?_
  obtain ⟨classData, heq, hmem⟩ := hrecord b
  rw [Registry.classDataOf, heq] at hx
  rcases hmem x hx with hx | ⟨-, rfl⟩
  · exact .inl hx
  · obtain rfl := Option.some.inj hxv
    exact .inr (hgrows.fits hv)

end Typed

end MindScript.World
