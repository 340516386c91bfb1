import MindScript.Proofs.Custody.Footing

/-!
# Writing into cells

A value that is bound to a name, stored in a slot or with a class, or put into a list goes from the hand into the
cell, and the value that it replaces comes back.
-/

namespace MindScript

/-! ### Bindings, slots and class data -/

theorem count_lookup_le (bs : List (String × Ref)) (name : String) (l : Link) :
    ((bs.filter fun b ↦ b.1 != name).map fun b ↦ Link.object b.2).count l +
      ((bs.lookup name).toList.map Link.object).count l ≤ (bs.map fun b ↦ Link.object b.2).count l := by
  induction bs with
  | nil => simp
  | cons b rest ih =>
    obtain ⟨key, value⟩ := b
    by_cases hkey : name = key
    · subst hkey
      have hsub : ((rest.filter fun b ↦ b.1 != name).map fun b ↦ Link.object b.2).count l ≤
          (rest.map fun b ↦ Link.object b.2).count l :=
        List.Sublist.count_le _ (List.filter_sublist.map _)
      simp only [List.lookup_cons_self, Option.toList_some, List.map_cons, List.map_nil, count_cons_hits,
        List.count_nil, List.filter_cons, bne_self_eq_false, Bool.false_eq_true, if_false]
      omega
    · have hne : (key != name) = true := by simpa using Ne.symm hkey
      have hlookup : ((key, value) :: rest).lookup name = rest.lookup name := by
        rw [List.lookup_cons, beq_eq_false_iff_ne.mpr hkey]
      rw [hlookup, List.filter_cons, if_pos hne, List.map_cons, List.map_cons, count_cons_hits, count_cons_hits]
      omega

theorem count_set_le (rs : List Ref) (i : Nat) (value : Ref) (l : Link) :
    ((rs.set i value).map Link.object).count l + ((rs[i]?).toList.map Link.object).count l ≤
      Link.hits (.object value) l + (rs.map Link.object).count l := by
  induction rs generalizing i with
  | nil => simp
  | cons r rest ih =>
    cases i with
    | zero =>
      simp only [List.set_cons_zero, List.getElem?_cons_zero, Option.toList_some, List.map_cons, List.map_nil,
        count_cons_hits, List.count_nil]
      omega
    | succ i =>
      have hrest := ih i
      simp only [List.set_cons_succ, List.getElem?_cons_succ, List.map_cons, count_cons_hits]
      omega

namespace Heap

variable {h : Heap} {A B : List Link} {value : Ref}

/-- The binding that is replaced is handed back. -/
theorem Covers.define (hc : h.Covers (.object value :: A)) {s : ScopeId} (hs : h.Alive (.scope s)) (name : String) :
    (h.define s name value).2.Covers ((h.define s name value).1.toList.map .object ++ A) := by
  obtain ⟨o, ho, hcount⟩ := scope?_of_alive hs
  refine hc.change (changes_modifyScope ho _ fun _ ↦ rfl) (by simp [counted, ho]) fun l ↦ ?_
  have hle := count_lookup_le o.bindings name l
  simp only [Heap.define, ho, Option.bind_some, Scope.held, hcount, if_false, Scope.links, List.map_cons, List.cons_append,
    List.count_append, count_cons_hits]
  omega

/-- The value that is replaced in a slot is handed back. -/
theorem Covers.setSlot (hc : h.Covers (.object value :: A)) {r : Ref} (hr : h.Alive (.object r)) (i : Nat) :
    (h.modifyObject r fun o ↦ { o with slots := o.slots.setIfInBounds i value }).Covers
      ((h.object r).slots[i]?.toList.map .object ++ A) := by
  obtain ⟨o, ho, hcount⟩ := object?_of_alive hr
  refine hc.change (changes_modifyObject ho _) (by simp [counted, refCount, ho]) fun l ↦ ?_
  have hle := count_set_le o.slots.toList i value l
  rw [Array.getElem?_toList] at hle
  simp only [Heap.object, ho, Option.getD_some, Object.held, hcount, if_false, Object.links, List.count_append,
    count_cons_hits, Array.toList_setIfInBounds]
  omega

/-- The items of a list change. -/
theorem Covers.setItems (hc : h.Covers A) {r : Ref} (hr : h.Alive (.object r)) {s s' : Sequence}
    (hs : h.payload r = .list s)
    (hle : Within (s'.items.toList.map .object ++ B) (s.items.toList.map .object ++ A)) :
    (h.setPayload r (.list s')).Covers B := by
  obtain ⟨o, ho, hcount⟩ := object?_of_alive hr
  have hpayload : o.payload = .list s := by rw [← hs, Heap.payload, Heap.object, ho, Option.getD_some]
  refine hc.change (changes_modifyObject ho _) (by simp [counted, refCount, ho]) fun l ↦ ?_
  have hl := hle l
  simp only [List.count_append] at hl
  simp only [Object.held, hcount, if_false, Object.links, hpayload, Payload.links, List.count_append]
  omega

end Heap

/-- The nearest scope that binds a name is alive. -/
theorem Heap.Covers.alive_binder {h : Heap} {A : List Link} (hc : h.Covers A) {s b : ScopeId}
    (hs : h.Alive (.scope s)) {name : String} (hb : h.binder s name = some b) : h.Alive (.scope b) := by
  suffices hwithin : ∀ n s, h.Alive (.scope s) → h.binderWithin name n s = some b → h.Alive (.scope b) from
    hwithin _ s hs hb
  intro n
  induction n with
  | zero => exact fun s _ hb ↦ by cases hb
  | succ n ih =>
    intro s hs hb
    obtain ⟨scope, hscope, -⟩ := Heap.scope?_of_alive hs
    unfold Heap.binderWithin at hb
    rw [hscope] at hb
    dsimp only at hb
    split at hb
    · exact Option.some.inj hb ▸ hs
    · obtain ⟨parent, hparent, hb⟩ := Option.bind_eq_some_iff.mp hb
      exact ih parent (hc.alive_of_scope hs hscope (by simp [Scope.links, hparent])) hb

/-- The value that is replaced with a class is handed back. -/
theorem Registry.count_classDataValues_set (r : Registry) (c : ClassId) (i : Nat) (value : Ref) (l : Link) :
    ((r.setClassData c i value).2.classDataValues.map Link.object).count l +
        ((r.classDataValue c i).toList.map Link.object).count l ≤
      Link.hits (.object value) l + (r.classDataValues.map Link.object).count l := by
  have hdata : ∀ (data : List ClassDatum) (i : Nat),
      (((data.modify i fun d ↦ { d with value := some value }).filterMap ClassDatum.value).map Link.object).count l +
          (((data[i]?.bind ClassDatum.value)).toList.map Link.object).count l ≤
        Link.hits (.object value) l + ((data.filterMap ClassDatum.value).map Link.object).count l := by
    intro data
    induction data with
    | nil => simp
    | cons d rest ih =>
      intro i
      cases i with
      | zero =>
        cases hd : d.value with
        | none => simp [hd, count_cons_hits]
        | some previous =>
          simp only [List.modify_zero_cons, List.filterMap_cons, hd, List.map_cons, count_cons_hits,
            List.getElem?_cons_zero, Option.bind_some, Option.toList_some, List.map_nil, List.count_nil]
          omega
      | succ i =>
        have hrest := ih i
        cases hd : d.value <;> simp [hd, count_cons_hits] <;> omega
  have hrecords : ∀ (records : List ClassRecord) (k : Nat),
      ((((records.modify k fun record ↦ { record with classData := record.classData.modify i fun d ↦
          { d with value := some value } }).flatMap fun record ↦ record.classData.filterMap ClassDatum.value)).map
          Link.object).count l +
        ((((records[k]?.map ClassRecord.classData).getD [])[i]?.bind ClassDatum.value).toList.map Link.object).count l ≤
      Link.hits (.object value) l +
        ((records.flatMap fun record ↦ record.classData.filterMap ClassDatum.value).map Link.object).count l := by
    intro records
    induction records with
    | nil => simp
    | cons record rest ih =>
      intro k
      cases k with
      | zero =>
        have hfirst := hdata record.classData i
        simp only [List.modify_zero_cons, List.flatMap_cons, List.map_append, List.count_append, List.getElem?_cons_zero,
          Option.map_some, Option.getD_some]
        omega
      | succ k =>
        have hrest := ih k
        simp only [List.modify_succ_cons, List.flatMap_cons, List.map_append, List.count_append,
          List.getElem?_cons_succ]
        omega
  have h := hrecords r.classes.toList c.index
  have hvalue : r.classDataOf c = (r.classes.toList[c.index]?.map ClassRecord.classData).getD [] := by
    rw [classDataOf, record, Array.getD_eq_getD_getElem?, Array.getElem?_toList]
    cases r.classes[c.index]? <;> rfl
  rw [classDataValue, hvalue]
  simpa only [classDataValues, setClassData, Array.toList_modify] using h

namespace World.Sane

open Machine

variable {σ : Footing} {A B : List Link} {w : World} {value r : Ref}

/-- A name that reaches a datum of a class finds it there. -/
theorem getElem?_of_classDatumOf {name : String} {c : ClassId} {i : Nat} (h : classDatumOf w name = some (c, i)) :
    ∃ d, (w.classes.classDataOf c)[i]? = some d := by
  have hdatum : ∀ b, w.classes.classDatum b name = some (c, i) → ∃ d, (w.classes.classDataOf c)[i]? = some d := by
    intro b hb
    obtain ⟨a, -, ha⟩ := List.exists_of_findSome?_eq_some hb
    obtain ⟨j, hj, heq⟩ := Option.map_eq_some_iff.mp ha
    cases heq
    obtain ⟨hlt, -⟩ := List.findIdx?_eq_some_iff_getElem.mp hj
    exact ⟨_, List.getElem?_eq_getElem hlt⟩
  rcases Option.or_eq_some_iff.mp h with hfirst | ⟨-, hsecond⟩
  · exact hdatum _ hfirst
  · exact hdatum _ hsecond

/-- A name is bound in a live scope. -/
theorem bind (h : Sane σ (.object value :: A) w) {s : ScopeId} (hs : w.heap.Alive (.scope s)) (name : String) :
    Sane σ A { w with heap :=
      (w.heap.define s name value).2.release ((w.heap.define s name value).1.toList.map .object) } := by
  have hbound : Sane σ ((w.heap.define s name value).1.toList.map .object ++ A)
      { w with heap := (w.heap.define s name value).2 } :=
    h.age rfl (.of_objects rfl fun G hG ↦ List.append_assoc _ A G ▸ Heap.Covers.define hG hs name) (.of_objects rfl rfl rfl)
  exact hbound.release

theorem define (h : Sane σ (.object value :: A) w) (name : String) : Sane σ A (define name value w).2 :=
  h.bind h.alive_innermost name

/-- A datum of a class takes a value that fits. -/
theorem setClassData (h : Sane σ (.object value :: A) w) {c : ClassId} {i : Nat} {d : ClassDatum}
    (hd : (w.classes.classDataOf c)[i]? = some d) (hv : w.Fits value d.valueClass) :
    Sane σ ((w.classes.classDataValue c i).toList.map .object ++ A)
      { w with classes := (w.classes.setClassData c i value).2 } where
  books := h.books.of_minds rfl rfl rfl rfl
  this := h.this
  rooted := h.rooted
  classes := by simpa [Registry.setClassData, Registry.size] using h.classes
  minds := h.minds
  covered := h.covered.mono fun l ↦ by
    have hle := w.classes.count_classDataValues_set c i value l
    have hstored : ({ w with classes := (w.classes.setClassData c i value).2 } : World).stored = w.stored := rfl
    simp only [roots, hstored, List.cons_append, count_cons_hits, List.count_append]
    omega
  unmarked := h.unmarked
  typed := h.typed.setClassData hd hv
  queued := h.queued
  members m hm := h.members m (Registry.offers_setClassData hm)

/-- A value that fits its place is stored there. -/
theorem store (h : Sane σ (.object value :: A) w) {name : String} {place : Place} (hplace : placeOf w name = some place)
    (hfits : ∀ c, declaredAt w place = some c → w.Fits value c) : Sane σ A (store name value place w).2 := by
  unfold placeOf at hplace
  cases hbinder : w.heap.binder w.context.env.innermost name with
  | some s =>
    rw [hbinder] at hplace
    cases hplace
    exact h.bind (h.covered.alive_binder h.alive_innermost hbinder) name
  | none =>
    rw [hbinder] at hplace
    dsimp only at hplace
    cases hslot : w.classes.slotIndex (w.heap.classOf w.context.this) name with
    | some i =>
      rw [hslot] at hplace
      cases hplace
      obtain ⟨⟨slot, hi, -⟩, -⟩ := Registry.getElem?_of_lastIndexOf hslot
      have hthis : w.heap.Alive (.object w.context.this) := h.this ▸ h.alive_this
      have hset : Sane σ ((w.heap.object w.context.this).slots[i]?.toList.map .object ++ A) { w with
          heap := w.heap.modifyObject w.context.this fun o ↦ { o with slots := o.slots.setIfInBounds i value } } := by
        refine h.setHeap rfl ?_ (h.typed.setSlot hi (hfits _ ?_)) (h.queued.modifyObject _ ?_)
        · refine .modifyObject _ ?_ fun G hG ↦ List.append_assoc _ A G ▸ Heap.Covers.setSlot hG hthis i
          exact fun _ ↦ rfl
        · simp [declaredAt, hi]
        · exact fun _ ho ↦ ho
      have hlt := h.typed.filled w.context.this name i hslot
      have hold : (w.heap.object w.context.this).slots[i]?.toList =
          [(w.heap.object w.context.this).slots[i]?.getD value] := by
        rw [Array.getElem?_eq_getElem hlt]
        rfl
      rw [hold] at hset
      exact hset.release
    | none =>
      rw [hslot] at hplace
      obtain ⟨⟨c, i⟩, hdatum, rfl⟩ := Option.map_eq_some_iff.mp hplace
      obtain ⟨d, hd⟩ := getElem?_of_classDatumOf hdatum
      exact (h.setClassData hd (hfits _ (by simp [declaredAt, hd]))).release

end World.Sane

end MindScript
