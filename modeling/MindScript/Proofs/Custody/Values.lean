import MindScript.Proofs.Custody.Yields

/-!
# Custody of values, variables and arguments

New instances come into the hand, and values that are bound or stored leave it.
-/

namespace MindScript

open Machine

/-! ### Looking at values -/

namespace Machine.Looks

variable {w : World}

theorem checkType (value : Ref) (c : ClassId) :
    Looks (checkType value c) w fun _ ↦ w.classes.isSubtype (w.heap.classOf value) c = true := by
  refine .read ?_
  split
  · next hsub => exact .pure hsub
  · exact .typeMismatch _ _

theorem checkData (value : Ref) (c : ClassId) :
    Looks (checkData value c) w fun _ ↦ value = .nil ∨ w.classes.isSubtype (w.heap.classOf value) c = true := by
  unfold Machine.checkData
  split
  · next hnil => exact .pure (.inl hnil)
  · exact (checkType value c).mono fun _ ↦ .inr

theorem checkAll (c : ClassId) (items : List Ref) :
    Looks (checkAll c items) w fun _ ↦ ∀ r ∈ items, w.classes.isSubtype (w.heap.classOf r) c = true := by
  induction items with
  | nil => exact .pure fun r hr ↦ by cases hr
  | cons item rest ih =>
    refine (checkType item c).bind fun _ hitem ↦ ih.mono fun _ hrest r hr ↦ ?_
    rcases List.mem_cons.mp hr with rfl | hr
    · exact hitem
    · exact hrest r hr

theorem lookupClass (name : String) : Looks (lookupClass name) w fun c ↦ c.index < w.classes.size := by
  refine .read ?_
  split
  · next c hc =>
    refine .pure ?_
    obtain ⟨i, hi, rfl⟩ := Option.map_eq_some_iff.mp hc
    exact (Array.findIdx?_eq_some_iff_getElem.mp hi).1
  · exact .raiseKind _

theorem expectBool (value : Ref) : Looks (expectBool value) w fun _ ↦ True := by
  refine .read ?_
  split
  · exact .pure trivial
  · exact .typeMismatch _ _

theorem checkParam (param : Param) (value : Ref) : Looks (checkParam param value) w fun _ ↦ True := by
  unfold Machine.checkParam
  cases param.className with
  | none => exact .pure trivial
  | some name => exact (lookupClass name).bind fun c _ ↦ (checkType value c).mono fun _ _ ↦ trivial

end Machine.Looks

open World (Sane)

variable {σ : Footing} {G : List Link} {w : World}

/-! ### New instances -/

namespace Machine.Gives

/-- A new value of a core class. -/
theorem newValue {c : ClassId} {payload : Payload} (h : Sane σ (payload.links ++ G) w)
    (hc : c.index ≤ Core.invokedCoroutine.index)
    (hitems : ∀ s, payload = .list s → ∀ value ∈ s.items.toList, w.Conforms value s.itemClass) :
    Yields σ G (newValue c payload) w fun r w' ↦ Sane σ (.object r :: G) w' ∧ w.Grows w' ∧ w'.Conforms r c := by
  have hnew : Sane σ (({ classId := c, payload } : Object).links ++ G) w := by
    simpa [Object.links] using h
  have hgrows := World.Typed.grows_newObject w { classId := c, payload }
  refine .of_ok rfl ⟨hnew.newObject (h.typed.houses_value hc hitems) rfl rfl, hgrows, ?_⟩
  refine ⟨{ classId := c, payload }, Heap.object?_newObject_self _ _, ?_, Registry.isSubtype_self _ _⟩
  exact (h.typed.core c hc).1

/-- A new value that holds no links. -/
theorem plain {c : ClassId} {payload : Payload} (h : Sane σ G w) (hc : c.index ≤ Core.invokedCoroutine.index)
    (hlinks : payload.links = []) (hlist : ∀ s, payload ≠ .list s) :
    Yields σ G (Machine.newValue c payload) w fun r w' ↦ Sane σ (.object r :: G) w' ∧ w.Grows w' ∧ w'.Conforms r c :=
  newValue (by rwa [hlinks]) hc fun s hs ↦ absurd hs (hlist s)

theorem boolean (h : Sane σ G w) (b : Bool) : Gives σ G (boolean b) w fun r ↦ [.object r] :=
  (plain h (by decide) rfl (by simp)).mono fun _ _ hr ↦ hr.1

theorem integer (h : Sane σ G w) (i : Int64) : Gives σ G (integer i) w fun r ↦ [.object r] :=
  (plain h (by decide) rfl (by simp)).mono fun _ _ hr ↦ hr.1

theorem real (h : Sane σ G w) (x : Float) : Gives σ G (real x) w fun r ↦ [.object r] :=
  (plain h (by decide) rfl (by simp)).mono fun _ _ hr ↦ hr.1

theorem string (h : Sane σ G w) (s : String) : Gives σ G (string s) w fun r ↦ [.object r] :=
  (plain h (by decide) rfl (by simp)).mono fun _ _ hr ↦ hr.1

theorem symbol (h : Sane σ G w) (s : String) : Gives σ G (symbol s) w fun r ↦ [.object r] :=
  (plain h (by decide) rfl (by simp)).mono fun _ _ hr ↦ hr.1

theorem classObject (h : Sane σ G w) (c : ClassId) : Gives σ G (classObject c) w fun r ↦ [.object r] :=
  (plain h (by decide) rfl (by simp)).mono fun _ _ hr ↦ hr.1

theorem nil (h : Sane σ G w) : Gives σ G nil w fun r ↦ [.object r] := share h h.alive_nil

/-- A handle as a value takes one more reference to the outcome. -/
theorem handleValue {x : Handle} (h : Sane σ G w) (hx : w.heap.Alive (.outcome x.outcome)) :
    Gives σ G (handleValue x) w fun r ↦ [.object r] :=
  (retainLink h hx).bind fun _ _ h₁ ↦ (newValue h₁ (by decide) (by simp)).mono fun _ _ hr ↦ hr.1

theorem list {c : ClassId} {items : List Ref} (h : Sane σ (items.map .object ++ G) w) :
    Gives σ G (list c items) w fun r ↦ [.object r] := by
  refine Yields.lookElse h (.checkAll c items) fun _ hall ↦ ?_
  refine (newValue (by simpa [Payload.links] using h) (by decide) fun s hs value hvalue ↦ ?_).mono fun _ _ hr ↦ hr.1
  cases hs
  have hmem : value ∈ items := by simpa using hvalue
  exact h.conforms (h.alive (List.mem_append_left _ (List.mem_map.mpr ⟨value, hmem, rfl⟩))) (hall value hmem)

theorem listNamed {className : String} {items : List Ref} (h : Sane σ (items.map .object ++ G) w) :
    Gives σ G (listNamed className items) w fun r ↦ [.object r] :=
  Yields.lookElse h (.lookupClass className) fun _ _ ↦ list h

/-- The first value of a slot fits the slot. -/
theorem zeroValue (h : Sane σ G w) (c : ClassId) :
    Yields σ G (zeroValue c) w fun r w' ↦ Sane σ (.object r :: G) w' ∧ w.Grows w' ∧ w'.Fits r c := by
  have hplain : ∀ {d : ClassId} {payload : Payload}, c = d → d.index ≤ Core.invokedCoroutine.index → payload.links = [] →
      (∀ s, payload ≠ .list s) → Yields σ G (Machine.newValue d payload) w
        fun r w' ↦ Sane σ (.object r :: G) w' ∧ w.Grows w' ∧ w'.Fits r c := by
    rintro d payload rfl hc hlinks hlist
    exact (plain h hc hlinks hlist).mono fun _ _ hr ↦ ⟨hr.1, hr.2.1, .inr hr.2.2⟩
  unfold Machine.zeroValue
  split
  · next hc => exact hplain hc (by decide) rfl (by simp)
  split
  · next hc => exact hplain hc (by decide) rfl (by simp)
  split
  · next hc => exact hplain hc (by decide) rfl (by simp)
  split
  · next hc => exact hplain hc (by decide) rfl (by simp)
  · exact .of_ok rfl ⟨h.retain h.alive_nil, World.Typed.grows_of_stock (Heap.Ages.retain _).stock rfl, .inl rfl⟩

theorem zeroValues (h : Sane σ G w) (slots : List Slot) :
    Yields σ G (zeroValues slots) w fun rs w' ↦ Sane σ (rs.map .object ++ G) w' ∧ w.Grows w' ∧
      List.Forall₂ (fun value (slot : Slot) ↦ w'.Fits value slot.valueClass) rs slots := by
  induction slots generalizing G w with
  | nil => exact .pure ⟨h, .refl w, .nil⟩
  | cons slot rest ih =>
    refine (zeroValue h slot.valueClass).bind fun value w₁ ⟨h₁, hgrows, hfits⟩ ↦ ?_
    refine (ih h₁).bind fun values w₂ ⟨h₂, hgrows', hrest⟩ ↦ .pure ⟨h₂.mono (by grind), hgrows.trans hgrows', ?_⟩
    exact .cons (hgrows'.fits hfits) hrest

/-- A new instance has the slots of its class, with values that fit.  It is none that is under construction already. -/
theorem newInstance (h : Sane σ G w) {c : ClassId} (hc : σ.Knows c) :
    Yields σ G (newInstance c) w fun r w' ↦ Sane σ (.object r :: G) w' ∧ r ∉ σ.building ∧ ¬ w'.heap.Destructed r := by
  refine .read ((zeroValues h (w.classes.layout c)).bind fun slots w₁ ⟨h₁, hgrows, hslots⟩ ↦ .read (.of_ok rfl ?_))
  have hlt : c.index < w.classes.size := h.classes.symm ▸ hc
  let object : Object :=
    { classId := c, payload := .plain, slots := slots.toArray, armed := w₁.classes.hasDestructor c }
  have hlinks : Sane σ (object.links ++ G) w₁ := by
    simpa [object, Object.links, Payload.links] using h₁
  have hhouses : w₁.Houses object := by
    refine ⟨Nat.lt_of_lt_of_le hlt hgrows.size, ?_, fun s hs ↦ by cases hs⟩
    rw [hgrows.layout c hlt]
    exact hslots
  refine ⟨hlinks.newObject hhouses rfl rfl, fun hbuilding ↦ ?_, ?_⟩
  · exact Nat.lt_irrefl _ (Heap.index_of_alive (h₁.alive_building hbuilding))
  · rintro ⟨o, ho, hd⟩
    obtain rfl := Option.some.inj ((Heap.object?_newObject_self w₁.heap object).symm.trans ho)
    cases hd

end Machine.Gives

/-! ### Variables -/

namespace World.Sane

/-- What a name stands for is alive. -/
theorem alive_value (h : Sane σ G w) {name : String} {place : Place} (hplace : placeOf w name = some place) {r : Ref}
    (hr : valueAt w name place = some r) : w.heap.Alive (.object r) := by
  cases place with
  | binding s =>
    have hbinder : w.heap.binder w.context.env.innermost name = some s := by
      unfold placeOf at hplace
      split at hplace
      · next s' hs' =>
        cases hplace
        exact hs'
      · split at hplace
        · cases hplace
        · obtain ⟨_, -, heq⟩ := Option.map_eq_some_iff.mp hplace
          cases heq
    obtain ⟨scope, hscope, hlookup⟩ := Option.bind_eq_some_iff.mp hr
    refine h.covered.alive_of_scope (h.covered.alive_binder h.alive_innermost hbinder) hscope ?_
    refine List.mem_append_left _ (List.mem_map.mpr ⟨(name, r), ?_, rfl⟩)
    obtain ⟨before, after, heq, -⟩ := List.lookup_eq_some_iff.mp hlookup
    simp [heq]
  | slot owner i =>
    have howner : owner = w.context.this := by
      unfold placeOf at hplace
      split at hplace
      · cases hplace
      · split at hplace
        · cases hplace
          rfl
        · obtain ⟨_, -, heq⟩ := Option.map_eq_some_iff.mp hplace
          cases heq
    exact h.alive_slot (howner ▸ h.this ▸ h.alive_this) hr
  | classDatum c i => exact h.alive_classDatum hr

end World.Sane

namespace Machine.Gives

theorem lookupVariable (h : Sane σ G w) (name : String) :
    Gives σ G (lookupVariable name) w fun r ↦ [.object r] := by
  refine .read ?_
  split
  · next value hvalue =>
    rw [variableValue_eq h.typed.filled] at hvalue
    obtain ⟨place, hplace, hr⟩ := Option.bind_eq_some_iff.mp hvalue
    exact share h (h.alive_value hplace hr)
  · exact .raiseKind h _

theorem define {value : Ref} (h : Sane σ (.object value :: G) w) (name : String) :
    Gives σ G (define name value) w fun _ ↦ [] :=
  .modify (h.define name)

/-- A value is stored only where it fits. -/
theorem storeData {value : Ref} {name : String} {place : Place} (h : Sane σ (.object value :: G) w)
    (hplace : placeOf w name = some place) :
    Gives σ G (storeData name value (declaredAt w place) place) w fun _ ↦ [] := by
  unfold Machine.storeData
  cases hdeclared : declaredAt w place with
  | none => exact .modify (h.store hplace fun c hc ↦ by rw [hdeclared] at hc; cases hc)
  | some c =>
    refine Yields.lookElse (L := [value]) h (.checkData value c) fun _ hcheck ↦ .modify (h.store hplace fun d hd ↦ ?_)
    obtain rfl := Option.some.inj (hdeclared.symm.trans hd)
    exact hcheck.imp_right (h.conforms (h.alive List.mem_cons_self))

theorem assignVariable {value : Ref} (h : Sane σ (.object value :: G) w) (name : String) :
    Gives σ G (assignVariable name value) w fun _ ↦ [] := by
  rw [assignVariable_eq]
  refine .read ?_
  cases hplace : placeOf w name with
  | some place => exact storeData h hplace
  | none => exact (release h).bind fun _ _ h₁ ↦ .raiseKind h₁ _

end Machine.Gives

end MindScript
