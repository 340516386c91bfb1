import MindScript.Proofs.Alike

/-!
# What names stand for

Reading and assigning look for a name each on its own: reading takes the first value that it meets, assigning the first
place that there is.  Where every slot holds a value, as it does in all worlds that an interpreter comes to, both find
the same place.
-/

namespace MindScript

/-- Every slot of every instance holds a value. -/
def World.Filled (w : World) : Prop :=
  ∀ r name i, w.classes.slotIndex (w.heap.classOf r) name = some i → i < (w.heap.object r).slots.size

namespace Machine

/-- The place of a name: a local, else a data member of the receiver, else class data. -/
def placeOf (w : World) (name : String) : Option Place :=
  match w.heap.binder w.context.env.innermost name with
  | some s => some (.binding s)
  | none =>
    match w.classes.slotIndex (w.heap.classOf w.context.this) name with
    | some i => some (.slot w.context.this i)
    | none => (classDatumOf w name).map fun (c, i) ↦ .classDatum c i

/-- The value stored in a place. -/
def valueAt (w : World) (name : String) : Place → Option Ref
  | .binding s => (w.heap.scope? s).bind fun scope ↦ scope.bindings.lookup name
  | .slot owner i => (w.heap.object owner).slots[i]?
  | .classDatum c i => w.classes.classDataValue c i

/-- The class that values of a place must conform to; locals take anything. -/
def declaredAt (w : World) : Place → Option ClassId
  | .binding _ => none
  | .slot owner i => ((w.classes.layout (w.heap.classOf owner))[i]?).map Slot.valueClass
  | .classDatum c i => ((w.classes.classDataOf c)[i]?).map ClassDatum.valueClass

variable {w : World} {name : String}

theorem placeOf_of_binder {s : ScopeId} (hs : w.heap.binder w.context.env.innermost name = some s) :
    placeOf w name = some (.binding s) := by
  rw [placeOf, hs]

theorem placeOf_of_slotIndex {i : Nat} (hs : w.heap.binder w.context.env.innermost name = none)
    (hi : w.classes.slotIndex (w.heap.classOf w.context.this) name = some i) :
    placeOf w name = some (.slot w.context.this i) := by
  rw [placeOf, hs, hi]

theorem placeOf_of_none (hs : w.heap.binder w.context.env.innermost name = none)
    (hi : w.classes.slotIndex (w.heap.classOf w.context.this) name = none) :
    placeOf w name = (classDatumOf w name).map fun (c, i) ↦ .classDatum c i := by
  rw [placeOf, hs, hi]

/-- What is read is what stands in the place of the name. -/
theorem variableValue_eq (hw : w.Filled) (name : String) :
    variableValue w name = (placeOf w name).bind (valueAt w name) := by
  rw [variableValue, Heap.lookup_eq, memberValue]
  cases hs : w.heap.binder w.context.env.innermost name with
  | some s =>
    obtain ⟨scope, value, hscope, hvalue⟩ := Heap.exists_of_binder hs
    simp [placeOf_of_binder hs, valueAt, hscope, hvalue]
  | none =>
    cases hi : w.classes.slotIndex (w.heap.classOf w.context.this) name with
    | some i =>
      have hlt := hw w.context.this name i hi
      simp [placeOf_of_slotIndex hs hi, valueAt, hlt]
    | none =>
      rw [placeOf_of_none hs hi]
      cases classDatumOf w name with
      | some d => simp [valueAt]
      | none => simp

theorem assignLocal_of_binder {s : ScopeId} (hs : w.heap.binder w.context.env.innermost name = some s) (value : Ref) :
    assignLocal name value w = (.ok true, (store name value (.binding s) w).2) := by
  obtain ⟨hassign, previous, hprevious⟩ := Heap.assign_of_some hs value
  have hstored : (store name value (.binding s) w).2 =
      { w with heap := (w.heap.define s name value).2.release ((w.heap.define s name value).1.toList.map .object) } := rfl
  rw [assignLocal, modifyGet_apply, hassign, hstored]
  rcases hdefined : w.heap.define s name value with ⟨handed, heap⟩
  obtain rfl : handed = some previous := by rw [← hprevious, hdefined]
  rfl

theorem assignLocal_of_none (hs : w.heap.binder w.context.env.innermost name = none) (value : Ref) :
    assignLocal name value w = (.ok false, w) := by
  rw [assignLocal, modifyGet_apply, Heap.assign_of_none hs]

/-- What is assigned is stored in the place of the name, if it conforms to what is declared there. -/
theorem assignVariable_eq (name : String) (value : Ref) : assignVariable name value = (do
    let w ← get
    match placeOf w name with
    | some place => storeData name value (declaredAt w place) place
    | none =>
      release value
      raiseKind (.undefinedVariable name)) := by
  funext w
  rw [get_bind, assignVariable]
  cases hs : w.heap.binder w.context.env.innermost name with
  | some s =>
    rw [bind_of_ok (assignLocal_of_binder hs value), placeOf_of_binder hs]
    rfl
  | none =>
    rw [bind_of_ok (assignLocal_of_none hs value), if_neg Bool.false_ne_true, get_bind]
    cases hi : w.classes.slotIndex (w.heap.classOf w.context.this) name with
    | some i =>
      rw [placeOf_of_slotIndex hs hi]
      dsimp only
      rfl
    | none =>
      rw [placeOf_of_none hs hi]
      dsimp only
      cases classDatumOf w name with
      | some d => rfl
      | none => rfl

/-! ### Counts make no difference -/

@[simp] theorem variableValue_bare (w : World) (name : String) : variableValue w.bare name = variableValue w name := by
  simp [variableValue, memberValue, Object.bare]

@[simp] theorem placeOf_bare (w : World) (name : String) : placeOf w.bare name = placeOf w name := by
  simp [placeOf]

@[simp] theorem declaredAt_bare (w : World) (place : Place) : declaredAt w.bare place = declaredAt w place := by
  cases place <;> simp [declaredAt]

end Machine

end MindScript
