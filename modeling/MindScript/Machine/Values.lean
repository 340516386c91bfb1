import MindScript.Machine.World

/-!
# Values and variables

Making instances, checking their classes, and reading and writing what a name stands for: the nearest
local binding, else a data member of the receiver, else a datum of a class.

Every action here that returns an instance hands the caller a reference of its own.
-/

namespace MindScript.Machine

/-! ### Making instances -/

/-- A new instance with a payload and no slots. -/
def newValue (c : ClassId) (payload : Payload) : Machine Ref :=
  onHeap fun h ↦ h.newObject { classId := c, payload }

/-- The one instance of `None`. -/
def nil : Machine Ref := share .nil

def boolean (value : Bool) : Machine Ref := newValue Core.boolean (.boolean value)

def integer (value : Int64) : Machine Ref := newValue Core.integer (.integer value)

def real (value : Float) : Machine Ref := newValue Core.real (.real value)

def string (value : String) : Machine Ref := newValue Core.string (.text value)

def symbol (name : String) : Machine Ref := newValue Core.symbol (.symbol name)

/-- A count as an Integer, the largest one if it does not fit. -/
def count (n : Nat) : Machine Ref :=
  integer (if n < 9223372036854775808 then Int64.ofNat n else Int64.maxValue)

/-- A class as a value. -/
def classObject (c : ClassId) : Machine Ref := newValue Core.classObject (.classObject c)

/-- A coroutine handle as a value.  The handle stays the caller's. -/
def handleValue (h : Handle) : Machine Ref := do
  retainLink (.outcome h.outcome)
  newValue Core.invokedCoroutine (.coroutine h)

/-- The value that a slot of a class starts with: the zero of a primitive class, else nil. -/
def zeroValue (c : ClassId) : Machine Ref :=
  if c = Core.integer then integer 0
  else if c = Core.real then real 0
  else if c = Core.boolean then boolean false
  else if c = Core.string then string ""
  else nil

/-! ### Classes of values -/

/-- The error for a value of the wrong class. -/
def typeMismatch {α : Type} (expected : String) (value : Ref) : Machine α := do
  raiseKind (.typeMismatch expected ((← get).classNameOf value))

def checkType (value : Ref) (c : ClassId) : Machine Unit := do
  let w ← get
  if w.classes.isSubtype (w.heap.classOf value) c then return ()
  else typeMismatch (w.classes.nameOf c) value

/-- Nil is accepted wherever data is stored; anything else must conform. -/
def checkData (value : Ref) (c : ClassId) : Machine Unit :=
  if value = .nil then return () else checkType value c

def expectBool (value : Ref) : Machine Bool := do
  match (← get).heap.payload value with
  | .boolean b => return b
  | _ => typeMismatch "Boolean" value

def lookupClass (name : String) : Machine ClassId := do
  match (← get).classes.classNamed name with
  | some c => return c
  | none => raiseKind (.unknownClass name)

def checkAll (c : ClassId) : List Ref → Machine Unit
  | [] => return ()
  | item :: rest => do
    checkType item c
    checkAll c rest

/-- A list of items that all conform to a class.  Takes the items over. -/
def list (itemClass : ClassId) (items : List Ref) : Machine Ref := do
  elseRelease (checkAll itemClass items) items
  newValue Core.list (.list { itemClass, items := items.toArray })

/-- A list whose item class is given by name.  Takes the items over. -/
def listNamed (itemClass : String) (items : List Ref) : Machine Ref := do
  let c ← elseRelease (lookupClass itemClass) items
  list c items

/-! ### Scopes of the running frame -/

def pushScope : Machine Unit := modify fun w ↦
  let (env, heap) := w.context.env.push w.heap
  { w with heap, context := { w.context with env } }

def popScope : Machine Unit := modify fun w ↦
  let (env, heap) := w.context.env.pop w.heap
  { w with heap, context := { w.context with env } }

def truncateScopes (depth : Nat) : Machine Unit := modify fun w ↦
  let (env, heap) := w.context.env.truncate w.heap depth
  { w with heap, context := { w.context with env } }

/-- Bind a name in the innermost scope.  Takes the value over. -/
def define (name : String) (value : Ref) : Machine Unit := modify fun w ↦
  let (previous, heap) := w.heap.define w.context.env.innermost name value
  { w with heap := heap.release (previous.toList.map .object) }

/-! ### Variables -/

/-- The datum of a class that a name reaches, from the class of the receiver or else from the class that
declares the running member. -/
def classDatumOf (w : World) (name : String) : Option (ClassId × Nat) :=
  (w.classes.classDatum (w.heap.classOf w.context.this) name).or
    (w.classes.classDatum w.context.thisClass name)

/-- What a data member of the receiver holds. -/
def memberValue (w : World) (name : String) : Option Ref :=
  (w.classes.slotIndex (w.heap.classOf w.context.this) name).bind fun i ↦
    (w.heap.object w.context.this).slots[i]?

/-- What a variable holds: a local, else a data member of the receiver, else class data. -/
def variableValue (w : World) (name : String) : Option Ref :=
  ((w.heap.lookup w.context.env.innermost name).or (memberValue w name)).or
    ((classDatumOf w name).bind fun (c, i) ↦ w.classes.classDataValue c i)

/-- The value of a variable. -/
def lookupVariable (name : String) : Machine Ref := do
  let w ← get
  match variableValue w name with
  | some value => share value
  | none => raiseKind (.undefinedVariable name)

/-- Where a variable keeps its value. -/
inductive Place where
  | binding (scope : ScopeId)
  | slot (owner : Ref) (index : Nat)
  | classDatum (owner : ClassId) (index : Nat)
  deriving DecidableEq, Repr

/-- Store a value in a place and hand back the previous one, or the value itself if there is no such slot. -/
def storeAt (w : World) (name : String) (value : Ref) : Place → Option Ref × World
  | .binding s =>
    let (previous, heap) := w.heap.define s name value
    (previous, { w with heap })
  | .slot owner i =>
    (some ((w.heap.object owner).slots[i]?.getD value),
      { w with heap := w.heap.modifyObject owner fun o ↦
        { o with slots := o.slots.setIfInBounds i value } })
  | .classDatum c i =>
    let (previous, classes) := w.classes.setClassData c i value
    (previous, { w with classes })

/-- Store a value in a place and give the previous one up.  Takes the value over. -/
def store (name : String) (value : Ref) (place : Place) : Machine Unit := modify fun w ↦
  let (previous, w) := storeAt w name value place
  w.release (previous.toList.map .object)

/-- Assign to the nearest local of a name and give the previous value up, if there is such a local.  Takes
the value over just then. -/
def assignLocal (name : String) (value : Ref) : Machine Bool := modifyGet fun w ↦
  match w.heap.assign w.context.env.innermost name value with
  | (some previous, heap) => (true, { w with heap := heap.release [.object previous] })
  | (none, _) => (false, w)

/-- Store a value where data is declared with a class.  A value that does not conform is given up. -/
def storeData (name : String) (value : Ref) (declared : Option ClassId) (place : Place) : Machine Unit := do
  if let some c := declared then
    elseRelease (checkData value c) [value]
  store name value place

/-- Assign to a local, else to a data member of the receiver, else to class data.  Takes the value over. -/
def assignVariable (name : String) (value : Ref) : Machine Unit := do
  unless ← assignLocal name value do
    let w ← get
    let this := w.context.this
    match w.classes.slotIndex (w.heap.classOf this) name with
    | some i =>
      let declared := (w.classes.layout (w.heap.classOf this))[i]?.map Slot.valueClass
      storeData name value declared (.slot this i)
    | none =>
      match classDatumOf w name with
      | some (c, i) =>
        let declared := (w.classes.classDataOf c)[i]?.map ClassDatum.valueClass
        storeData name value declared (.classDatum c i)
      | none =>
        release value
        raiseKind (.undefinedVariable name)

end MindScript.Machine
