import MindScript.Class.Member
import Std.Data.HashMap

/-!
# The class registry

Classes form a directed acyclic graph: each has an ordered list of direct supertypes, all registered
before it.  On registration a class gets its ancestor order and its slot layout.

The ancestor order is the class itself followed by the ancestor orders of its supertypes in declaration
order, where a class that occurs several times keeps only its last position; so every class comes before
the classes it derives from.  Dispatch searches the member tables along that order and remembers the
answer.
-/

namespace MindScript

/-- A declared datum: its name and the name of the class that its values conform to. -/
structure DataDecl where
  name : String
  className : String
  deriving DecidableEq, Repr, Inhabited

/-- Everything needed to register a class.  Without supertypes a class derives from the root. -/
structure ClassDecl where
  name : String
  supertypes : List String := []
  data : List DataDecl := []
  classData : List DataDecl := []
  members : List MemberDecl := []
  deriving Inhabited

/-- One datum of the instances of a class. -/
structure Slot where
  name : String
  /-- The class that values in the slot conform to. -/
  valueClass : ClassId
  /-- The class that declares the slot. -/
  owner : ClassId
  deriving DecidableEq, Repr, Inhabited

/-- A datum of a class itself. -/
structure ClassDatum where
  name : String
  valueClass : ClassId
  value : Option Ref
  deriving DecidableEq, Repr, Inhabited

structure ClassRecord where
  name : String
  supertypes : List ClassId
  /-- Direct subclasses in order of registration. -/
  subclasses : List ClassId
  /-- The class itself and all its ancestors, in the order in which members are searched. -/
  ancestors : List ClassId
  layout : List Slot
  members : List Member
  classData : List ClassDatum
  hasDestructor : Bool
  deriving Inhabited

/-- Name of the member that is run on a new instance. -/
def constructorName : String := "!"

/-- Name of the member that is run before an instance is freed. -/
def destructorName : String := "!!"

structure Registry where
  classes : Array ClassRecord := #[]
  /-- Answers of earlier searches. -/
  cache : Std.HashMap (ClassId × String) (Option Member) := {}
  deriving Inhabited

namespace Registry

def size (r : Registry) : Nat := r.classes.size

def isEmpty (r : Registry) : Bool := r.classes.isEmpty

def record (r : Registry) (c : ClassId) : ClassRecord := r.classes.getD c.index default

theorem record_congr {r r' : Registry} (h : r'.classes = r.classes) : r'.record = r.record := by
  funext c
  rw [record, record, h]

def nameOf (r : Registry) (c : ClassId) : String := (r.record c).name

def classNamed (r : Registry) (name : String) : Option ClassId :=
  (r.classes.findIdx? fun record ↦ record.name == name).map ClassId.mk

def supertypes (r : Registry) (c : ClassId) : List ClassId := (r.record c).supertypes

def subclasses (r : Registry) (c : ClassId) : List ClassId := (r.record c).subclasses

def ancestors (r : Registry) (c : ClassId) : List ClassId := (r.record c).ancestors

def layout (r : Registry) (c : ClassId) : List Slot := (r.record c).layout

def ownMembers (r : Registry) (c : ClassId) : List Member := (r.record c).members

def hasDestructor (r : Registry) (c : ClassId) : Bool := (r.record c).hasDestructor

/-- The first class to be registered is the root: it is the supertype of every class that names none. -/
def root (r : Registry) : Option ClassId := if r.classes.isEmpty then none else some ⟨0⟩

/-- Every class is a subtype of itself and of its ancestors. -/
def isSubtype (r : Registry) (c ancestor : ClassId) : Bool :=
  c == ancestor || (r.ancestors c).contains ancestor

@[simp] theorem isSubtype_self (r : Registry) (c : ClassId) : r.isSubtype c c = true := by
  simp [isSubtype]

theorem isSubtype_iff {r : Registry} {c a : ClassId} :
    r.isSubtype c a = true ↔ c = a ∨ a ∈ r.ancestors c := by
  simp [isSubtype]

/-- Position of the last slot of that name: a later, more derived slot shadows an earlier one. -/
def lastIndexOf (name : String) : List Slot → Option Nat
  | [] => none
  | slot :: rest =>
    match lastIndexOf name rest with
    | some i => some (i + 1)
    | none => if slot.name == name then some 0 else none

theorem lastIndexOf_eq_none_iff {name : String} {layout : List Slot} :
    lastIndexOf name layout = none ↔ ∀ slot ∈ layout, slot.name ≠ name := by
  induction layout with
  | nil => simp [lastIndexOf]
  | cons slot rest ih =>
    cases h : lastIndexOf name rest with
    | none => simpa [lastIndexOf, h] using fun _ ↦ ih.mp h
    | some i =>
      have hrest : ¬ ∀ slot ∈ rest, slot.name ≠ name := fun hall ↦ by simp [ih.mpr hall] at h
      simpa [lastIndexOf, h] using fun _ ↦ by simpa using hrest

/-- The position found holds a slot of the name, and no later position does. -/
theorem getElem?_of_lastIndexOf {name : String} {layout : List Slot} {i : Nat}
    (h : lastIndexOf name layout = some i) :
    (∃ slot, layout[i]? = some slot ∧ slot.name = name) ∧
      ∀ j slot, i < j → layout[j]? = some slot → slot.name ≠ name := by
  induction layout generalizing i with
  | nil => simp [lastIndexOf] at h
  | cons first rest ih =>
    cases hrest : lastIndexOf name rest with
    | some k =>
      obtain rfl : k + 1 = i := by simpa [lastIndexOf, hrest] using h
      obtain ⟨hat, hlater⟩ := ih hrest
      refine ⟨by simpa using hat, fun j slot hj hslot ↦ ?_⟩
      obtain ⟨j, rfl⟩ := Nat.exists_eq_succ_of_ne_zero (Nat.ne_zero_of_lt hj)
      exact hlater j slot (Nat.lt_of_succ_lt_succ hj) (by simpa using hslot)
    | none =>
      have hfirst : first.name = name ∧ 0 = i := by simpa [lastIndexOf, hrest] using h
      obtain ⟨hname, rfl⟩ := hfirst
      refine ⟨⟨first, rfl, hname⟩, fun j slot hj hslot ↦ ?_⟩
      obtain ⟨j, rfl⟩ := Nat.exists_eq_succ_of_ne_zero (Nat.ne_zero_of_lt hj)
      exact lastIndexOf_eq_none_iff.mp hrest slot (List.mem_of_getElem? (by simpa using hslot))

def slotIndex (r : Registry) (c : ClassId) (name : String) : Option Nat :=
  lastIndexOf name (r.layout c)

/-- Search the member tables along the ancestor order. -/
def search (r : Registry) (c : ClassId) (name : String) : Option Member :=
  (r.ancestors c).findSome? fun a ↦ Member.lookup (r.ownMembers a) name

/-- Search with memory: a remembered answer is given back, a new one is remembered. -/
def find (r : Registry) (c : ClassId) (name : String) : Option Member × Registry :=
  match r.cache[(c, name)]? with
  | some answer => (answer, r)
  | none =>
    let answer := r.search c name
    (answer, { r with cache := r.cache.insert (c, name) answer })

/-- Computations that read and extend the registry. -/
abbrev Action := ExceptT EvalError (StateM Registry)

def findMember (c : ClassId) (name : String) : Action (Option Member) :=
  fun r ↦ let (answer, r) := r.find c name; (.ok answer, r)

/-- The wording of a failed search. -/
def notFound (r : Registry) (c : ClassId) (name : String) : EvalError :=
  .ofKind (.memberNotFound name (r.nameOf c))

/-- Dispatch a member name on an instance of a class.  A qualifier names an ancestor at which the search
starts, and so reaches definitions that the class overrides. -/
def resolve (c : ClassId) (name : String) (qualifier : Option ClassId) : Action Member := do
  let r ← get
  let start ← match qualifier with
    | none => pure c
    | some q =>
      if r.isSubtype c q then pure q
      else throw ((r.notFound c name).withNote
        ("`" ++ r.nameOf q ++ "` is not an ancestor of `" ++ r.nameOf c ++ "`"))
  match ← findMember start name with
  | some m => pure m
  | none => throw (r.notFound c name)

/-- Keep the last occurrence of every class. -/
def keepLast : List ClassId → List ClassId
  | [] => []
  | c :: rest => if rest.contains c then keepLast rest else c :: keepLast rest

@[simp] theorem mem_keepLast {c : ClassId} {cs : List ClassId} : c ∈ keepLast cs ↔ c ∈ cs := by
  induction cs with
  | nil => simp [keepLast]
  | cons d cs ih =>
    by_cases hd : d ∈ cs
    · have : c = d → c ∈ cs := fun e ↦ e ▸ hd
      simpa [keepLast, hd, ih] using this
    · simp [keepLast, hd, ih]

/-- Ancestor order of a new class with the given direct supertypes. -/
def linearize (r : Registry) (c : ClassId) (supertypes : List ClassId) : List ClassId :=
  keepLast (c :: supertypes.flatMap r.ancestors)

theorem mem_linearize {r : Registry} {c a : ClassId} {supertypes : List ClassId} :
    a ∈ r.linearize c supertypes ↔ a = c ∨ ∃ s ∈ supertypes, a ∈ r.ancestors s := by
  simp [linearize]

/-- Append the inherited slots that are not there yet; a slot is known by its owner and name. -/
def inheritSlots (layout : List Slot) (inherited : List Slot) : List Slot :=
  inherited.foldl (fun acc slot ↦
    if acc.any fun s ↦ s.owner == slot.owner && s.name == slot.name then acc else acc ++ [slot])
    layout

/-- Layout of a new class: what it inherits, supertype by supertype, and then its own slots. -/
def mergeLayout (r : Registry) (supertypes : List ClassId) (own : List Slot) : List Slot :=
  supertypes.foldl (fun acc s ↦ inheritSlots acc (r.layout s)) [] ++ own

/-- Constructors and destructors run to completion. -/
def checkLifecycle (member : MemberDecl) (className : String) : Except EvalError Unit :=
  if (member.name == constructorName || member.name == destructorName)
      && member.kind == .coroutine then
    .error (.ofKind (.suspendingLifecycle className member.name))
  else
    .ok ()

/-- A member keeps the kind of what it overrides. -/
def checkOverride (supertypes : List ClassId) (member : MemberDecl) (className : String) :
    Action Unit := do
  match supertypes with
  | [] => pure ()
  | s :: rest =>
    if let some inherited ← findMember s member.name then
      if inherited.kind != member.kind then
        throw (.ofKind (.incompatibleOverride className member.name))
    checkOverride rest member className

/-- Both checks on each member in turn. -/
def checkMembers (supertypes : List ClassId) (className : String) : List MemberDecl → Action Unit
  | [] => pure ()
  | m :: rest => do
    liftExcept (checkLifecycle m className)
    checkOverride supertypes m className
    checkMembers supertypes className rest
where
  liftExcept (result : Except EvalError Unit) : Action Unit := fun r ↦ (result, r)

/-- The declared supertypes, each once, or the root if there are none. -/
def resolveSupertypes (r : Registry) (names : List String) : Except EvalError (List ClassId) := do
  let ids ← names.foldlM (fun acc name ↦
    match r.classNamed name with
    | none => .error (.ofKind (.unknownClass name))
    | some id => .ok (if acc.contains id then acc else acc ++ [id])) []
  return if ids.isEmpty then r.root.toList else ids

/-- The class that a datum is declared with; a class may name itself. -/
def resolveDataClass (r : Registry) (self : String) (selfId : ClassId) (decl : DataDecl) :
    Except EvalError ClassId :=
  if decl.className == self then .ok selfId
  else match r.classNamed decl.className with
    | some id => .ok id
    | none => .error (.ofKind (.unknownClass decl.className))

/-- A name that is already taken, or that would become its own ancestor. -/
def checkName (r : Registry) (decl : ClassDecl) : Except EvalError Unit :=
  if decl.supertypes.contains decl.name then
    .error (.ofKind (.cyclicHierarchy decl.name decl.name))
  else match r.classNamed decl.name with
    | none => .ok ()
    | some existing =>
      match decl.supertypes.find? fun s ↦ (r.classNamed s).any fun id ↦ r.isSubtype id existing with
      | some s => .error (.ofKind (.cyclicHierarchy decl.name s))
      | none => .error (.ofKind (.classConflict decl.name))

/-- Classes are numbered with 32 bits. -/
def maxSize : Nat := UInt32.size

/-- A number is left for one more class. -/
def checkRoom (r : Registry) : Except EvalError Unit :=
  if r.classes.size < maxSize then .ok () else .error (.custom "too many classes")

/-- Add a record and list it with its supertypes. -/
def addRecord (r : Registry) (record : ClassRecord) : Registry :=
  let id : ClassId := ⟨r.classes.size⟩
  let classes := record.supertypes.foldl (fun cs s ↦
    cs.modify s.index fun parent ↦ { parent with subclasses := parent.subclasses ++ [id] }) r.classes
  { r with classes := classes.push record }

/-- Register a class.  All checks come before anything is recorded. -/
def register (decl : ClassDecl) : Action ClassId := do
  let r ← get
  ofExcept (r.checkName decl)
  let supertypes ← ofExcept (r.resolveSupertypes decl.supertypes)
  ofExcept r.checkRoom
  let id : ClassId := ⟨r.classes.size⟩
  let own ← ofExcept (decl.data.mapM fun d ↦ do
    return { name := d.name, valueClass := ← r.resolveDataClass decl.name id d, owner := id : Slot })
  let classData ← ofExcept (decl.classData.mapM fun d ↦ do
    return { name := d.name, valueClass := ← r.resolveDataClass decl.name id d, value := none
      : ClassDatum })
  checkMembers supertypes decl.name decl.members
  modify fun r ↦ r.addRecord {
    name := decl.name
    supertypes
    subclasses := []
    ancestors := r.linearize id supertypes
    layout := r.mergeLayout supertypes own
    members := (decl.members.map fun m ↦ Member.ofDecl m id).foldl Member.insert []
    classData
    hasDestructor := (decl.members.any fun m ↦ m.name == destructorName)
      || supertypes.any r.hasDestructor }
  return id
where
  ofExcept {α : Type} (result : Except EvalError α) : Action α := fun r ↦ (result, r)

/-- A member of a class keeps the kind of the one it replaces. -/
def checkReplace (r : Registry) (c : ClassId) (decl : MemberDecl) : Except EvalError Unit :=
  match Member.lookup (r.ownMembers c) decl.name with
  | some existing =>
    if existing.kind != decl.kind then .error (.ofKind (.incompatibleOverride (r.nameOf c) decl.name))
    else .ok ()
  | none => .ok ()

/-- The registered classes that are not in `found`. -/
def unseen (r : Registry) (found : List ClassId) : List Nat :=
  (List.range r.size).filter fun i ↦ !found.contains ⟨i⟩

theorem unseen_cons (r : Registry) (c : ClassId) (found : List ClassId) :
    r.unseen (c :: found) = (r.unseen found).filter fun i ↦ i != c.index := by
  rw [unseen, unseen, List.filter_filter]
  refine List.filter_congr fun i _ ↦ ?_
  have hi : (⟨i⟩ : ClassId) = c ↔ i = c.index := by
    cases c
    simp
  by_cases h : i = c.index
  · simp [h]
  · simp [h, hi]

/-- Follow the lists of subclasses from the classes on a stack; what was found already is not followed again. -/
def descend (r : Registry) (found stack : List ClassId) : List ClassId :=
  match stack with
  | [] => found
  | c :: rest =>
    if found.contains c then r.descend found rest
    else r.descend (c :: found) ((r.subclasses c).reverse ++ rest)
termination_by ((r.unseen found).length, stack.length)
decreasing_by
  · exact .right _ (Nat.lt_succ_self _)
  · next hnew =>
    rw [unseen_cons]
    by_cases hc : c.index < r.size
    · refine .left _ _ ((List.length_filter_lt_length_iff_exists).mpr ⟨c.index, ?_, by simp⟩)
      simpa [unseen, hc] using hnew
    · -- An unknown class has no subclasses.
      have hnone : r.subclasses c = [] := by
        rw [subclasses, record, Array.getD_eq_getD_getElem?, Array.getElem?_eq_none (Nat.le_of_not_lt hc)]
        rfl
      have hsame : (r.unseen found).filter (fun i ↦ i != c.index) = r.unseen found := by
        refine List.filter_eq_self.mpr fun i hi ↦ ?_
        have hlt : i < r.size := by simpa using (List.mem_filter.mp hi).1
        simp only [bne_iff_ne, ne_eq]
        omega
      rw [hsame, hnone]
      exact .right _ (by simp)

/-- The class and everything that derives from it. -/
def descendants (r : Registry) (c : ClassId) : List ClassId := r.descend [] [c]

/-- Store a member, forget the answers that it changes, and note a new destructor with every class that
inherits it. -/
def storeMember (r : Registry) (c : ClassId) (decl : MemberDecl) : Registry :=
  let classes := r.classes.modify c.index fun record ↦
    { record with members := Member.insert record.members (Member.ofDecl decl c) }
  let affected := r.descendants c
  let cache := r.cache.filter fun key _ ↦ key.2 != decl.name || !affected.contains key.1
  let classes :=
    if decl.name == destructorName then
      affected.foldl (fun cs d ↦ cs.modify d.index fun record ↦ { record with hasDestructor := true }) classes
    else classes
  { classes, cache }

/-- Add a member to a registered class or replace one; the new body is what every later dispatch on the
class and its descendants finds. -/
def define (c : ClassId) (decl : MemberDecl) : Action Unit := do
  let r ← get
  let className := r.nameOf c
  checkMembers (r.supertypes c) className [decl]
  fun r ↦ (r.checkReplace c decl, r)
  modify fun r ↦ r.storeMember c decl

/-- The class data slot that a name reaches from a class: its own first, then those of its ancestors. -/
def classDatum (r : Registry) (c : ClassId) (name : String) : Option (ClassId × Nat) :=
  (r.ancestors c).findSome? fun a ↦
    ((r.record a).classData.findIdx? fun d ↦ d.name == name).map fun i ↦ (a, i)

def classDataOf (r : Registry) (c : ClassId) : List ClassDatum := (r.record c).classData

def classDataValue (r : Registry) (c : ClassId) (index : Nat) : Option Ref :=
  (r.classDataOf c)[index]?.bind ClassDatum.value

/-- Replace a class data value; the previous one is handed back. -/
def setClassData (r : Registry) (c : ClassId) (index : Nat) (value : Ref) : Option Ref × Registry :=
  (r.classDataValue c index,
    { r with classes := r.classes.modify c.index fun record ↦
      { record with classData := record.classData.modify index fun d ↦
        { d with value := some value } } })

/-- All class data values, in order of registration. -/
def classDataValues (r : Registry) : List Ref :=
  r.classes.toList.flatMap fun record ↦ record.classData.filterMap ClassDatum.value

/-- Forget every class data value. -/
def clearClassData (r : Registry) : Registry :=
  { r with classes := r.classes.map fun record ↦
    { record with classData := record.classData.map fun d ↦ { d with value := none } } }

/-- Only the values of class data are gone. -/
theorem record_clearClassData (r : Registry) (c : ClassId) : r.clearClassData.record c =
    { r.record c with classData := (r.record c).classData.map fun d ↦ { d with value := none } } := by
  simp only [clearClassData, record, Array.getD_eq_getD_getElem?, Array.getElem?_map]
  cases r.classes[c.index]? <;> rfl

end Registry

end MindScript
