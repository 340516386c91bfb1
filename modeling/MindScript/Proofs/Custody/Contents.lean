import MindScript.Proofs.Custody.Runs
import MindScript.Proofs.Destructors.Instances

/-!
# What is stored

The heap and the registry keep values in three kinds of places that are declared with a class: the slots of instances,
class data, and the items of lists.  Every write is checked or made to conform, and classes only grow, so what is stored
conforms in every world that an interpreter comes to.
-/

namespace MindScript

open Machine

/-- Whatever is stored conforms to what is declared: an instance has one value for each slot of its class, each nil or of
the class that the slot is declared with; so does class data that has a value; and the items of a list are all of the
class of its items. -/
theorem stored_values_conform {owned : List Link} {w : World} (h : Reached owned w) :
    (∀ r o, w.heap.object? r = some o →
      o.slots.size = (w.classes.layout o.classId).length ∧
      (∀ (i : Nat) value slot, o.slots[i]? = some value → (w.classes.layout o.classId)[i]? = some slot →
        w.Fits value slot.valueClass) ∧
      ∀ s, o.payload = .list s → ∀ value ∈ s.items.toList, w.Conforms value s.itemClass) ∧
    ∀ c d value, d ∈ w.classes.classDataOf c → d.value = some value → w.Fits value d.valueClass := by
  obtain ⟨σ, hsane⟩ := h.sane
  refine ⟨fun r o ho ↦ ?_, hsane.typed.classData⟩
  obtain ⟨-, hslots, hitems⟩ := hsane.typed.instances r o ho
  rw [List.forall₂_iff_get] at hslots
  refine ⟨by simpa using hslots.1, fun i value slot hvalue hslot ↦ ?_, hitems⟩
  obtain ⟨hi, rfl⟩ := Array.getElem?_eq_some_iff.mp hvalue
  obtain ⟨hi', rfl⟩ := List.getElem?_eq_some_iff.mp hslot
  exact hslots.2 i hi hi'

/-! ### An instance with three slots, a datum and a list -/

section entries

/-- A class with slots below the one with a datum. -/
def entry : ClassDecl where
  name := "Entry"
  supertypes := ["Tally"]
  data := [⟨"label", "String"⟩, ⟨"amount", "Integer"⟩, ⟨"next", "Entry"⟩]

def Object.entry : Object where
  classId := ⟨12⟩
  payload := .plain
  slots := #[⟨2⟩, ⟨3⟩, .nil]
  armed := true

def Sequence.pair : Sequence where
  itemClass := Core.integer
  items := #[⟨5⟩, ⟨6⟩]

/-- The datum, the first values of the slots, and the instance. -/
def Heap.entered : Heap where
  objects := #[
    { classId := Core.none, payload := .plain, count := 3 },
    { classId := Core.integer, payload := .integer 0 },
    { classId := Core.string, payload := .text "" },
    { classId := Core.integer, payload := .integer 0 },
    .entry]
  scopes := #[{}]

def World.entered (classes : Registry) : World :=
  { World.new { defaultMind := none } with classes, heap := .entered }

/-- What has been registered first is as it was, and the lower class has three slots and no constructor. -/
theorem looks_entered :
    tallied.accepts entry = true ∧ (tallied.adding entry).size = 13 ∧
    (tallied.adding entry).classNamed "Integer" = some Core.integer ∧
    (tallied.adding entry).classDataOf ⟨11⟩ = [⟨"total", Core.integer, some ⟨1⟩⟩] ∧
    (tallied.adding entry).layout ⟨12⟩ =
      [⟨"label", Core.string, ⟨12⟩⟩, ⟨"amount", Core.integer, ⟨12⟩⟩, ⟨"next", ⟨12⟩, ⟨12⟩⟩] ∧
    (tallied.adding entry).search ⟨12⟩ constructorName = none ∧ (tallied.adding entry).hasDestructor ⟨12⟩ = true := by
  decide +kernel

/-- Both classes have been registered, and an instance of the lower one has been made. -/
theorem Reached.exists_entered : ∃ classes, (tallied.adding entry).Remembers classes ∧
    Reached [.object ⟨4⟩] (.entered classes) := by
  obtain ⟨haccepts, hsize, -, -, hlayout, hsearch, harmed⟩ := looks_entered
  have hc : 12 < (tallied.adding entry).size := hsize ▸ Nat.lt_succ_self 12
  obtain ⟨classes, hclasses, htallied⟩ := Reached.exists_tallied
  obtain ⟨classes', hclasses', hregistered⟩ := htallied.register hclasses haccepts fun _ hd ↦ by cases hd
  obtain ⟨classes'', hclasses'', hmade⟩ := hregistered.make hclasses' hc rfl hsearch (by rw [hlayout]; rfl)
  rw [harmed] at hmade
  exact ⟨classes'', hclasses'', hmade⟩

/-- The list of the numbers one and two. -/
def Arena.pair : Arena where
  nodes := #[.int 1, .int 2, .list "Integer" ⟨0, 2⟩]
  lists := #[⟨0⟩, ⟨1⟩]

def Heap.numbered (h : Heap) : Heap :=
  { h with objects := h.objects ++ #[
    { classId := Core.integer, payload := .integer 1 },
    { classId := Core.integer, payload := .integer 2 }] }

def Heap.listed (h : Heap) : Heap :=
  (h.numbered.newObject { classId := Core.list, payload := .list .pair }).2

/-- The list is evaluated as code of the nil, in a scope of its own. -/
def Context.pair : Context where
  arena := .pair
  env := (Environment.new .entered).1
  this := .nil
  thisClass := Core.object

def Heap.evaluating : Heap :=
  { Heap.entered with
    objects := Heap.entered.objects.modify 0 fun o ↦ { o with count := 4 }
    scopes := #[{}, {}] }

variable {classes : Registry}

theorem eval_pair (hnamed : classes.classNamed "Integer" = some Core.integer) :
    (Engine.ofBudget 2).eval ⟨2⟩ { World.entered classes with heap := .evaluating, context := .pair } =
      (.ok ⟨7⟩, { World.entered classes with heap := Heap.evaluating.listed, context := .pair }) := by
  let w : World := { World.entered classes with heap := .evaluating, context := .pair }
  let w' : World := { World.entered classes with heap := Heap.evaluating.numbered, context := .pair }
  have hitems : evalList (.ofBudget 1) [] [⟨0⟩, ⟨1⟩] w = (.ok [⟨5⟩, ⟨6⟩], w') := rfl
  have hlookup : lookupClass "Integer" w' = (.ok Core.integer, w') := by
    rw [lookupClass, get_bind, show w'.classes.classNamed "Integer" = some Core.integer from hnamed]
    rfl
  show evalNode _ _ w = _
  rw [evalNode, get_bind]
  refine (bind_of_ok hitems).trans ?_
  rw [listNamed, bind_of_ok (elseRelease_of_ok hlookup)]
  rfl

/-- The scope has been given up. -/
def World.listed (classes : Registry) : World :=
  { World.entered classes with heap := { Heap.entered with scopes := #[{}, { count := 0 }] }.listed }

theorem evaluateBody_pair (hnamed : classes.classNamed "Integer" = some Core.integer) :
    evaluateBody (.ofBudget 2) .pair ⟨2⟩ (.entered classes) = (.ok (.ok ⟨7⟩), .listed classes) := by
  have hnil : nil (.entered classes) =
      (.ok .nil, { World.entered classes with heap := { Heap.evaluating with scopes := #[{}] } }) := rfl
  have hcontext : newContext .pair .nil Core.object
      { World.entered classes with heap := { Heap.evaluating with scopes := #[{}] } } =
        (.ok .pair, { World.entered classes with heap := .evaluating }) := rfl
  have hreleased : Heap.evaluating.listed.release Context.pair.links =
      { Heap.entered with scopes := #[{}, { count := 0 }] }.listed := rfl
  rw [evaluateBody_of_eval hnil hcontext (eval_pair hnamed), World.release, hreleased]
  rfl

/-- The slots hold a text, a number and nothing, the datum a number, and the list two of them. -/
theorem stored_values_conform_listed : ∃ w, Reached [.object ⟨7⟩, .object ⟨4⟩] w ∧
    w.heap.object? ⟨4⟩ = some .entry ∧ (w.classes.layout ⟨12⟩).length = 3 ∧
    w.Fits ⟨2⟩ Core.string ∧ w.Fits ⟨3⟩ Core.integer ∧ w.Fits .nil ⟨12⟩ ∧
    w.classes.classDataOf ⟨11⟩ = [⟨"total", Core.integer, some ⟨1⟩⟩] ∧ w.Fits ⟨1⟩ Core.integer ∧
    w.heap.payload ⟨7⟩ = .list .pair ∧ w.Conforms ⟨5⟩ Core.integer ∧ w.Conforms ⟨6⟩ Core.integer := by
  obtain ⟨classes, hclasses, hentered⟩ := Reached.exists_entered
  obtain ⟨-, -, hinteger, hdata, hlayout, -, -⟩ := looks_entered
  have hnamed : classes.classNamed "Integer" = some Core.integer := by
    rw [Registry.classNamed, hclasses.classes]
    exact hinteger
  have hlayout : classes.layout ⟨12⟩ = _ := (hclasses.layout _).trans hlayout
  have hdata : (World.listed classes).classes.classDataOf ⟨11⟩ = [⟨"total", Core.integer, some ⟨1⟩⟩] :=
    (hclasses.classDataOf _).trans hdata
  have hw := hentered.safePoint 2 (.evaluate .pair ⟨2⟩) (evaluateBody_pair hnamed)
  obtain ⟨hinstances, hclassData⟩ := stored_values_conform hw
  obtain ⟨hsize, hslots, -⟩ := hinstances ⟨4⟩ .entry rfl
  obtain ⟨-, -, hitems⟩ := hinstances ⟨7⟩ { classId := Core.list, payload := .list .pair } rfl
  refine ⟨.listed classes, hw, rfl, hsize.symm, ?_, ?_, ?_, hdata, ?_, rfl, ?_, ?_⟩
  · exact hslots 0 ⟨2⟩ ⟨"label", Core.string, ⟨12⟩⟩ rfl (congrArg (·[0]?) hlayout)
  · exact hslots 1 ⟨3⟩ ⟨"amount", Core.integer, ⟨12⟩⟩ rfl (congrArg (·[1]?) hlayout)
  · exact hslots 2 .nil ⟨"next", ⟨12⟩, ⟨12⟩⟩ rfl (congrArg (·[2]?) hlayout)
  · exact hclassData ⟨11⟩ ⟨"total", Core.integer, some ⟨1⟩⟩ ⟨1⟩ (by simp [hdata]) rfl
  · exact hitems .pair rfl ⟨5⟩ (by simp [Sequence.pair])
  · exact hitems .pair rfl ⟨6⟩ (by simp [Sequence.pair])

end entries

end MindScript
