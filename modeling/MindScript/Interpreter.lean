import MindScript.Class.Core
import MindScript.Machine.Run

/-!
# Interpreters

How an interpreter begins and ends, and how classes are added to it.  The calls that a host makes in
between are the actions of `Machine.Update`, run with an engine.
-/

namespace MindScript

namespace World

/-- An interpreter with the core classes, the nil instance and, unless disabled, a default Mind. -/
def new (config : Config) : World :=
  let (this, heap) := ({} : Heap).newObject { classId := Core.none, payload := .plain, count := 2 }
  let (env, heap) := Environment.new heap
  let w : World := {
    classes := CoreClass.registry
    heap
    context := { arena := {}, env, this, thisClass := Core.object }
    callStack := { maxDepth := config.maxCallDepth }
    config }
  match config.defaultMind with
  | none => w
  | some name =>
    let (m, w) := w.createMind name
    { w with defaultMind := some m }

/-- The class data value that a name reaches from a class. -/
def classData (w : World) (c : ClassId) (name : String) : Option Ref :=
  (w.classes.classDatum c name).bind fun (owner, i) ↦ w.classes.classDataValue owner i

/-- The value of a data member of an instance.  There is no way to write one from outside. -/
def dataMember (w : World) (r : Ref) (name : String) : Option Ref :=
  (w.classes.slotIndex (w.heap.classOf r) name).bind fun i ↦ (w.heap.object r).slots[i]?

end World

namespace Machine

/-- Give class data their first values. -/
def initClassData (c : ClassId) : List ClassDatum → Nat → Machine Unit
  | [], _ => return ()
  | d :: rest, i => do
    let value ← zeroValue d.valueClass
    modify fun w ↦ { w with classes := (w.classes.setClassData c i value).2 }
    initClassData c rest (i + 1)

/-- Register a class and initialise its class data. -/
def registerClass (decl : ClassDecl) : Machine ClassId := do
  let c ← onClasses (Registry.register decl)
  initClassData c ((← get).classes.classDataOf c) 0
  return c

/-- Add a member to a class or replace one; frames that run keep the body they have. -/
def defineMember (c : ClassId) (decl : MemberDecl) : Machine Unit :=
  onClasses (Registry.define c decl)

/-- End an interpreter: stop all coroutines, forget the class data and run the destructors that are due;
after that no destructor runs. -/
def teardown (E : Engine) : Machine Unit := do
  modify World.stopEverything
  let values := (← get).classes.classDataValues
  modify fun w ↦ { w with classes := w.classes.clearClassData }
  releaseAll values
  let _ ← runDestructors E
  modify fun w ↦ { w with heap := { w.heap with reaping := false } }

end Machine

end MindScript
