import MindScript.Machine.World

/-!
# Taking snapshots

A snapshot shows each list and object once; further occurrences refer back to it.  It goes down to a fixed
depth.  A slot that a more derived one of the same name shadows is left out.
-/

namespace MindScript.World

/-- The depth at which lists and objects are no longer shown. -/
def snapshotDepth : Nat := 20

/-- Show a list or object unless it was shown before or lies too deep. -/
def showOnce (r : Ref) (room : Nat) (contents : StateM (List Ref) View) : StateM (List Ref) View := do
  if (← get).contains r then return .seen r
  if room = 0 then return .deep
  modify (r :: ·)
  contents

/-- The slots of an object that its class reaches by name, with their values. -/
def visibleSlots (w : World) (r : Ref) : List (String × Ref) :=
  let o := w.heap.object r
  ((w.classes.layout o.classId).zip o.slots.toList).zipIdx.filterMap fun ((slot, value), i) ↦
    if w.classes.slotIndex o.classId slot.name = some i then some (slot.name, value) else none

/-- A snapshot with room for so many levels of lists and objects.  The state holds what was shown. -/
def viewWithin (w : World) : Nat → Ref → StateM (List Ref) View
  | room, r =>
    match w.heap.payload r with
    | .plain =>
      if r = .nil then return .nil
      else showOnce r room do
        match room with
        | 0 => return .deep
        | room + 1 =>
          let slots ← (w.visibleSlots r).mapM fun (name, value) ↦ do
            return (name, ← w.viewWithin room value)
          return .object r (w.classNameOf r) slots
    | .boolean b => return .boolean b
    | .integer i => return .integer i
    | .real x => return .real x
    | .text s => return .text s
    | .symbol name => return .symbol name
    | .list items => showOnce r room do
      match room with
      | 0 => return .deep
      | room + 1 =>
        let views ← items.items.toList.mapM (w.viewWithin room)
        return .list r (w.classes.nameOf items.itemClass) views
    | .closure c => return .closure r c.kind
    | .classObject c => return .classObject (w.classes.nameOf c)
    | .coroutine h => return .coroutine h.name (w.status h).name

/-- What a value looks like now. -/
def view (w : World) (r : Ref) : View := ((w.viewWithin snapshotDepth r).run []).1

end MindScript.World
