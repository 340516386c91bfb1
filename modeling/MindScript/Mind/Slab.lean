import MindScript.Mind.Frame

/-!
# Minds

A Mind owns the frames of every coroutine invoked on it.  Frames live in slots; a slot counts how often
it has been emptied, and an identity that was handed out for an earlier tenant of the slot no longer
resolves.
-/

namespace MindScript

/-- A slot and the number of frames removed from it so far.  The number stands for a word of 32 bits that begins again at
zero, and is the same as that word as long as fewer than 2 ^ 32 frames have been removed from the slot. -/
structure FrameSlot where
  generation : Nat := 0
  entry : Option FrameEntry := none
  deriving Inhabited

/-- A frame that failed. -/
structure FrameFailure where
  frame : FrameId
  /-- `Class.member` of the frame. -/
  name : String
  error : EvalError
  deriving Inhabited

/-- A change in the status of a frame. -/
structure FrameEvent where
  frame : FrameId
  name : String
  status : FrameStatus
  deriving DecidableEq, Repr, Inhabited

/-- Entries kept in each log of a Mind; beyond that the oldest are dropped. -/
def logLimit : Nat := 1024

/-- Append to a log of bounded length. -/
def pushBounded {α : Type} (log : Array α) (entry : α) : Array α :=
  (if log.size = logLimit then log.extract 1 log.size else log).push entry

structure Mind where
  name : String
  slots : Array FrameSlot := #[]
  /-- Empty slots, the one to be used next first. -/
  free : List Nat := []
  /-- Frames in order of registration, with finished ones until they are swept. -/
  live : Array FrameId := #[]
  /-- Whether a frame has finished since the last sweep. -/
  unswept : Bool := false
  /-- Frames whose first step waits for the next update. -/
  pending : List FrameId := []
  /-- Frames that may have something to do in the current update. -/
  ready : List FrameId := []
  clock : Float := 0
  tick : Nat := 0
  /-- Updates do nothing until the Mind is resumed. -/
  suspended : Bool := false
  /-- Inside an update; finished frames are swept at its end. -/
  updating : Bool := false
  /-- Whether changes of status are recorded. -/
  trace : Bool := false
  failures : Array FrameFailure := #[]
  history : Array FrameEvent := #[]
  deriving Inhabited

namespace Mind

/-- The identity under which the next frame will be stored. -/
def nextFrameId (m : Mind) : FrameId :=
  match m.free with
  | index :: _ => ⟨index, (m.slots.getD index {}).generation⟩
  | [] => ⟨m.slots.size, 0⟩

/-- Store a frame under the next identity. -/
def insert (m : Mind) (entry : FrameEntry) : FrameId × Mind :=
  let id := m.nextFrameId
  let m := match m.free with
    | _ :: rest => { m with free := rest }
    | [] => { m with slots := m.slots.push {} }
  (id, { m with
    slots := m.slots.modify id.index fun slot ↦ { slot with entry := some entry }
    live := m.live.push id })

/-- The frame of that identity, as long as it is stored. -/
def entryAt (m : Mind) (id : FrameId) : Option FrameEntry :=
  match m.slots[id.index]? with
  | none => none
  | some slot => if slot.generation = id.generation then slot.entry else none

def modifyEntry (m : Mind) (id : FrameId) (f : FrameEntry → FrameEntry) : Mind :=
  { m with slots := m.slots.modify id.index fun slot ↦
    if slot.generation = id.generation then { slot with entry := slot.entry.map f } else slot }

theorem entryAt_modifyEntry_self (m : Mind) (id : FrameId) (f : FrameEntry → FrameEntry) :
    (m.modifyEntry id f).entryAt id = (m.entryAt id).map f := by
  unfold modifyEntry entryAt
  simp only [Array.getElem?_modify]
  cases hs : m.slots[id.index]? with
  | none => simp
  | some slot =>
    by_cases hg : slot.generation = id.generation <;> simp [hg]

theorem entryAt_modifyEntry_of_ne {m : Mind} {id other : FrameId} (h : other ≠ id)
    (f : FrameEntry → FrameEntry) : (m.modifyEntry id f).entryAt other = m.entryAt other := by
  unfold modifyEntry entryAt
  simp only [Array.getElem?_modify]
  by_cases hi : id.index = other.index
  · have hg : id.generation ≠ other.generation := fun e ↦ h (by cases id; cases other; simp_all)
    cases hs : m.slots[other.index]? with
    | none => simp
    | some slot =>
      by_cases h1 : slot.generation = id.generation
      · simp [hi, h1, hg]
      · simp [hi, h1]
  · simp [hi]

/-- Empty the slot of a frame and hand the frame back; its identity stops resolving. -/
def remove (m : Mind) (id : FrameId) : Option FrameEntry × Mind :=
  match m.entryAt id with
  | none => (none, m)
  | some entry => (some entry, { m with
      slots := m.slots.modify id.index fun slot ↦ ⟨slot.generation + 1, none⟩
      free := id.index :: m.free })

/-- Add a child to a frame, if there is one. -/
def adopt (m : Mind) (parent : Option FrameId) (child : FrameId) : Mind :=
  match parent with
  | some p => m.modifyEntry p fun e ↦ { e with children := e.children.push child }
  | none => m

/-- Let frames look again, in the current update, whether what they wait for has happened. -/
def wake (m : Mind) (ids : Array FrameId) : Mind :=
  if ids.isEmpty then m else { m with ready := m.ready ++ ids.toList }

@[simp] theorem ready_wake (m : Mind) (ids : Array FrameId) :
    (m.wake ids).ready = m.ready ++ ids.toList := by
  unfold wake
  split <;> simp_all

/-- Note that a frame has finished since the last sweep. -/
def noteFinished (m : Mind) : Mind := { m with unswept := true }

/-- Note a change of status while tracing. -/
def record (m : Mind) (frame : FrameId) (name : String) (status : FrameStatus) : Mind :=
  if m.trace then { m with history := pushBounded m.history ⟨frame, name, status⟩ } else m

/-- Store a frame whose handle names the next identity, and make it a child of its parent. -/
def enroll (m : Mind) (entry : FrameEntry) : Mind :=
  ((m.insert entry).2.adopt entry.parent entry.handle.frame).record entry.handle.frame entry.handle.name
    .pending

def recordFailure (m : Mind) (failure : FrameFailure) : Mind :=
  { m with failures := pushBounded m.failures failure }

end Mind

end MindScript
