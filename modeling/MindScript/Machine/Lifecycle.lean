import MindScript.Machine.World
import Std.Data.HashSet

/-!
# The life of a frame

How frames suspend, settle and are swept, and how events reach them.  None of this runs any script, so
these are plain functions on the world.

A frame settles together with the frames below it: its children are stopped first, each with its own
children before it.  A frame that is running when it is told to stop only takes note of that; it is
stopped when its step returns.
-/

namespace MindScript

/-- How a frame ends. -/
inductive Ending where
  | completed (value : Ref)
  | stopped
  | failed (e : EvalError)
  deriving Inhabited

namespace Ending

def status : Ending → FrameStatus
  | completed _ => .completed
  | stopped => .stopped
  | failed _ => .failed

def result? : Ending → Option Ref
  | completed value => some value
  | stopped | failed _ => none

def error? : Ending → Option EvalError
  | failed e => some e
  | completed _ | stopped => none

def links (e : Ending) : List Link := e.result?.toList.map .object

end Ending

/-- Whether the branches that have settled so far decide a group.  A failed branch decides a `sync` group
early. -/
def Group.isDecided (g : Group) (status : Handle → FrameStatus) : Bool :=
  match g.policy with
  | .sync => (g.handles.all fun h ↦ (status h).isFinished)
      || g.handles.any fun h ↦ status h == .failed
  | .race | .any => g.handles.any fun h ↦ (status h).isFinished

namespace World

/-- `Class.member` of a frame. -/
def frameName (w : World) (m : MindId) (id : FrameId) : String :=
  match w.entryAt m id with
  | some e => w.classes.nameOf e.owner ++ "." ++ e.handle.name
  | none => id.text

/-- Blame a failure on the receiver and member of the frame. -/
def withFrameOrigin (w : World) (entry : FrameEntry) (e : EvalError) : EvalError :=
  e.withOrigin ⟨w.classNameOf entry.this, entry.handle.name, w.describe entry.this⟩

def setStatus (w : World) (h : Handle) (status : FrameStatus) : World :=
  { w with heap := w.heap.modifyOutcome h.outcome fun o ↦ { o with status } }

/-! ### Registering -/

/-- A new outcome with two references, and one more reference to the receiver: one each for the entry that
is to be stored. -/
def openOutcome (w : World) (this : Ref) : OutcomeId × World :=
  let (outcome, heap) := w.heap.newOutcome .pending
  (outcome, ({ w with heap }.retain (.object this)).retain (.outcome outcome))

/-- Register a frame with its Mind and its parent.  The handle belongs to the caller. -/
def register (w : World) (m : MindId) (name : String) (owner : ClassId) (parent : Option FrameId)
    (frame : Frame) : Handle × World :=
  let (outcome, w) := w.openOutcome frame.context.this
  match w.mind? m with
  | none => (⟨m, default, name, outcome⟩, w)
  | some mind =>
    let handle : Handle := ⟨m, mind.nextFrameId, name, outcome⟩
    let entry : FrameEntry :=
      { handle, owner, this := frame.context.this, parent
        frame := some { frame with startedAt := mind.clock } }
    (handle, w.modifyMind m fun mind ↦ mind.enroll entry)

/-! ### Settling -/

/-- The settled frame leaves its parent, and the parent is woken if it watches its children. -/
def leaveParent (m : Mind) (parent id : FrameId) : Mind :=
  match m.entryAt parent with
  | none => m
  | some entry =>
    let m := m.modifyEntry parent fun e ↦ e.without id
    match entry.wake with
    | some .children => m.wake #[parent]
    | _ => m

/-- What settling a frame does in its Mind: to its entry, to the logs, and to the frames that may be waiting
for it. -/
def settleEntry (m : Mind) (id : FrameId) (entry : FrameEntry) (status : FrameStatus)
    (failure : Option FrameFailure) : Mind :=
  let m := (m.modifyEntry id FrameEntry.settled).record id entry.handle.name status
  let m := match entry.parent with
    | some parent => leaveParent m parent id
    | none => m
  let m := (m.wake entry.waiters).noteFinished
  match failure with
  | some f => m.recordFailure f
  | none => m

/-- Record how a frame without children ends, in its outcome and in its Mind.  What the frame held is given
up last. -/
def settle (w : World) (m : MindId) (id : FrameId) (ending : Ending) : World :=
  match w.entryAt m id with
  | none => w.release ending.links
  | some entry =>
    if w.isFinished entry.handle then w.release ending.links
    else
      let name := w.frameName m id
      let error := ending.error?.map (w.withFrameOrigin entry)
      let w := { w with heap := w.heap.modifyOutcome entry.handle.outcome fun o ↦
        { o with status := ending.status, result := ending.result?, error } }
      let w := w.modifyMind m fun mind ↦
        settleEntry mind id entry ending.status (error.map fun e ↦ ⟨id, name, e⟩)
      w.release ((entry.wake.map Wake.links).getD [] ++ entry.delivered.toList.map .object
        ++ (entry.frame.map Frame.links).getD [])

/-- Stop a frame with a given way to end it; a running frame only takes note. -/
def stopWith (finish : World → FrameId → World) (m : MindId) (w : World) (id : FrameId) : World :=
  match w.entryAt m id with
  | none => w
  | some entry =>
    if w.isFinished entry.handle then w
    else if entry.frame.isNone then w.modifyEntry m id fun e ↦ { e with stopRequested := true }
    else finish w id

/-- End a frame and stop, before that, the frames below it, down to the given depth. -/
def finishWithin : Nat → MindId → World → FrameId → Ending → World
  | 0, _, w, _, _ => w
  | n + 1, m, w, id, ending =>
    match w.entryAt m id with
    | none => w.release ending.links
    | some entry =>
      if w.isFinished entry.handle then w.release ending.links
      else
        let children := entry.children
        let w := w.modifyEntry m id fun e ↦ { e with children := #[] }
        let w := children.foldl (stopWith (fun w c ↦ finishWithin n m w c .stopped) m) w
        w.settle m id ending

/-- End a frame.  The outcome of a frame is younger than that of its parent, so no chain of frames is
longer than the number of outcomes. -/
def finishFrame (w : World) (m : MindId) (id : FrameId) (ending : Ending) : World :=
  finishWithin (w.heap.outcomes.size + 1) m w id ending

/-- Stop a frame and the frames below it. -/
def stopFrame (m : MindId) (w : World) (id : FrameId) : World :=
  stopWith (fun w c ↦ w.finishFrame m c .stopped) m w id

/-! ### Suspending -/

/-- The frames that an unfinished frame waits for: the one it awaits and its children. -/
def waitsFor (w : World) (m : MindId) (id : FrameId) : Option (List FrameId) :=
  match w.entryAt m id with
  | none => none
  | some entry =>
    if w.isFinished entry.handle then none
    else match entry.wake with
      | some (.frame h) =>
        some (if h.mind = m then h.frame :: entry.children.toList else entry.children.toList)
      | _ => some entry.children.toList

/-- Go through a list of frames up to the first one that still has to be expanded: found, or the frames
that are left and the one expanded. -/
def searchStep (w : World) (m : MindId) (target : FrameId) (seen : Std.HashSet FrameId) :
    List FrameId → Bool × List FrameId × Std.HashSet FrameId
  | [] => (false, [], seen)
  | id :: rest =>
    if id = target then (true, [], seen)
    else if seen.contains id then w.searchStep m target seen rest
    else match w.waitsFor m id with
      | none => w.searchStep m target seen rest
      | some next => (false, next ++ rest, seen.insert id)

/-- Whether a frame is reached from others, with room for the given number of expansions. -/
def reachesWithin : Nat → World → MindId → FrameId → Std.HashSet FrameId → List FrameId → Bool
  | 0, _, _, _, _, _ => false
  | n + 1, w, m, target, seen, todo =>
    match w.searchStep m target seen todo with
    | (true, _, _) => true
    | (false, [], _) => false
    | (false, todo, seen) => reachesWithin n w m target seen todo

def slotCount (w : World) (m : MindId) : Nat := ((w.mind? m).map fun mind ↦ mind.slots.size).getD 0

/-- Whether one frame waits, directly or through others, for another.  Every frame of the Mind is expanded
at most once. -/
def waitsOn (w : World) (m : MindId) (start target : FrameId) : Bool :=
  reachesWithin (w.slotCount m + 1) w m target {} [start]

/-- Note with the frame that is awaited, if it is one of this Mind, who waits for it. -/
def enlist (mind : Mind) (m : MindId) (id : FrameId) : Wake → Mind
  | .frame h =>
    if h.mind = m then mind.modifyEntry h.frame fun e ↦ { e with waiters := e.waiters.push id }
    else mind
  | _ => mind

/-- Put a frame to sleep. -/
def sleep (w : World) (m : MindId) (id : FrameId) (wake : Wake) : World :=
  match w.entryAt m id with
  | none => w.release wake.links
  | some entry =>
    (w.setStatus entry.handle .suspended).modifyMind m fun mind ↦
      let tick := mind.tick
      let clock := mind.clock
      (enlist mind m id wake).modifyEntry id fun e ↦ { e with
        suspendedTick := tick
        nextUpdate := if e.updateInterval > 0 then clock + e.updateInterval else e.nextUpdate
        wake := some wake }

/-- Suspend a frame, or fail it if it would wait for itself. -/
def suspendFrame (w : World) (m : MindId) (id : FrameId) (wake : Wake) : World :=
  match wake with
  | .frame h =>
    if h.mind = m && w.waitsOn m h.frame id then
      let fault : EvalError := .ofKind (.schedulerFault (w.frameName m id))
      (w.finishFrame m id (.failed fault)).release wake.links
    else w.sleep m id wake
  | _ => w.sleep m id wake

/-! ### Sweeping -/

/-- Whether a frame has finished, or is not stored any more. -/
def isSettled (w : World) (mind : Mind) (id : FrameId) : Bool :=
  match mind.entryAt id with
  | none => true
  | some entry => w.isFinished entry.handle

/-- Remove the finished frames of a Mind, if there can be any. -/
def sweep (w : World) (m : MindId) : World :=
  match w.mind? m with
  | none => w
  | some mind =>
    if mind.unswept then
      let (gone, kept) := mind.live.toList.partition (w.isSettled mind)
      let links := gone.flatMap fun id ↦ ((mind.entryAt id).map FrameEntry.links).getD []
      let w := w.modifyMind m fun mind ↦
        { gone.foldl (fun mind id ↦ (mind.remove id).2) mind with
          live := kept.toArray, unswept := false }
      w.release links
    else w

/-- Outside of an update, finished frames are swept right away. -/
def settleMind (w : World) (m : MindId) : World :=
  if ((w.mind? m).map Mind.updating).getD true then w else w.sweep m

/-! ### Waking -/

/-- Whether a frame is due by the clock: it fell asleep in an earlier tick, its update interval has
passed, and so has the time it waits for. -/
def timeWakeDue (w : World) (m : MindId) (id : FrameId) : Bool :=
  match w.mind? m with
  | none => false
  | some mind =>
    match mind.entryAt id with
    | none => false
    | some entry =>
      w.status entry.handle == .suspended && entry.suspendedTick < mind.tick
        && !(mind.clock < entry.nextUpdate)
        && match entry.wake with
          | some .tick => true
          | some (.atTime t) => mind.clock ≥ t
          | _ => false

/-- Whether what a frame waits for, other than time, has happened. -/
def conditionHolds (w : World) (m : MindId) (id : FrameId) : Bool :=
  match w.entryAt m id with
  | none => false
  | some entry =>
    w.status entry.handle == .suspended && match entry.wake with
      | some (.event _) => entry.delivered.isSome
      | some (.frame h) => w.isFinished h
      | some .children =>
        match entry.frame.map Frame.body with
        | some (.group g) => g.isDecided w.status
        | _ => entry.children.isEmpty
      | some .tick | some (.atTime _) | none => false

/-- Whether a frame waits for an event and has not been given a payload yet. -/
def awaitsEvent (w : World) (event : String) (entry : FrameEntry) : Bool :=
  (match entry.wake with
    | some (.event e) => e == event
    | _ => false)
  && entry.delivered.isNone && !w.isFinished entry.handle

/-- Hand a payload to every frame that waits for the event.  Inside an update they may still run in it. -/
def notify (w : World) (m : MindId) (event : String) (payload : Ref) : Nat × World :=
  match w.mind? m with
  | none => (0, w)
  | some mind =>
    let woken := mind.live.toList.filter fun id ↦ (mind.entryAt id).any (w.awaitsEvent event)
    let w := woken.foldl (fun w id ↦
      (w.retain (.object payload)).modifyEntry m id fun e ↦ { e with delivered := some payload }) w
    let w :=
      if mind.updating then w.modifyMind m fun mind ↦ mind.wake woken.toArray else w
    (woken.length, w)

/-! ### Stopping and settings -/

/-- Stop the frame behind a handle and the frames below it. -/
def stop (w : World) (h : Handle) : World :=
  if w.ownsMind h.mind then (stopFrame h.mind w h.frame).settleMind h.mind else w

/-- Stop every frame of a Mind. -/
def stopAll (w : World) (m : MindId) : World :=
  match w.mind? m with
  | none => w
  | some mind => (mind.live.toList.foldl (stopFrame m) w).settleMind m

/-- Stop every frame of a Mind that runs as an instance. -/
def stopOnMind (target : Ref) (w : World) (m : MindId) : World :=
  match w.mind? m with
  | none => w
  | some mind =>
    let targets := mind.live.toList.filter fun id ↦ (mind.entryAt id).any fun e ↦ e.this == target
    (targets.foldl (stopFrame m) w).settleMind m

def mindIds (w : World) : List MindId := (List.range w.minds.size).map MindId.mk

/-- Stop every frame, in every Mind, that runs as an instance. -/
def stopAllFor (w : World) (target : Ref) : World := w.mindIds.foldl (stopOnMind target) w

/-- Stop every frame of every Mind. -/
def stopEverything (w : World) : World := w.mindIds.foldl stopAll w

def setSuspended (w : World) (m : MindId) (suspended : Bool) : World :=
  w.modifyMind m fun mind ↦ { mind with suspended }

/-- The number, or zero if it is negative or no number. -/
def atLeastZero (x : Float) : Float := if x > 0 then x else 0

/-- Let a frame that waits for time run at most once in so many seconds. -/
def setUpdateInterval (w : World) (h : Handle) (seconds : Float) : World :=
  w.modifyEntry h.mind h.frame fun e ↦ { e with updateInterval := atLeastZero seconds }

/-- Add a Mind. -/
def createMind (w : World) (name : String) : MindId × World :=
  (⟨w.minds.size⟩, { w with minds := w.minds.push { name, trace := w.config.trace } })

/-- Number of unfinished frames of a Mind. -/
def liveCount (w : World) (m : MindId) : Nat :=
  match w.mind? m with
  | none => 0
  | some mind => (mind.live.toList.filter fun id ↦
      (mind.entryAt id).any fun e ↦ !w.isFinished e.handle).length

def takeFailures (w : World) (m : MindId) : List FrameFailure × World :=
  (((w.mind? m).map fun mind ↦ mind.failures.toList).getD [],
    w.modifyMind m fun mind ↦ { mind with failures := #[] })

def takeHistory (w : World) (m : MindId) : List FrameEvent × World :=
  (((w.mind? m).map fun mind ↦ mind.history.toList).getD [],
    w.modifyMind m fun mind ↦ { mind with history := #[] })

/-- Let the children of a frame outlive it. -/
def detachChildren (w : World) (m : MindId) (id : FrameId) : World :=
  match w.entryAt m id with
  | none => w
  | some entry =>
    w.modifyMind m fun mind ↦
      entry.children.foldl (fun mind c ↦ mind.modifyEntry c fun e ↦ { e with parent := none })
        (mind.modifyEntry id fun e ↦ { e with children := #[] })

end World

end MindScript
