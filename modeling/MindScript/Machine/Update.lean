import MindScript.Machine.Calls

/-!
# Updates, destructors and the calls of a host

A host pumps each Mind by updating it.  One update goes through four phases: frames that are due by the
clock, each at most once; frames whose condition holds; the first steps of deferred frames; and the sweep
of finished frames.  Whenever a step may have settled something, the frames woken by that run before the
next one.

Destructors run only at safe points: when a host call that is not nested in another one returns, at the
end of an update, and on request.
-/

namespace MindScript.Machine

/-! ### Destructors -/

/-- Run the destructor of an instance, whose reference is taken over.  An error is of no consequence. -/
def runDestructor (E : Engine) (r : Ref) : Machine Unit := do
  let c := (← get).heap.classOf r
  if let .ok m ← attempt (onClasses (Registry.resolve c destructorName none)) then
    retain r
    if let .ok value ← attempt (E.invoke r m []) then
      release value
  release r

def runAll (E : Engine) : List Ref → Machine Unit
  | [] => return ()
  | r :: rest => do
    runDestructor E r
    runAll E rest

/-- Run destructors, and those that become due meanwhile, until none is due; the number of them. -/
def drainDue (E : Engine) : Nat → Nat → Machine Nat
  | 0, _ => exhausted
  | n + 1, ran => do
    let due ← onHeap Heap.takeDue
    if due.isEmpty then return ran
    else
      runAll E due
      drainDue E n (ran + due.length)

def setDraining (draining : Bool) : Machine Unit := modify fun w ↦ { w with draining }

/-- Run every due destructor.  A call made by a destructor does nothing. -/
def runDestructors (E : Engine) : Machine Nat := do
  if (← get).draining then return 0
  else
    setDraining true
    let ran ← drainDue E E.budget 0
    setDraining false
    return ran

/-- The safe point after a host call. -/
def afterHostCall (E : Engine) : Machine Unit := do
  let w ← get
  if w.current.isNone && w.callStack.depth = 0 then
    let _ ← runDestructors E

/-- Give a result back after the safe point. -/
def finishHostCall {α : Type} (E : Engine) (result : Except EvalError α) : Machine α := do
  afterHostCall E
  ofExcept result

/-! ### Updates -/

/-- Take the first frame of the ready queue. -/
def popReady (m : MindId) : Machine (Option FrameId) := modifyGet fun w ↦
  match (w.mind? m).map Mind.ready with
  | some (id :: rest) => (some id, w.modifyMind m fun mind ↦ { mind with ready := rest })
  | _ => (none, w)

/-- Take the first frame of the pending queue. -/
def popPending (m : MindId) : Machine (Option FrameId) := modifyGet fun w ↦
  match (w.mind? m).map Mind.pending with
  | some (id :: rest) => (some id, w.modifyMind m fun mind ↦ { mind with pending := rest })
  | _ => (none, w)

/-- Resume woken frames until none is left; adds the number of steps to the one given. -/
def drainReady (E : Engine) (m : MindId) : Nat → Nat → Machine Nat
  | 0, _ => exhausted
  | n + 1, resumed => do
    match ← popReady m with
    | none => return resumed
    | some id =>
      if (← get).conditionHolds m id then
        E.resume m id
        drainReady E m n (resumed + 1)
      else
        drainReady E m n resumed

/-- Resume those of the frames that are due when their turn comes. -/
def resumeDue (E : Engine) (m : MindId) (isDue : World → FrameId → Bool) :
    List FrameId → Nat → Machine Nat
  | [], resumed => return resumed
  | id :: rest, resumed => do
    if isDue (← get) id then
      E.resume m id
      resumeDue E m isDue rest (← drainReady E m E.budget (resumed + 1))
    else
      resumeDue E m isDue rest resumed

/-- Run the first steps of deferred frames, also of those deferred meanwhile. -/
def drainPending (E : Engine) (m : MindId) : Nat → Nat → Machine Nat
  | 0, _ => exhausted
  | n + 1, resumed => do
    match ← popPending m with
    | none => return resumed
    | some id =>
      E.resume m id
      drainPending E m n (← drainReady E m E.budget (resumed + 1))

/-- Advance the clock and the tick. -/
def beginUpdate (m : MindId) (elapsed : Float) : Machine Unit := modify fun w ↦
  w.modifyMind m fun mind ↦ { mind with
    clock := mind.clock + World.atLeastZero elapsed
    tick := mind.tick + 1
    updating := true }

/-- Sweep what has finished. -/
def endUpdate (m : MindId) : Machine Unit := modify fun w ↦
  (w.sweep m).modifyMind m fun mind ↦ { mind with updating := false }

/-- The phases of an update in which frames run. -/
def resumePhases (E : Engine) (m : MindId) : Machine Nat := do
  let order := (((← get).mind? m).map fun mind ↦ mind.live.toList).getD []
  let resumed ← resumeDue E m (fun w id ↦ w.timeWakeDue m id) order 0
  let resumed ← resumeDue E m (fun w id ↦ w.conditionHolds m id) order resumed
  let resumed ← drainReady E m E.budget resumed
  drainPending E m E.budget resumed

/-- Advance a Mind; the number of steps that were run.  A Mind that is suspended, or being updated, or of
another interpreter, stays as it is. -/
def update (E : Engine) (m : MindId) (elapsed : Float) : Machine Nat := do
  match (← get).mind? m with
  | none => return 0
  | some mind =>
    if mind.suspended || mind.updating then return 0
    else
      beginUpdate m elapsed
      let resumed ← resumePhases E m
      endUpdate m
      let _ ← runDestructors E
      return resumed

/-! ### Host calls

Receiver and arguments stay the caller's; a result is handed over. -/

/-- Take references to arguments for a call that takes them over. -/
def shareArgs : List Ref → Machine ArgValues
  | [] => return []
  | r :: rest => do
    retain r
    return (none, r) :: (← shareArgs rest)

/-- Blame a failure on the receiver and member of the call. -/
def blame {α : Type} (target : Ref) (member : String) (result : Except EvalError α) :
    Machine (Except EvalError α) := do
  match result with
  | .ok a => return .ok a
  | .error e =>
    releaseAll e.exit.toList
    let w ← get
    return .error (e.toFailure.withOrigin ⟨w.classNameOf target, member, w.describe target⟩)

/-- Create an instance and run its constructor. -/
def hostNew (E : Engine) (c : ClassId) (args : List Ref) : Machine Ref := do
  let args ← shareArgs args
  let result ← attempt (construct E c args)
  finishHostCall E result

/-- Evaluate an expression that does not suspend, with nil as the receiver. -/
def hostEvaluate (E : Engine) (arena : Arena) (root : ExprId) : Machine Ref := do
  let context ← newContext arena (← nil) Core.object
  let (result, after) ← withContext context (E.eval root)
  releaseLinks after.links
  let result ← attempt (failLoopExit result)
  finishHostCall E result

/-- Run a method to completion. -/
def hostInvoke (E : Engine) (target : Ref) (member : String) (args : List Ref) : Machine Ref := do
  let args ← shareArgs args
  retain target
  let result ← attempt (callMethod E target member none args)
  let result ← blame target member result
  finishHostCall E result

/-- Resolve and start a coroutine member.  Takes the arguments over. -/
def startMember (E : Engine) (target : Ref) (member : String) (args : ArgValues) (mind : MindId)
    (deferred : Bool) : Machine Handle := do
  let m ← elseRelease (resolveCall target member none) (args.map Prod.snd)
  retain target
  spawnMember E mind none target m args deferred

/-- Start a coroutine on a Mind; its first step runs now, or in the next update if it is deferred. -/
def hostStart (E : Engine) (target : Ref) (member : String) (args : List Ref) (mind : MindId)
    (deferred : Bool) : Machine Handle := do
  let args ← shareArgs args
  let result ← attempt (startMember E target member args mind deferred)
  let result ← blame target member result
  modify fun w ↦ w.settleMind mind
  finishHostCall E result

end MindScript.Machine
