import MindScript.Machine.Continue
import MindScript.Machine.Programs

/-!
# Steps of frames

A frame is taken out of its Mind for the time of a step, its context becomes the running one, and
afterwards both are put back; then the frame settles or suspends.
-/

namespace MindScript.Machine

/-! ### Groups -/

/-- Start branches in turn as children of the group.  Where one settled branch decides, the branches after
it are not started. -/
def startBranches (E : Engine) (m : MindId) (id : FrameId) (policy : Policy) :
    List ExprId → Array Handle → Machine (Array Handle)
  | [], handles => return handles
  | branch :: rest, handles => do
    let context ← captureContext
    let h ← spawnFrame E m branchName context.thisClass (some id) (.script context branch) false
    let handles := handles.push h
    if policy != .sync && (← get).isFinished h then return handles
    else startBranches E m id policy rest handles

/-- A group that one branch decides ends like that branch. -/
def branchResult (outcome : Outcome) : Machine (Except EvalError Step) := do
  if outcome.status = .failed then
    return .error (outcome.error.getD (.custom "branch failed"))
  else
    return .ok (.done (← shareOrNil outcome.result))

/-- What the branches have come to under the policy of their group. -/
def decideGroup (m : MindId) (id : FrameId) (g : Group) : Machine (Except EvalError Step) := do
  let w ← get
  match g.policy with
  | .sync =>
    match g.handles.find? fun h ↦ w.status h == .failed with
    | some h =>
      return .error ((w.heap.outcome h.outcome).error.getD (.custom "sync branch failed"))
    | none =>
      if g.handles.all w.isFinished then return .ok (.done (← nil))
      else return .ok (.suspend .children)
  | .race | .any =>
    match g.handles.find? w.isFinished with
    | some winner =>
      if g.policy = .any then
        modify fun w ↦ w.detachChildren m id
      branchResult (w.heap.outcome winner.outcome)
    | none =>
      if g.handles.isEmpty then return .ok (.done (← nil))
      else return .ok (.suspend .children)

/-- One step of a group: the first one starts the branches. -/
def pollGroup (E : Engine) (m : MindId) (id : FrameId) (g : Group) (updateCount : Nat) :
    Machine (Group × Except EvalError Step) := do
  let g ←
    if updateCount = 0 then do
      let branches := (← get).context.arena.listAt g.branches
      pure { g with handles := ← startBranches E m id g.policy branches g.handles }
    else pure g
  return (g, ← decideGroup m id g)

/-! ### Steps -/

/-- Run one step of a frame body in the running context.  Takes the delivered payload over. -/
def stepBody (E : Engine) (m : MindId) (id : FrameId) (frame : Frame) (delivered : Option Ref) :
    Machine (FrameBody × Except EvalError Step) := do
  match frame.body with
  | .script k =>
    let (k, step) ← runContinuation E k
    releaseAll delivered.toList
    return (.script k, step)
  | .native code args state =>
    let w ← get
    let info : PollInfo := {
      argCount := args.length
      updateCount := frame.updateCount
      startedAt := frame.startedAt
      clock := ((w.mind? m).map Mind.clock).getD 0
      mind := m
      frame := id }
    let (step, state) ← pollNative E code info w.context.this args delivered state
    return (.native code args state, step)
  | .group g =>
    let (g, step) ← pollGroup E m id g frame.updateCount
    releaseAll delivered.toList
    return (.group g, step)

/-- The body and the step that a run of the body comes to.  An error that leaves the body is the step's. -/
def stepOf (body : FrameBody) :
    Except EvalError (FrameBody × Except EvalError Step) → FrameBody × Except EvalError Step
  | .ok result => result
  | .error e => (body, .error e)

/-- A step as an invocation on the call stack.  At the limit the step is not run, and the delivered
payload is handed back. -/
def stepInvocation (E : Engine) (m : MindId) (id : FrameId) (i : Invocation) (frame : Frame)
    (delivered : Option Ref) : Machine (FrameBody × Except EvalError Step × List Ref) := do
  match (← get).callStack.push i with
  | .error e => return (frame.body, .error e, delivered.toList)
  | .ok callStack =>
    modify fun w ↦ { w with callStack }
    let (body, step) := stepOf frame.body (← attempt (stepBody E m id frame delivered))
    let stack := (← get).callStack
    modify fun w ↦ { w with callStack := w.callStack.pop }
    return (body, step.mapError stack.attach, [])

end MindScript.Machine

namespace MindScript

/-- What a step that lost its frame leaves behind. -/
def stepLinks : Except EvalError Step → List Link
  | .ok (.done value) => [.object value]
  | .ok (.suspend wake) => wake.links
  | .error e => e.exit.toList.map .object

namespace World

/-- Go on in another context, inside or outside of a step. -/
def enter (w : World) (context : Context) (current : Option (MindId × FrameId)) : World :=
  { w with context, current }

/-- Take a frame out of its entry and make its context the running one. -/
def takeFrame (w : World) (m : MindId) (id : FrameId) (entry : FrameEntry) (frame : Frame) : World :=
  let w := (w.modifyEntry m id FrameEntry.taken).setStatus entry.handle .running
  (w.release ((entry.wake.map Wake.links).getD [])).enter frame.context (some (m, id))

/-- Settle or suspend a frame after a step. -/
def conclude (w : World) (m : MindId) (id : FrameId) : Except EvalError Step → World
  | .ok (.done value) => w.finishFrame m id (.completed value)
  | .ok (.suspend wake) => w.suspendFrame m id wake
  | .error e => (w.release (e.exit.toList.map .object)).finishFrame m id (.failed e.toFailure)

/-- Put a frame back after a step and conclude the step.  A stop that was requested meanwhile is carried
out last. -/
def returnFrame (w : World) (m : MindId) (id : FrameId) (frame : Frame)
    (step : Except EvalError Step) : World :=
  match w.entryAt m id with
  | none => w.release (frame.links ++ stepLinks step)
  | some entry =>
    let w := (w.modifyEntry m id fun e ↦ { e with frame := some frame }).conclude m id step
    if entry.stopRequested then stopFrame m w id else w

end World

end MindScript

namespace MindScript.Machine

/-- Run a frame and put it back. -/
def runFrame (E : Engine) (m : MindId) (id : FrameId) (entry : FrameEntry) (frame : Frame) :
    Machine Unit := do
  let w ← get
  let saved := w.context
  let current := w.current
  let i : Invocation := ⟨w.classes.nameOf entry.owner, entry.handle.name⟩
  modify fun w ↦ w.takeFrame m id entry frame
  let (body, step, unused) ← stepInvocation E m id i frame entry.delivered
  let context := (← get).context
  let frame := { frame with context, body, updateCount := frame.updateCount + 1 }
  modify fun w ↦ (w.enter saved current).returnFrame m id frame step
  releaseAll unused

/-- Run one step of a frame that has not finished and is not running already. -/
def resumeFrame (E : Engine) (m : MindId) (id : FrameId) : Machine Unit := do
  let w ← get
  match w.entryAt m id with
  | none => return ()
  | some entry =>
    if w.isFinished entry.handle then return ()
    else match entry.frame with
      | none => return ()
      | some frame => runFrame E m id entry frame

end MindScript.Machine
