import MindScript.Machine.CoreMembers
import MindScript.Machine.Snapshot
import MindScript.Machine.Update

/-!
# Running host members

A program runs against a file of registers.  The values that its requests yield are held by the
registers until the program ends, and are then given up, the last one first; what the program returns is
kept.
-/

namespace MindScript

/-- The state of a running program. -/
structure ProgramRun where
  registers : Array Ref
  /-- Payload of the event that woke the coroutine, until the program takes it. -/
  delivered : Option Ref := none
  state : Option Stored := none
  deriving Inhabited

namespace ProgramRun

/-- The value of a register; a register that was never filled counts as nil. -/
def value (run : ProgramRun) (r : Reg) : Ref := run.registers.getD r .nil

def values (run : ProgramRun) (rs : List Reg) : List Ref := rs.map run.value

/-- Fill the next register. -/
def push (run : ProgramRun) (r : Ref) : Reg × ProgramRun :=
  (run.registers.size, { run with registers := run.registers.push r })

end ProgramRun

namespace Machine

def literal : Literal → Machine Ref
  | .nil => nil
  | .boolean b => boolean b
  | .integer i => integer i
  | .real x => real x
  | .text s => string s
  | .symbol name => symbol name

def shapeOf : Payload → Shape
  | .boolean b => .boolean b
  | .integer i => .integer i
  | .real x => .real x
  | .text s => .text s
  | .symbol name => .symbol name
  | .coroutine _ => .coroutine
  | .plain | .list _ | .closure _ | .classObject _ => .other

/-- The handle that a register holds, if it holds one. -/
def handleIn (run : ProgramRun) (r : Reg) : Machine (Option Handle) := do
  match (← get).heap.payload (run.value r) with
  | .coroutine h => return some h
  | _ => return none

/-- Keep the value of a call in a register, or its error. -/
def keepResult (run : ProgramRun) (act : Machine Ref) :
    Machine (Except EvalError Reg × ProgramRun) := do
  match ← attempt act with
  | .ok value =>
    let (r, run) := run.push value
    return (.ok r, run)
  | .error e => return (.error e, run)

/-- A started coroutine as a value. -/
def startValue (E : Engine) (target : Ref) (member : String) (args : List Ref) (mind : MindId)
    (deferred : Bool) : Machine Ref := do
  let h ← hostStart E target member args mind deferred
  let value ← handleValue h
  releaseLinks [.outcome h.outcome]
  return value

/-- Write a line down with the values as they look now. -/
def writeDown (run : ProgramRun) (line : Line Reg) : Machine Unit := modify fun w ↦
  { w with journal := w.journal.push (line.map fun r ↦ w.view (run.value r)) }

/-- Answer one request. -/
def perform (E : Engine) (run : ProgramRun) : (op : Request) → Machine (op.Reply × ProgramRun)
  | .literal v => do return run.push (← literal v)
  | .inspect r => do return (shapeOf (← payloadOf (run.value r)), run)
  | .journal line => do
    writeDown run line
    return ((), run)
  | .defaultMind => do return ((← get).defaultMind, run)
  | .createMind name => do return (← modifyGet fun w ↦ w.createMind name, run)
  | .classNamed name => do return ((← get).classes.classNamed name, run)
  | .callDepth => do return ((← get).callStack.depth, run)
  | .pendingDestructors => do return ((← get).heap.due.size, run)
  | .collectGarbage => do return (← runDestructors E, run)
  | .liveCount mind => do return ((← get).liveCount mind, run)
  | .update mind elapsed => do return (← update E mind elapsed, run)
  | .notify mind event payload => do
    return (← modifyGet fun w ↦ w.notify mind event (run.value payload), run)
  | .stop r => do
    if let some h ← handleIn run r then
      modify fun w ↦ w.stop h
    return ((), run)
  | .stopAll mind => do
    modify fun w ↦ w.stopAll mind
    return ((), run)
  | .stopFor r => do
    modify fun w ↦ w.stopAllFor (run.value r)
    return ((), run)
  | .suspendMind mind => do
    modify fun w ↦ w.setSuspended mind true
    return ((), run)
  | .resumeMind mind => do
    modify fun w ↦ w.setSuspended mind false
    return ((), run)
  | .setUpdateInterval r seconds => do
    if let some h ← handleIn run r then
      modify fun w ↦ w.setUpdateInterval h seconds
    return ((), run)
  | .startCoroutine target member args mind deferred =>
    keepResult run (startValue E (run.value target) member (run.values args) mind deferred)
  | .invokeMethod target member args =>
    keepResult run (hostInvoke E (run.value target) member (run.values args))
  | .newInstance c args => keepResult run (hostNew E c (run.values args))
  | .evaluate arena root => keepResult run (hostEvaluate E arena root)
  | .takeDelivered =>
    match run.delivered with
    | some payload =>
      let (r, run) := { run with delivered := none }.push payload
      return (some r, run)
    | none => return (none, run)
  | .takeState => return (run.state, { run with state := none })
  | .setState s => return ((), { run with state := some s })

/-- Run a program to its end. -/
def runProgram {α : Type} (E : Engine) : Program α → ProgramRun →
    Machine (Except EvalError α × ProgramRun)
  | .done result, run => return (result, run)
  | .request op next, run => do
    let (reply, run) ← perform E run op
    runProgram E (next reply) run

/-- The references that a run acquired beyond the ones it was given, last one first. -/
def acquired (run : ProgramRun) (given : Nat) : List Ref :=
  (run.registers.toList.drop given).reverse ++ run.delivered.toList

/-- Run a host method. -/
def runHost (E : Engine) (program : Program Reg) (this : Ref) (args : List Ref) : Machine Ref := do
  let given := (this :: args).toArray
  let (result, run) ← runProgram E program { registers := given }
  match result with
  | .ok r =>
    let value ← share (run.value r)
    releaseAll (acquired run given.size)
    return value
  | .error e =>
    releaseAll (acquired run given.size)
    raise e

/-- What a host coroutine asked to wait for. -/
def wakeOf (run : ProgramRun) : Waiting → Machine Wake
  | .tick => return .tick
  | .atTime t => return .atTime t
  | .event name => return .event name
  | .children => return .children
  | .frame r => do
    match ← handleIn run r with
    | some h =>
      retainLink (.outcome h.outcome)
      return .frame h
    | none => return .tick

/-- Run one step of a host coroutine, which gives also what is kept for the next step.  Takes the
delivered payload over. -/
def pollHost (E : Engine) (poll : PollInfo → Program Poll) (info : PollInfo) (this : Ref)
    (args : List Ref) (delivered : Option Ref) (state : Option Stored) :
    Machine (Except EvalError Step × Option Stored) := do
  let given := (this :: args).toArray
  let (result, run) ← runProgram E (poll info) { registers := given, delivered, state }
  let step ← match result with
    | .ok (.ready r) => do pure (.ok (.done (← share (run.value r))))
    | .ok (.pending wait) => do pure (.ok (.suspend (← wakeOf run wait)))
    | .error e => pure (.error e)
  releaseAll (acquired run given.size)
  return (step, run.state)

/-- Run one step of a native coroutine. -/
def pollNative (E : Engine) (code : NativeCoroutine) (info : PollInfo) (this : Ref) (args : List Ref)
    (delivered : Option Ref) (state : Option Stored) :
    Machine (Except EvalError Step × Option Stored) :=
  match code with
  | .core c => pollCore E c info this args delivered state
  | .host poll => pollHost E poll info this args delivered state

/-- Run a native method. -/
def runNative (E : Engine) (code : NativeMethod) (this : Ref) (args : List Ref) : Machine Ref :=
  match code with
  | .core method => runCore E method this args
  | .host program => runHost E program this args

/-- Run the body of a member.  Takes the receiver and the arguments over. -/
def runMember (E : Engine) (this : Ref) (m : Member) (args : ArgValues) : Machine Ref := do
  match m.body with
  | .script arena params body =>
    let context ← newContext arena this m.owner
    runScript E context m.name params body args
  | .method params code =>
    let values ← elseRelease (bindNative m.name params args) [this]
    thenRelease (runNative E code this values) (values ++ [this])
  | .coroutine _ _ =>
    releaseAll (args.map Prod.snd ++ [this])
    raiseKind (.durationalInImmediate m.name)

/-- Run a method member as an instance.  Takes the instance and the arguments over. -/
def invokeMember (E : Engine) (this : Ref) (m : Member) (args : ArgValues) : Machine Ref := do
  let className := (← get).classes.nameOf m.owner
  withInvocation ⟨className, m.name⟩ (args.map Prod.snd ++ [this]) (runMember E this m args)

end Machine

end MindScript
