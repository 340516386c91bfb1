import MindScript.Machine.Arguments
import MindScript.Machine.Lifecycle

/-!
# Calls

Methods, closures, constructors and the start of coroutines.  A scripted callee runs in a context of its
own, over its own arena and with its own scopes; the root scope of a closure lies inside the scope that
the closure was written in.
-/

namespace MindScript

/-- The outcome of a call that may start a coroutine. -/
inductive Invoked where
  | done (value : Ref)
  /-- A child frame of the caller; the handle belongs to the caller. -/
  | running (handle : Handle)
  deriving Inhabited

namespace Machine

/-- Name of the frames and invocations of closures. -/
def closureName : String := "closure"

/-- Name of the frames of anonymous branches. -/
def branchName : String := "branch"

/-! ### Contexts -/

/-- A context with an empty root scope.  Takes the receiver over. -/
def newContext (arena : Arena) (this : Ref) (thisClass : ClassId) : Machine Context := do
  let env ← onHeap Environment.new
  return { arena, env, this, thisClass }

/-- A context inside a scope.  The receiver stays the caller's. -/
def chainedContext (arena : Arena) (scope : ScopeId) (this : Ref) (thisClass : ClassId) :
    Machine Context := do
  let env ← onHeap fun h ↦ Environment.chained h scope
  retain this
  return { arena, env, this, thisClass }

def closureContext (c : Closure) : Machine Context :=
  chainedContext c.arena c.scope c.this c.thisClass

/-- A context that shares the scope and the receiver of the running one. -/
def captureContext : Machine Context := do
  let c := (← get).context
  chainedContext c.arena c.env.innermost c.this c.thisClass

/-- A loop exit that leaves the callee becomes a failure, and its value is given up. -/
def failLoopExit {α : Type} (result : Except EvalError α) : Machine α := do
  match result with
  | .ok a => return a
  | .error e =>
    releaseAll e.exit.toList
    raise e.toFailure

/-- Bind arguments and evaluate a body in a context that is given up afterwards. -/
def runScript (E : Engine) (context : Context) (name : String) (params : Span) (body : ExprId)
    (args : ArgValues) : Machine Ref := do
  let (result, after) ← withContext context do
    bindParams E name params args
    E.eval body
  releaseLinks after.links
  failLoopExit result

/-! ### Dispatch -/

/-- The member that a name means on a receiver, starting at the class that qualifies it, if any. -/
def resolveCall (receiver : Ref) (name : String) (qualifier : Option String) : Machine Member := do
  let start ← match qualifier with
    | some q => some <$> lookupClass q
    | none => pure none
  let c := (← get).heap.classOf receiver
  match ← attempt (onClasses (Registry.resolve c name start)) with
  | .ok m => return m
  | .error e =>
    if start.isNone && receiver = .nil then raiseKind (.nilDereference name) else raise e

/-- Resolve a method that can run to completion. -/
def resolveMethod (receiver : Ref) (name : String) (qualifier : Option String) : Machine Member := do
  let m ← resolveCall receiver name qualifier
  if m.isCoroutine then raiseKind (.durationalInImmediate name) else return m

/-- Call a method to completion.  Takes receiver and arguments over. -/
def callMethod (E : Engine) (receiver : Ref) (name : String) (qualifier : Option String)
    (args : ArgValues) : Machine Ref := do
  let m ← elseRelease (resolveMethod receiver name qualifier) (args.map Prod.snd ++ [receiver])
  E.invoke receiver m args

/-- An operator is a method call on its left operand.  Takes the operands over. -/
def binaryOp (E : Engine) (op : BinaryOp) (left right : Ref) : Machine Ref :=
  callMethod E left op.methodName none [(none, right)]

def unaryOp (E : Engine) (op : UnaryOp) (operand : Ref) : Machine Ref :=
  callMethod E operand op.methodName none []

/-! ### Frames -/

/-- Register a frame with its Mind and its parent.  The handle belongs to the caller. -/
def registerFrame (m : MindId) (name : String) (owner : ClassId) (parent : Option FrameId)
    (frame : Frame) : Machine Handle :=
  modifyGet fun w ↦ w.register m name owner parent frame

/-- Leave the first step of a frame to the next update of its Mind. -/
def defer (m : MindId) (id : FrameId) : Machine Unit := modify fun w ↦
  w.modifyMind m fun mind ↦ { mind with pending := mind.pending ++ [id] }

/-- Register a frame and run its first step, or leave that to the next update of its Mind. -/
def spawnFrame (E : Engine) (m : MindId) (name : String) (owner : ClassId) (parent : Option FrameId)
    (frame : Frame) (deferred : Bool) : Machine Handle := do
  let handle ← registerFrame m name owner parent frame
  if deferred then
    defer m handle.frame
  else
    E.resume m handle.frame
  return handle

/-- The frame of a scripted coroutine: its parameters are bound before it is registered.  Takes the
context and the arguments over. -/
def scriptFrame (E : Engine) (context : Context) (name : String) (params : Span) (body : ExprId)
    (args : ArgValues) : Machine Frame := do
  let (bound, after) ← withContext context (bindParams E name params args)
  match bound with
  | .ok () => return .script after body
  | .error e =>
    releaseLinks after.links
    raise e

/-- The frame of a coroutine member.  Takes the receiver and the arguments over. -/
def memberFrame (E : Engine) (this : Ref) (m : Member) (args : ArgValues) : Machine Frame := do
  match m.body with
  | .script arena params body =>
    let context ← newContext arena this m.owner
    scriptFrame E context m.name params body args
  | .coroutine params code =>
    let values ← elseRelease (bindNative m.name params args) [this]
    let context ← newContext {} this m.owner
    return { context, body := .native code values none }
  | .method _ _ =>
    releaseAll (args.map Prod.snd ++ [this])
    raiseKind (.durationalInImmediate m.name)

/-- Start a coroutine member on a Mind.  Takes the receiver and the arguments over. -/
def spawnMember (E : Engine) (mind : MindId) (parent : Option FrameId) (this : Ref) (m : Member)
    (args : ArgValues) (deferred : Bool) : Machine Handle := do
  let held := args.map Prod.snd ++ [this]
  if !(← get).ownsMind mind then
    releaseAll held
    raiseKind .noMind
  else if !m.isCoroutine then
    releaseAll held
    raise (.custom ("`" ++ m.name ++ "` is a method, not a coroutine"))
  else
    let frame ← memberFrame E this m args
    spawnFrame E mind m.name m.owner parent frame deferred

/-- Call a member from a running frame.  A coroutine becomes a child of that frame; a method simply runs.
Takes the receiver and the arguments over. -/
def callCoroutine (E : Engine) (receiver : Ref) (name : String) (qualifier : Option String)
    (args : ArgValues) : Machine Invoked := do
  let held := args.map Prod.snd ++ [receiver]
  let m ← elseRelease (resolveCall receiver name qualifier) held
  if m.isCoroutine then
    match (← get).current with
    | some (mind, parent) => .running <$> spawnMember E mind (some parent) receiver m args false
    | none =>
      releaseAll held
      raiseKind (.durationalInImmediate name)
  else
    .done <$> E.invoke receiver m args

/-! ### Closures -/

def expectClosure (callee : Ref) : Machine Closure := do
  match (← get).heap.payload callee with
  | .closure c => return c
  | _ => typeMismatch "Closure" callee

/-- Invoke a method closure to completion.  Takes the arguments over. -/
def invokeClosureNow (E : Engine) (callee : Ref) (args : ArgValues) : Machine Ref := do
  let held := args.map Prod.snd
  let c ← elseRelease (expectClosure callee) held
  if c.kind = .coroutine then
    releaseAll held
    raiseKind (.durationalInImmediate closureName)
  else
    withInvocation ⟨(← get).classes.nameOf c.thisClass, closureName⟩ held do
      let context ← closureContext c
      runScript E context closureName c.params c.body args

/-- Invoke a closure from a running frame.  A coroutine closure becomes a child of that frame.  Takes the
arguments over. -/
def callClosure (E : Engine) (callee : Ref) (args : ArgValues) : Machine Invoked := do
  let held := args.map Prod.snd
  let c ← elseRelease (expectClosure callee) held
  if c.kind = .method then
    .done <$> invokeClosureNow E callee args
  else
    match (← get).current with
    | none =>
      releaseAll held
      raiseKind (.durationalInImmediate closureName)
    | some (mind, parent) =>
      let context ← closureContext c
      let frame ← scriptFrame E context closureName c.params c.body args
      .running <$> spawnFrame E mind closureName c.thisClass (some parent) frame false

/-! ### Construction -/

/-- The value that instantiating one of the value classes yields. -/
def constructCore? (c : ClassId) : Option (Machine Ref) :=
  if c = Core.none then some nil
  else if c = Core.list then some (list Core.object [])
  else if c = Core.integer || c = Core.real || c = Core.boolean || c = Core.string then
    some (zeroValue c)
  else none

/-- Values for the slots of a new instance. -/
def zeroValues : List Slot → Machine (List Ref)
  | [] => return []
  | slot :: rest => do
    let value ← zeroValue slot.valueClass
    return value :: (← zeroValues rest)

/-- An instance with the given slots.  Whether its destructor will run is decided now. -/
def allocate (c : ClassId) (slots : List Ref) : Machine Ref := do
  let armed := (← get).classes.hasDestructor c
  onHeap fun h ↦ h.newObject { classId := c, payload := .plain, slots := slots.toArray, armed }

/-- An instance with every slot at its first value. -/
def newInstance (c : ClassId) : Machine Ref := do
  allocate c (← zeroValues ((← get).classes.layout c))

/-- An instance whose construction failed never runs its destructor. -/
def disarm (r : Ref) : Machine Unit := modify fun w ↦
  { w with heap := w.heap.modifyObject r fun o ↦ { o with destructed := true } }

/-- Create an instance and run its constructor as it.  Takes the arguments over. -/
def construct (E : Engine) (c : ClassId) (args : ArgValues) : Machine Ref := do
  let held := args.map Prod.snd
  let arity : ErrorKind := .arityMismatch ((← get).classes.nameOf c) 0 args.length
  match constructCore? c with
  | some make =>
    let value ← make
    if args.isEmpty then return value
    else
      releaseAll (value :: held)
      raiseKind arity
  | none =>
    let object ← newInstance c
    match ← findMember c constructorName with
    | some constructor =>
      retain object
      match ← attempt (E.invoke object constructor args) with
      | .ok value =>
        release value
        return object
      | .error e =>
        disarm object
        release object
        raise e
    | none =>
      if args.isEmpty then return object
      else
        releaseAll (object :: held)
        raiseKind arity

/-- Create an instance of a class given by name.  Takes the arguments over. -/
def instantiate (E : Engine) (className : String) (args : ArgValues) : Machine Ref := do
  let c ← elseRelease (lookupClass className) (args.map Prod.snd)
  construct E c args

/-! ### Branches and groups -/

/-- Start a body as a coroutine without a parent, on the current Mind or else on the default one. -/
def spawnBranch (E : Engine) (body : ExprId) : Machine Handle := do
  let w ← get
  match (w.current.map Prod.fst).or w.defaultMind with
  | none => raiseKind .noMind
  | some mind =>
    let frame := Frame.script (← captureContext) body
    let handle ← spawnFrame E mind branchName w.context.thisClass none frame false
    modify fun w ↦ w.settleMind mind
    return handle

/-- Start a concurrent group as a child of the running frame. -/
def spawnGroup (E : Engine) (policy : Policy) (branches : Span) : Machine Handle := do
  let w ← get
  match w.current with
  | none => raiseKind .noMind
  | some (mind, parent) =>
    let frame : Frame := { context := ← captureContext, body := .group { policy, branches } }
    spawnFrame E mind policy.name w.context.thisClass (some parent) frame false

end Machine

end MindScript
