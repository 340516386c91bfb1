import MindScript.CallStack
import MindScript.Class.Registry
import MindScript.Mind.Slab

/-!
# The state of an interpreter

Everything an interpreter knows is one value, the `World`.  A machine action transforms it and ends with
a result, with an error, or by using up its budget; the changes made before an error stay.
-/

namespace MindScript

/-- Settings fixed when the interpreter is built. -/
structure Config where
  /-- Nested invocations allowed before the call stack overflows. -/
  maxCallDepth : Nat := 512
  /-- Whether every Mind records the changes of status of its frames. -/
  trace : Bool := false
  /-- Name of the Mind that is created with the interpreter, if any. -/
  defaultMind : Option String := some "master"
  deriving DecidableEq, Repr, Inhabited

structure World where
  classes : Registry := {}
  heap : Heap := {}
  /-- Where the running code reads its nodes, locals and receiver from. -/
  context : Context
  callStack : CallStack
  minds : Array Mind := #[]
  defaultMind : Option MindId := none
  /-- Mind and frame of the coroutine step under way. -/
  current : Option (MindId × FrameId) := none
  /-- Whether due destructors are being run. -/
  draining : Bool := false
  config : Config
  /-- What host members wrote down. -/
  journal : Array (Line View) := #[]
  deriving Inhabited

/-- Why an action ended without a result. -/
inductive Interrupt where
  /-- An error or a loop exit. -/
  | raised (e : EvalError)
  /-- The budget was used up before the computation ended. -/
  | exhausted
  deriving Inhabited

abbrev Machine := ExceptT Interrupt (StateM World)

/-! ### The core classes

They are registered in this order when an interpreter is built. -/

namespace Core

def object : ClassId := ⟨0⟩
def none : ClassId := ⟨1⟩
def boolean : ClassId := ⟨2⟩
def integer : ClassId := ⟨3⟩
def real : ClassId := ⟨4⟩
def string : ClassId := ⟨5⟩
def symbol : ClassId := ⟨6⟩
def list : ClassId := ⟨7⟩
def closure : ClassId := ⟨8⟩
def classObject : ClassId := ⟨9⟩
def invokedCoroutine : ClassId := ⟨10⟩

end Core

/-- The one instance of `None`. -/
def Ref.nil : Ref := ⟨0⟩

namespace World

def mind? (w : World) (m : MindId) : Option Mind := w.minds[m.index]?

def ownsMind (w : World) (m : MindId) : Bool := m.index < w.minds.size

def modifyMind (w : World) (m : MindId) (f : Mind → Mind) : World :=
  { w with minds := w.minds.modify m.index f }

def entryAt (w : World) (m : MindId) (id : FrameId) : Option FrameEntry :=
  (w.mind? m).bind fun mind ↦ mind.entryAt id

def modifyEntry (w : World) (m : MindId) (id : FrameId) (f : FrameEntry → FrameEntry) : World :=
  w.modifyMind m fun mind ↦ mind.modifyEntry id f

def status (w : World) (h : Handle) : FrameStatus := (w.heap.outcome h.outcome).status

def isFinished (w : World) (h : Handle) : Bool := (w.status h).isFinished

/-- Class name of a value. -/
def classNameOf (w : World) (r : Ref) : String := w.classes.nameOf (w.heap.classOf r)

/-- Short identity of a value: its class and its serial number. -/
def describe (w : World) (r : Ref) : String := w.classNameOf r ++ "#" ++ toString r.index

/-- Give up references. -/
def release (w : World) (links : List Link) : World := { w with heap := w.heap.release links }

def retain (w : World) (link : Link) : World := { w with heap := w.heap.retain link }

end World

namespace Machine

variable {α : Type}

/-- End with an error. -/
@[inline] def raise (e : EvalError) : Machine α := throw (.raised e)

@[inline] def raiseKind (k : ErrorKind) : Machine α := throw (.raised (.ofKind k))

@[inline] def exhausted : Machine α := throw .exhausted

/-- Run an action and see whether it raised an error. -/
@[inline] def attempt (act : Machine α) : Machine (Except EvalError α) := fun w ↦
  match act w with
  | (.ok a, w) => (.ok (.ok a), w)
  | (.error (.raised e), w) => (.ok (.error e), w)
  | (.error .exhausted, w) => (.error .exhausted, w)

@[inline] def ofExcept (r : Except EvalError α) : Machine α := fun w ↦
  match r with
  | .ok a => (.ok a, w)
  | .error e => (.error (.raised e), w)

/-- Change the errors that leave an action. -/
@[inline] def mapError (act : Machine α) (f : EvalError → World → EvalError) : Machine α := fun w ↦
  match act w with
  | (.error (.raised e), w) => (.error (.raised (f e w)), w)
  | other => other

/-- Run a heap operation. -/
@[inline] def onHeap (f : Heap → α × Heap) : Machine α := fun w ↦
  let (a, heap) := f w.heap
  (.ok a, { w with heap })

@[inline] def releaseLinks (links : List Link) : Machine Unit := modify fun w ↦ w.release links

@[inline] def release (r : Ref) : Machine Unit := releaseLinks [.object r]

def releaseAll (rs : List Ref) : Machine Unit := releaseLinks (rs.map .object)

/-- Take one more reference to a cell. -/
@[inline] def retainLink (link : Link) : Machine Unit := modify fun w ↦ w.retain link

@[inline] def retain (r : Ref) : Machine Unit := retainLink (.object r)

/-- A new reference to the same instance. -/
@[inline] def share (r : Ref) : Machine Ref := do
  retain r
  return r

/-- Run an action that takes over no references; if it fails, give up the ones held beside it. -/
@[inline] def elseRelease (act : Machine α) (held : List Ref) : Machine α := fun w ↦
  match act w with
  | (.error (.raised e), w) => (.error (.raised e), w.release (held.map .object))
  | other => other

/-- Run an action and then, whether or not it failed, give up the references held beside it. -/
@[inline] def thenRelease (act : Machine α) (held : List Ref) : Machine α := fun w ↦
  match act w with
  | (.error .exhausted, w) => (.error .exhausted, w)
  | (result, w) => (result, w.release (held.map .object))

/-- Run a registry operation. -/
@[inline] def onClasses (act : Registry.Action α) : Machine α := fun w ↦
  match act w.classes with
  | (.ok a, classes) => (.ok a, { w with classes })
  | (.error e, classes) => (.error (.raised e), { w with classes })

/-- The member that dispatch on a class finds, if any. -/
def findMember (c : ClassId) (name : String) : Machine (Option Member) :=
  onClasses (Registry.findMember c name)

/-- Run an action in another context; the caller's context is put back afterwards, and the other one is
handed back as the action left it. -/
@[inline] def withContext (context : Context) (act : Machine α) :
    Machine (Except EvalError α × Context) := do
  let saved := (← get).context
  modify fun w ↦ { w with context }
  let result ← attempt act
  let after := (← get).context
  modify fun w ↦ { w with context := saved }
  return (result, after)

/-- Run an action inside an invocation.  A failure that leaves it is stamped with the call stack.  At the
limit of the stack the action is not run, and what it would have taken over is given up. -/
@[inline] def withInvocation (i : Invocation) (held : List Ref) (act : Machine α) : Machine α := do
  match (← get).callStack.push i with
  | .error e =>
    releaseAll held
    raise e
  | .ok callStack =>
    modify fun w ↦ { w with callStack }
    let result ← attempt act
    let stack := (← get).callStack
    modify fun w ↦ { w with callStack := w.callStack.pop }
    match result with
    | .ok a => return a
    | .error e => raise (stack.attach e)

end Machine

end MindScript
