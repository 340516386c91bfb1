import MindScript.Class.Member
import MindScript.Heap.Store

/-!
# Coroutine frames

A frame is a coroutine that can still run.  Between steps it is plain data: the context it runs in and
its body.  The body of a scripted coroutine is a continuation, a stack of tasks with a stack of values; a
native one is polled; a concurrent group watches its branches.
-/

namespace MindScript

/-- Where running code finds its nodes, its locals and its receiver. -/
structure Context where
  arena : Arena
  env : Environment
  this : Ref
  /-- The class that declares the running member. -/
  thisClass : ClassId
  deriving Inhabited

def Context.links (c : Context) : List Link := c.env.links ++ [.object c.this]

/-- What a suspended frame waits for. -/
inductive Wake where
  /-- The next tick. -/
  | tick
  /-- The first tick at which the clock has reached this time. -/
  | atTime (time : Float)
  /-- An event of this name. -/
  | event (name : String)
  /-- The end of another frame. -/
  | frame (handle : Handle)
  /-- A decision by the frame's children. -/
  | children
  deriving Inhabited

def Wake.links : Wake → List Link
  | .frame h => [.outcome h.outcome]
  | .tick | .atTime _ | .event _ | .children => []

/-- An operation on operands that have been evaluated. -/
inductive Apply where
  | bind (name : String)
  | assign (name : String)
  | binary (op : BinaryOp)
  | unary (op : UnaryOp)
  | method (hasReceiver : Bool) (name : String) (args : Span) (qualifier : Option String)
  | coroutine (hasReceiver : Bool) (name : String) (args : Span) (qualifier : Option String)
  | invoke (args : Span)
  | instantiate (className : String) (args : Span)
  | list (itemClass : String) (length : Nat)
  | loopExit
  deriving Inhabited

inductive Task where
  | eval (id : ExprId)
  /-- Drop the value of an expression of a block that is not the last. -/
  | discard
  | popScope
  | apply (op : Apply)
  | shortCircuit (op : BinaryOp) (right : ExprId)
  /-- The right operand of `and` or `or` must be a Boolean. -/
  | checkBool
  /-- The test of clause `next` is on the value stack. -/
  | cond (clauses : Span) (next : Nat) (otherwise : Option ExprId)
  /-- Start the next round.  Depth and height are those of the scope and value stacks outside. -/
  | loop (body : ExprId) (depth height : Nat)
  /-- The end of a guarded body.  Depth and height are those of the scope and value stacks outside. -/
  | guarded (errorName : String) (handler : ExprId) (depth height : Nat)
  | await (handle : Handle)
  deriving Inhabited

def Task.links : Task → List Link
  | .await h => [.outcome h.outcome]
  | _ => []

/-- The rest of a scripted body: tasks to do, the next one first, and the values computed so far. -/
structure Continuation where
  tasks : List Task
  values : Stack Ref := .empty
  deriving Inhabited

namespace Continuation

def new (body : ExprId) : Continuation := { tasks := [.eval body] }

def links (k : Continuation) : List Link :=
  k.tasks.reverse.flatMap Task.links ++ k.values.toList.map .object

end Continuation

/-- A concurrent group: it starts its branches in its first step and then watches them. -/
structure Group where
  policy : Policy
  branches : Span
  handles : Array Handle := #[]
  deriving Inhabited

inductive FrameBody where
  | script (rest : Continuation)
  | native (code : NativeCoroutine) (args : List Ref) (state : Option Stored)
  | group (g : Group)

instance : Inhabited FrameBody := ⟨.script default⟩

def FrameBody.links : FrameBody → List Link
  | .script k => k.links
  | .native _ args _ => args.map .object
  | .group g => g.handles.toList.map fun h ↦ .outcome h.outcome

structure Frame where
  context : Context
  body : FrameBody
  /-- Completed steps. -/
  updateCount : Nat := 0
  /-- Clock of the Mind when the frame was registered. -/
  startedAt : Float := 0
  deriving Inhabited

namespace Frame

def script (context : Context) (body : ExprId) : Frame :=
  { context, body := .script (.new body) }

def links (f : Frame) : List Link := f.context.links ++ f.body.links

/-- The frame is as a call makes it: it has made no step, a script has all of its body to do, and a group has started no
branch. -/
structure Fresh (f : Frame) : Prop where
  updateCount : f.updateCount = 0
  tasks : ∀ k, f.body = .script k → ∃ body, k = .new body
  handles : ∀ g, f.body = .group g → g.handles = #[]

namespace Fresh

theorem script (context : Context) (body : ExprId) : (Frame.script context body).Fresh :=
  ⟨rfl, fun _ hk ↦ ⟨body, (FrameBody.script.inj hk).symm⟩, fun _ hg ↦ by cases hg⟩

theorem native (context : Context) (code : NativeCoroutine) (args : List Ref) :
    Fresh { context, body := .native code args none } :=
  ⟨rfl, fun _ hk ↦ (by cases hk), fun _ hg ↦ by cases hg⟩

theorem group (context : Context) (policy : Policy) (branches : Span) :
    Fresh { context, body := .group { policy, branches } } :=
  ⟨rfl, fun _ hk ↦ (by cases hk), fun _ hg ↦ by cases hg; rfl⟩

end Fresh

end Frame

/-- A registered frame and what its Mind knows of it. -/
structure FrameEntry where
  handle : Handle
  /-- The class whose member the frame runs. -/
  owner : ClassId
  this : Ref
  /-- The frame that this one is a sub-invocation of; it takes its children with it when it ends. -/
  parent : Option FrameId
  children : Array FrameId := #[]
  /-- Frames of the same Mind that are suspended until this one ends. -/
  waiters : Array FrameId := #[]
  wake : Option Wake := none
  /-- Payload of an event that the frame waited for. -/
  delivered : Option Ref := none
  /-- Taken out while the frame runs, and gone once it has finished. -/
  frame : Option Frame
  stopRequested : Bool := false
  updateInterval : Float := 0
  nextUpdate : Float := 0
  /-- The tick in which the frame last suspended. -/
  suspendedTick : Nat := 0
  deriving Inhabited

namespace FrameEntry

def links (e : FrameEntry) : List Link :=
  [.outcome e.handle.outcome, .object e.this] ++ (e.wake.map Wake.links).getD []
    ++ e.delivered.toList.map .object ++ (e.frame.map Frame.links).getD []

/-- The entry of a frame that has been taken out for a step. -/
def taken (e : FrameEntry) : FrameEntry := { e with frame := none, delivered := none, wake := none }

/-- The entry of a frame that has just finished. -/
def settled (e : FrameEntry) : FrameEntry :=
  { e with frame := none, wake := none, delivered := none, parent := none, waiters := #[] }

/-- The entry without one of its children. -/
def without (e : FrameEntry) (child : FrameId) : FrameEntry :=
  { e with children := e.children.erase child }

end FrameEntry

end MindScript
