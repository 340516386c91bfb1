import MindScript.Heap.Sequence
import MindScript.Expr.Arena

/-!
# Heap cells

Three kinds of cells are shared by reference and counted: instances, scopes of local bindings, and the
outcomes of invoked coroutines.  A cell owns the links it holds; `links` lists them in the order in which
they are given up when the cell is freed.
-/

namespace MindScript

/-- Life of an invoked coroutine: pending, then running and suspended in turn, then one of the three
final states. -/
inductive FrameStatus where
  | pending
  | running
  | suspended
  | completed
  | stopped
  | failed
  deriving DecidableEq, Repr, Inhabited

namespace FrameStatus

def all : List FrameStatus := [pending, running, suspended, completed, stopped, failed]

def isFinished : FrameStatus → Bool
  | completed | stopped | failed => true
  | pending | running | suspended => false

def name : FrameStatus → String
  | pending => "pending"
  | running => "running"
  | suspended => "suspended"
  | completed => "completed"
  | stopped => "stopped"
  | failed => "failed"

/-- The status as diagnostics write it. -/
def title : FrameStatus → String
  | pending => "Pending"
  | running => "Running"
  | suspended => "Suspended"
  | completed => "Completed"
  | stopped => "Stopped"
  | failed => "Failed"

end FrameStatus

/-- An observer of one invoked coroutine.  The outcome stays readable when the frame is gone. -/
structure Handle where
  mind : MindId
  frame : FrameId
  /-- Name of the member, or of the anonymous body, that the frame runs. -/
  name : String
  outcome : OutcomeId
  deriving DecidableEq, Repr, Inhabited

/-- A callable value: code together with the scope and the receiver it was written in.  The scope is
shared with the defining frame. -/
structure Closure where
  kind : CallableKind
  arena : Arena
  params : Span
  body : ExprId
  scope : ScopeId
  this : Ref
  thisClass : ClassId
  deriving Inhabited

/-- What an instance holds beside its slots. -/
inductive Payload where
  | plain
  | boolean (value : Bool)
  | integer (value : Int64)
  | real (value : Float)
  | text (value : String)
  | symbol (name : String)
  | list (items : Sequence)
  | closure (value : Closure)
  | classObject (c : ClassId)
  | coroutine (handle : Handle)
  deriving Inhabited

/-- The number that a payload stands for where Integers count as Reals. -/
def Payload.number? : Payload → Option Float
  | .integer i => some i.toFloat
  | .real x => some x
  | _ => none

/-- A counted reference. -/
inductive Link where
  | object (r : Ref)
  | scope (s : ScopeId)
  | outcome (o : OutcomeId)
  deriving DecidableEq, Repr, Inhabited

def Payload.links : Payload → List Link
  | .list s => s.items.toList.map .object
  | .closure c => [.scope c.scope, .object c.this]
  | .coroutine h => [.outcome h.outcome]
  | .plain | .boolean _ | .integer _ | .real _ | .text _ | .symbol _ | .classObject _ => []

/-- An instance. -/
structure Object where
  classId : ClassId
  payload : Payload
  slots : Array Ref := #[]
  /-- Number of references to the instance. -/
  count : Nat := 1
  /-- Whether the class declared a destructor when the instance was made. -/
  armed : Bool := false
  /-- Whether the destructor was scheduled, or given up because construction failed. -/
  destructed : Bool := false
  deriving Inhabited

def Object.links (o : Object) : List Link := o.payload.links ++ o.slots.toList.map .object

/-- One level of local bindings. -/
structure Scope where
  bindings : List (String × Ref) := []
  parent : Option ScopeId := none
  count : Nat := 1
  deriving Inhabited

def Scope.links (s : Scope) : List Link :=
  s.bindings.map (fun b ↦ .object b.2) ++ s.parent.toList.map .scope

/-- How an invoked coroutine stands, or how it ended. -/
structure Outcome where
  status : FrameStatus
  result : Option Ref := none
  error : Option EvalError := none
  count : Nat := 1
  deriving Inhabited

def Outcome.links (o : Outcome) : List Link := o.result.toList.map .object

end MindScript
