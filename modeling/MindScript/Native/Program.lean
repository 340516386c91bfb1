import MindScript.Error
import MindScript.View
import MindScript.Expr.Arena

/-!
# Host members as programs

A member that the host supplies is a program: a tree of requests to the interpreter, each followed by
what to do with the reply.  A program names values by register.  Register 0 is the receiver, the next
ones are the arguments, and each request that yields a value appends one; so a program can neither
forge a reference nor keep one beyond its run.
-/

namespace MindScript

/-- A register of a running program. -/
abbrev Reg := Nat

/-- A value that is written down rather than computed. -/
inductive Literal where
  | nil
  | boolean (value : Bool)
  | integer (value : Int64)
  | real (value : Float)
  | text (value : String)
  | symbol (name : String)
  deriving Inhabited

/-- What a program can tell about a value. -/
inductive Shape where
  | boolean (value : Bool)
  | integer (value : Int64)
  | real (value : Float)
  | text (value : String)
  | symbol (name : String)
  | coroutine
  | other
  deriving Inhabited

/-- What a polled coroutine keeps from one step to the next. -/
inductive Stored where
  | integer (value : Int64)
  | text (value : String)
  /-- A live position in the receiver's items. -/
  | cursor (number : Nat)
  deriving Inhabited

/-- What a program can ask of the interpreter. -/
inductive Request where
  | literal (value : Literal)
  | inspect (value : Reg)
  | journal (line : Line Reg)
  | defaultMind
  | createMind (name : String)
  | classNamed (name : String)
  | callDepth
  | pendingDestructors
  | collectGarbage
  | liveCount (mind : MindId)
  | update (mind : MindId) (elapsed : Float)
  | notify (mind : MindId) (event : String) (payload : Reg)
  | stop (handle : Reg)
  | stopAll (mind : MindId)
  | stopFor (target : Reg)
  | suspendMind (mind : MindId)
  | resumeMind (mind : MindId)
  | setUpdateInterval (handle : Reg) (seconds : Float)
  | startCoroutine (target : Reg) (member : String) (args : List Reg) (mind : MindId)
      (deferred : Bool)
  | invokeMethod (target : Reg) (member : String) (args : List Reg)
  | newInstance (c : ClassId) (args : List Reg)
  | evaluate (arena : Arena) (root : ExprId)
  | takeDelivered
  | takeState
  | setState (state : Stored)

/-- The type of the reply to a request. -/
def Request.Reply : Request → Type
  | .literal _ => Reg
  | .inspect _ => Shape
  | .defaultMind => Option MindId
  | .createMind _ => MindId
  | .classNamed _ => Option ClassId
  | .callDepth | .pendingDestructors | .collectGarbage | .liveCount _ | .update _ _
  | .notify _ _ _ => Nat
  | .startCoroutine _ _ _ _ _ | .invokeMethod _ _ _ | .newInstance _ _ | .evaluate _ _ =>
    Except EvalError Reg
  | .takeDelivered => Option Reg
  | .takeState => Option Stored
  | .journal _ | .stop _ | .stopAll _ | .stopFor _ | .suspendMind _ | .resumeMind _
  | .setUpdateInterval _ _ | .setState _ => Unit

/-- A tree of requests that ends in a result or an error. -/
inductive Program (α : Type) where
  | done (result : Except EvalError α)
  | request (op : Request) (next : op.Reply → Program α)

namespace Program

variable {α β : Type}

def bind : Program α → (α → Program β) → Program β
  | done (.ok a), f => f a
  | done (.error e), _ => done (.error e)
  | request op next, f => request op fun reply ↦ (next reply).bind f

instance : Monad Program where
  pure a := done (.ok a)
  bind := bind

/-- Make one request. -/
def ask (op : Request) : Program op.Reply := request op fun reply ↦ done (.ok reply)

/-- End with an error. -/
def fail (e : EvalError) : Program α := done (.error e)

def ofExcept (result : Except EvalError α) : Program α := done result

end Program

/-- What a coroutine waits for, in terms of the registers of its program. -/
inductive Waiting where
  | tick
  | atTime (time : Float)
  | event (name : String)
  | frame (handle : Reg)
  | children
  deriving Inhabited

/-- The outcome of one poll of a coroutine. -/
inductive Poll where
  | ready (value : Reg)
  | pending (wait : Waiting)
  deriving Inhabited

/-- The circumstances of one poll. -/
structure PollInfo where
  argCount : Nat
  /-- Completed steps before this one. -/
  updateCount : Nat
  startedAt : Float
  clock : Float
  mind : MindId
  frame : FrameId

namespace PollInfo

def isFirstStep (p : PollInfo) : Bool := p.updateCount == 0

end PollInfo

end MindScript
