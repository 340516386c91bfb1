import MindScript.Machine.CoreMembers
import MindScript.Machine.Eval

/-!
# Resumable evaluation

A scripted coroutine body runs on two stacks, one of tasks and one of values, so that it can stop between
any two tasks.  Only nodes that may suspend are taken apart into tasks; all others are evaluated at once.
The tasks for the operands of a node are pushed so that they run left to right, and each leaves one value.

An error unwinds the task stack to the construct that handles it: a loop exit to the innermost loop, a
failure to the innermost guard.
-/

namespace MindScript

/-- How a task ended. -/
inductive Progress where
  | running
  | suspend (wake : Wake)
  | failed (e : EvalError)
  deriving Inhabited

namespace Continuation

def push (k : Continuation) (value : Ref) : Continuation := { k with values := k.values.push value }

/-- Push tasks so that they run in the order given. -/
def todo (k : Continuation) (tasks : List Task) : Continuation := { k with tasks := tasks ++ k.tasks }

def height (k : Continuation) : Nat := k.values.height

end Continuation

namespace Machine

/-! ### The value stack -/

/-- Take the topmost value; an empty stack gives nil. -/
def popValue (k : Continuation) : Machine (Ref × Continuation) := do
  match k.values.top? with
  | some value => return (value, { k with values := k.values.pop })
  | none => return (← nil, k)

/-- Take the topmost values, the one pushed first in front. -/
def popValues (k : Continuation) (n : Nat) : List Ref × Continuation :=
  (k.values.topmost n, { k with values := k.values.drop n })

/-- Take the values of arguments and give them their names. -/
def popArgs (k : Continuation) (args : List CallArg) : ArgValues × Continuation :=
  let (values, k) := popValues k args.length
  ((args.map CallArg.name).zip values, k)

/-- Give up the values above a height. -/
def cutValues (k : Continuation) (height : Nat) : Machine Continuation := do
  let extra := k.height - height
  releaseAll (k.values.topmost extra)
  return { k with values := k.values.drop extra }

/-! ### Tasks -/

/-- Push the value of an action, or fail with its error. -/
def yieldValue (k : Continuation) (act : Machine Ref) : Machine (Continuation × Progress) := do
  match ← attempt act with
  | .ok value => return (k.push value, .running)
  | .error e => return (k, .failed e)

/-- Go on with the result of a coroutine, or suspend until it has finished.  Takes the handle over. -/
def awaitFrame (k : Continuation) (h : Handle) : Machine (Continuation × Progress) := do
  let w ← get
  match w.status h with
  | .completed =>
    let value ← shareOrNil (w.heap.outcome h.outcome).result
    releaseLinks [.outcome h.outcome]
    return (k.push value, .running)
  | .stopped =>
    let value ← nil
    releaseLinks [.outcome h.outcome]
    return (k.push value, .running)
  | .failed =>
    let e := (w.heap.outcome h.outcome).error.getD (.custom "awaited coroutine failed")
    releaseLinks [.outcome h.outcome]
    return (k, .failed e)
  | .pending | .running | .suspended =>
    retainLink (.outcome h.outcome)
    return (k.todo [.await h], .suspend (.frame h))

/-- Go on with what a call led to. -/
def awaitInvoked (k : Continuation) (act : Machine Invoked) : Machine (Continuation × Progress) := do
  match ← attempt act with
  | .ok (.done value) => return (k.push value, .running)
  | .ok (.running h) => awaitFrame k h
  | .error e => return (k, .failed e)

/-- Go on to a clause of a conditional, or to what stands after the last one. -/
def nextClause (arena : Arena) (k : Continuation) (clauses : Span) (next : Nat)
    (otherwise : Option ExprId) : Machine (Continuation × Progress) := do
  match (arena.clausesAt clauses)[next]?, otherwise with
  | some clause, _ =>
    return (k.todo [.eval clause.test, .cond clauses next otherwise], .running)
  | none, some e => return (k.todo [.eval e], .running)
  | none, none => return (k.push (← nil), .running)

/-- Tasks for the expressions of a block: between two of them the value of the first is dropped. -/
def blockTasks : List ExprId → List Task
  | [] => []
  | [e] => [.eval e]
  | e :: rest => .eval e :: .discard :: blockTasks rest

def argTasks (args : List CallArg) : List Task := args.map fun arg ↦ .eval arg.value

def receiverTasks (receiver : Option ExprId) : List Task := receiver.toList.map .eval

/-- Take a node that may suspend apart. -/
def decompose (E : Engine) (arena : Arena) (k : Continuation) (id : ExprId) :
    Machine (Continuation × Progress) := do
  match arena.node id with
  | .bind name init => return (k.todo [.eval init, .apply (.bind name)], .running)
  | .assign name value => return (k.todo [.eval value, .apply (.assign name)], .running)
  | .binary op left right =>
    if op.isShortCircuit then return (k.todo [.eval left, .shortCircuit op right], .running)
    else return (k.todo [.eval left, .eval right, .apply (.binary op)], .running)
  | .unary op operand => return (k.todo [.eval operand, .apply (.unary op)], .running)
  | .methodCall receiver method args qualifier =>
    let op := Apply.method receiver.isSome method args qualifier
    return (k.todo (receiverTasks receiver ++ argTasks (arena.argsAt args) ++ [.apply op]), .running)
  | .coroutineCall receiver coroutine args qualifier =>
    let op := Apply.coroutine receiver.isSome coroutine args qualifier
    return (k.todo (receiverTasks receiver ++ argTasks (arena.argsAt args) ++ [.apply op]), .running)
  | .invoke callee args =>
    return (k.todo (.eval callee :: argTasks (arena.argsAt args) ++ [.apply (.invoke args)]), .running)
  | .instantiate className args =>
    return (k.todo (argTasks (arena.argsAt args) ++ [.apply (.instantiate className args)]), .running)
  | .list itemClass items =>
    let op := Apply.list itemClass items.length
    return (k.todo ((arena.listAt items).map Task.eval ++ [.apply op]), .running)
  | .conditional clauses otherwise => nextClause arena k clauses 0 otherwise
  | .block items =>
    if (arena.listAt items).isEmpty then return (k.push (← nil), .running)
    else
      pushScope
      return (k.todo (blockTasks (arena.listAt items) ++ [.popScope]), .running)
  | .loop body =>
    let depth := (← get).context.env.depth
    return (k.todo [.eval body, .loop body depth k.height], .running)
  | .loopExit (some value) => return (k.todo [.eval value, .apply .loopExit], .running)
  | .guarded body errorName handler =>
    let depth := (← get).context.env.depth
    return (k.todo [.eval body, .guarded errorName handler depth k.height], .running)
  | .concurrent policy branches => awaitInvoked k (.running <$> spawnGroup E policy branches)
  | _ => yieldValue k (E.eval id)

/-- The receiver of a call: the topmost value, or `this`. -/
def popReceiver (k : Continuation) (hasReceiver : Bool) : Machine (Ref × Continuation) := do
  if hasReceiver then popValue k else return (← share (← get).context.this, k)

/-- Apply an operation to its operands on the value stack. -/
def applyOp (E : Engine) (arena : Arena) (k : Continuation) (op : Apply) :
    Machine (Continuation × Progress) := do
  match op with
  | .bind name =>
    let (value, k) ← popValue k
    retain value
    define name value
    return (k.push value, .running)
  | .assign name =>
    let (value, k) ← popValue k
    yieldValue k do
      retain value
      elseRelease (assignVariable name value) [value]
      return value
  | .binary op =>
    let (right, k) ← popValue k
    let (left, k) ← popValue k
    yieldValue k (binaryOp E op left right)
  | .unary op =>
    let (operand, k) ← popValue k
    yieldValue k (unaryOp E op operand)
  | .method hasReceiver name args qualifier =>
    let (values, k) := popArgs k (arena.argsAt args)
    let (receiver, k) ← popReceiver k hasReceiver
    yieldValue k (callMethod E receiver name qualifier values)
  | .coroutine hasReceiver name args qualifier =>
    let (values, k) := popArgs k (arena.argsAt args)
    let (receiver, k) ← popReceiver k hasReceiver
    awaitInvoked k (callCoroutine E receiver name qualifier values)
  | .invoke args =>
    let (values, k) := popArgs k (arena.argsAt args)
    let (callee, k) ← popValue k
    let result ← awaitInvoked k (callClosure E callee values)
    release callee
    return result
  | .instantiate className args =>
    let (values, k) := popArgs k (arena.argsAt args)
    yieldValue k (instantiate E className values)
  | .list itemClass length =>
    let (items, k) := popValues k length
    yieldValue k (listNamed itemClass items)
  | .loopExit =>
    let (value, k) ← popValue k
    return (k, .failed (.loopExit value))

/-- Take the topmost value, which must be a Boolean and is given up. -/
def popTruth (k : Continuation) : Machine (Except EvalError Bool × Continuation) := do
  let (value, k) ← popValue k
  return (← attempt (thenRelease (expectBool value) [value]), k)

/-- Carry out one task, which has been taken off the stack. -/
def runTask (E : Engine) (arena : Arena) (k : Continuation) (task : Task) :
    Machine (Continuation × Progress) := do
  match task with
  | .eval id => if arena.isDurational id then decompose E arena k id else yieldValue k (E.eval id)
  | .discard =>
    releaseAll k.values.top?.toList
    return ({ k with values := k.values.pop }, .running)
  | .popScope =>
    popScope
    return (k, .running)
  | .apply op => applyOp E arena k op
  | .shortCircuit op right =>
    match ← popTruth k with
    | (.error e, k) => return (k, .failed e)
    | (.ok decided, k) =>
      if (op == .and) != decided then return (k.push (← boolean decided), .running)
      else return (k.todo [.eval right, .checkBool], .running)
  | .checkBool =>
    match ← popTruth k with
    | (.error e, k) => return (k, .failed e)
    | (.ok b, k) => return (k.push (← boolean b), .running)
  | .cond clauses next otherwise =>
    match ← popTruth k with
    | (.error e, k) => return (k, .failed e)
    | (.ok true, k) =>
      return (k.todo (((arena.clausesAt clauses)[next]?).toList.map fun c ↦ .eval c.body), .running)
    | (.ok false, k) => nextClause arena k clauses (next + 1) otherwise
  | .loop body depth height =>
    let k ← cutValues k height
    return (k.todo [.eval body, .loop body depth height], .running)
  | .guarded _ _ _ _ => return (k, .running)
  | .await h => awaitFrame k h

/-! ### Unwinding -/

/-- Go down the task stack to the construct that handles an error.  Without one the error is given
back, with both stacks empty. -/
def unwind (values : Stack Ref) (e : EvalError) : List Task → Machine (Continuation × Option EvalError)
  | [] => do
    releaseAll values.toList
    return ({ tasks := [] }, some e)
  | task :: rest => do
    match task with
    | .popScope =>
      popScope
      unwind values e rest
    | .loop _ depth height =>
      match e.exit with
      | some value =>
        truncateScopes depth
        let k ← cutValues { tasks := rest, values } height
        return (k.push value, none)
      | none => unwind values e rest
    | .guarded errorName handler depth height =>
      if e.isLoopExit then unwind values e rest
      else
        truncateScopes depth
        let k ← cutValues { tasks := rest, values } height
        pushScope
        define errorName (← string e.message)
        return (k.todo [.eval handler, .popScope], none)
    | .await h =>
      releaseLinks [.outcome h.outcome]
      unwind values e rest
    | _ => unwind values e rest

/-! ### Running -/

/-- Carry out tasks until the body completes, suspends or fails. -/
def runTasks (E : Engine) (arena : Arena) :
    Nat → Continuation → Machine (Continuation × Except EvalError Step)
  | 0, _ => exhausted
  | n + 1, k => do
    match k.tasks with
    | [] =>
      let (result, k) ← popValue k
      releaseAll k.values.toList
      return ({ tasks := [] }, .ok (.done result))
    | task :: rest =>
      match ← runTask E arena { k with tasks := rest } task with
      | (k, .running) => runTasks E arena n k
      | (k, .suspend wake) => return (k, .ok (.suspend wake))
      | (k, .failed e) =>
        match ← unwind k.values e k.tasks with
        | (k, none) => runTasks E arena n k
        | (k, some e) => return (k, .error e)

/-- Run the rest of a body in the running context. -/
def runContinuation (E : Engine) (k : Continuation) :
    Machine (Continuation × Except EvalError Step) := do
  runTasks E (← get).context.arena E.budget k

end Machine

end MindScript
