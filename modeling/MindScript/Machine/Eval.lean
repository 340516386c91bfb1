import MindScript.Machine.Calls

/-!
# Immediate evaluation

Evaluation of one node to completion.  What would have to suspend is refused here; inside a coroutine the
continuation takes such nodes apart and leaves only their immediate pieces to this module.

Each function hands over the value it computes and restores the scopes of the running frame, also when it
fails.
-/

namespace MindScript.Machine

/-! ### Scopes -/

/-- Run an action in a scope of its own. -/
def inScope (act : Machine Ref) : Machine Ref := do
  pushScope
  let result ← attempt act
  popScope
  ofExcept result

/-- Run an action.  An error of the kind that is caught closes the scopes opened since and is handled. -/
def rescue (act : Machine Ref) (catches : EvalError → Bool) (handler : EvalError → Machine Ref) :
    Machine Ref := do
  let depth := (← get).context.env.depth
  match ← attempt act with
  | .ok value => return value
  | .error e =>
    if catches e then
      truncateScopes depth
      handler e
    else raise e

/-! ### Operands -/

/-- Arguments from left to right.  The values evaluated before a failure are given up. -/
def evalArgs (E : Engine) (done : ArgValues) : List CallArg → Machine ArgValues
  | [] => return done.reverse
  | arg :: rest => do
    let value ← elseRelease (E.eval arg.value) (done.reverse.map Prod.snd)
    evalArgs E ((arg.name, value) :: done) rest

/-- Expressions from left to right.  The values evaluated before a failure are given up. -/
def evalList (E : Engine) (done : List Ref) : List ExprId → Machine (List Ref)
  | [] => return done.reverse
  | e :: rest => do
    let value ← elseRelease (E.eval e) done.reverse
    evalList E (value :: done) rest

def evalReceiver (E : Engine) : Option ExprId → Machine Ref
  | some e => E.eval e
  | none => do share (← get).context.this

/-- An operand that must be a Boolean. -/
def evalTruth (E : Engine) (operand : ExprId) : Machine Ref := do
  let r ← E.eval operand
  let b ← elseRelease (expectBool r) [r]
  thenRelease (boolean b) [r]

/-! ### Kinds of nodes -/

/-- The right operand is evaluated only if the left one does not decide. -/
def evalShortCircuit (E : Engine) (op : BinaryOp) (left right : ExprId) : Machine Ref := do
  let l ← E.eval left
  let decided ← elseRelease (expectBool l) [l]
  if (op == .and) != decided then
    thenRelease (boolean decided) [l]
  else
    thenRelease (evalTruth E right) [l]

def evalMethodCall (E : Engine) (receiver : Option ExprId) (method : String) (args : List CallArg)
    (qualifier : Option String) : Machine Ref := do
  let target ← evalReceiver E receiver
  let values ← elseRelease (evalArgs E [] args) [target]
  callMethod E target method qualifier values

def evalInvoke (E : Engine) (callee : ExprId) (args : List CallArg) : Machine Ref := do
  let target ← E.eval callee
  let values ← elseRelease (evalArgs E [] args) [target]
  thenRelease (invokeClosureNow E target values) [target]

/-- The body of the first clause whose test holds. -/
def evalClauses (E : Engine) (otherwise : Option ExprId) : List Clause → Machine Ref
  | [] =>
    match otherwise with
    | some e => E.eval e
    | none => nil
  | clause :: rest => do
    let test ← E.eval clause.test
    if ← elseRelease (expectBool test) [test] then
      thenRelease (E.eval clause.body) [test]
    else
      release test
      evalClauses E otherwise rest

/-- Expressions in turn; each value is given up when the next one is there. -/
def evalSequence (E : Engine) (last : Ref) : List ExprId → Machine Ref
  | [] => return last
  | e :: rest => do
    let value ← elseRelease (E.eval e) [last]
    release last
    evalSequence E value rest

/-- A block has a scope of its own. -/
def evalBlock (E : Engine) (items : List ExprId) : Machine Ref := do
  if items.isEmpty then nil
  else
    inScope do evalSequence E (← nil) items

/-- Rounds of a loop, until one of them fails or exits. -/
def evalRounds (E : Engine) (body : ExprId) : Nat → Machine Ref
  | 0 => exhausted
  | n + 1 => do
    release (← E.eval body)
    evalRounds E body n

def evalLoop (E : Engine) (body : ExprId) : Machine Ref :=
  rescue (evalRounds E body E.budget) (fun _ ↦ true) fun e ↦
    match e.exit with
    | some value => return value
    | none => raise e

/-- The handler has a scope of its own, where the message is bound.  Loop exits pass through. -/
def evalGuarded (E : Engine) (body : ExprId) (errorName : String) (handler : ExprId) : Machine Ref :=
  rescue (E.eval body) (fun e ↦ !e.isLoopExit) fun e ↦
    inScope do
      define errorName (← string e.message)
      E.eval handler

/-- A closure over the running scope and receiver. -/
def makeClosure (params : Span) (body : ExprId) (kind : CallableKind) : Machine Ref := do
  let c := (← get).context
  retainLink (.scope c.env.innermost)
  retain c.this
  newValue Core.closure (.closure
    { kind, arena := c.arena, params, body, scope := c.env.innermost, this := c.this,
      thisClass := c.thisClass })

/-- Start a branch and yield its handle as a value. -/
def evalBranch (E : Engine) (body : ExprId) : Machine Ref := do
  let h ← spawnBranch E body
  let value ← handleValue h
  releaseLinks [.outcome h.outcome]
  return value

/-- Evaluate a node in the running context. -/
def evalNode (E : Engine) (id : ExprId) : Machine Ref := do
  let arena := (← get).context.arena
  match arena.node id with
  | .nil => nil
  | .bool b => boolean b
  | .int i => integer i
  | .real bits => real (Float.ofBits bits)
  | .str text => string text
  | .sym name => symbol name
  | .this => evalReceiver E none
  | .ident name => lookupVariable name
  | .bind name init =>
    let value ← E.eval init
    retain value
    define name value
    return value
  | .assign name value =>
    let value ← E.eval value
    retain value
    elseRelease (assignVariable name value) [value]
    return value
  | .binary op left right =>
    if op.isShortCircuit then evalShortCircuit E op left right
    else
      let l ← E.eval left
      let r ← elseRelease (E.eval right) [l]
      binaryOp E op l r
  | .unary op operand => unaryOp E op (← E.eval operand)
  | .methodCall receiver method args qualifier =>
    evalMethodCall E receiver method (arena.argsAt args) qualifier
  | .coroutineCall _ coroutine _ _ => raiseKind (.durationalInImmediate coroutine)
  | .invoke callee args => evalInvoke E callee (arena.argsAt args)
  | .instantiate className args => instantiate E className (← evalArgs E [] (arena.argsAt args))
  | .conditional clauses otherwise => evalClauses E otherwise (arena.clausesAt clauses)
  | .block items => evalBlock E (arena.listAt items)
  | .loop body => evalLoop E body
  | .loopExit value =>
    match value with
    | some e => raise (.loopExit (← E.eval e))
    | none => raise (.loopExit (← nil))
  | .guarded body errorName handler => evalGuarded E body errorName handler
  | .closure params body kind => makeClosure params body kind
  | .list itemClass items => listNamed itemClass (← evalList E [] (arena.listAt items))
  | .branch body => evalBranch E body
  | .concurrent policy _ => raiseKind (.durationalInImmediate policy.name)

end MindScript.Machine
