import MindScript.Expr.Arena

/-!
# Building expressions

A builder is a computation that adds nodes to an arena and may run out of room.  Children are built
first and handed to their parents by position.
-/

namespace MindScript

/-- A computation that extends an arena. -/
abbrev Builder := StateT Arena (Except Arena.Overflow)

namespace Builder

/-- Store one node. -/
def node (n : Node) : Builder ExprId := fun a ↦ a.alloc n

def listSpan (ids : List ExprId) : Builder Span := fun a ↦ a.pushList ids

def argSpan (args : List CallArg) : Builder Span := fun a ↦ a.pushArgs args

def clauseSpan (clauses : List Clause) : Builder Span := fun a ↦ a.pushClauses clauses

/-- Store a parameter list. -/
def params (ps : List Param) : Builder Span := fun a ↦ a.pushParams ps

/-- Store an argument list without names. -/
def positional (args : List ExprId) : Builder Span :=
  argSpan (args.map fun value ↦ ⟨none, value⟩)

def nil : Builder ExprId := node .nil

def bool (value : Bool) : Builder ExprId := node (.bool value)

def int (value : Int64) : Builder ExprId := node (.int value)

def real (bits : UInt64) : Builder ExprId := node (.real bits)

def str (text : String) : Builder ExprId := node (.str text)

def sym (name : String) : Builder ExprId := node (.sym name)

def this : Builder ExprId := node .this

def ident (name : String) : Builder ExprId := node (.ident name)

def bind (name : String) (init : ExprId) : Builder ExprId := node (.bind name init)

def assign (name : String) (value : ExprId) : Builder ExprId := node (.assign name value)

def binary (op : BinaryOp) (left right : ExprId) : Builder ExprId := node (.binary op left right)

def unary (op : UnaryOp) (operand : ExprId) : Builder ExprId := node (.unary op operand)

/-- A method call; the qualifier, if any, is the class at which dispatch starts. -/
def call (receiver : Option ExprId) (method : String) (args : List ExprId)
    (qualifier : Option String) : Builder ExprId := do
  node (.methodCall receiver method (← positional args) qualifier)

/-- A method call with positional and named arguments. -/
def callNamed (receiver : Option ExprId) (method : String) (args : List CallArg) :
    Builder ExprId := do
  node (.methodCall receiver method (← argSpan args) none)

/-- A coroutine call; the qualifier, if any, is the class at which dispatch starts. -/
def coroutine (receiver : Option ExprId) (name : String) (args : List ExprId)
    (qualifier : Option String) : Builder ExprId := do
  node (.coroutineCall receiver name (← positional args) qualifier)

def invoke (callee : ExprId) (args : List ExprId) : Builder ExprId := do
  node (.invoke callee (← positional args))

def instantiate (className : String) (args : List ExprId) : Builder ExprId := do
  node (.instantiate className (← positional args))

def conditional (clauses : List Clause) (otherwise : Option ExprId) : Builder ExprId := do
  node (.conditional (← clauseSpan clauses) otherwise)

def block (items : List ExprId) : Builder ExprId := do
  node (.block (← listSpan items))

def loop (body : ExprId) : Builder ExprId := node (.loop body)

def loopExit (value : Option ExprId) : Builder ExprId := node (.loopExit value)

def guarded (body : ExprId) (errorName : String) (handler : ExprId) : Builder ExprId :=
  node (.guarded body errorName handler)

def closure (params : Span) (body : ExprId) (kind : CallableKind) : Builder ExprId :=
  node (.closure params body kind)

def list (itemClass : String) (items : List ExprId) : Builder ExprId := do
  node (.list itemClass (← listSpan items))

def branch (body : ExprId) : Builder ExprId := node (.branch body)

def concurrent (policy : Policy) (branches : List ExprId) : Builder ExprId := do
  node (.concurrent policy (← listSpan branches))

/-- Run a builder on an empty arena. -/
def build {α : Type} (b : Builder α) : Except Arena.Overflow (α × Arena) := b.run {}

end Builder

end MindScript
