import Mathlib.Data.Nat.Notation
import MindScript.Expr.Builder

/-!
# Expression trees

What a builder can express, as a tree, with the two ways between trees and arenas: a tree is built bottom-up, and it is read
back from the position of its root.
-/

namespace MindScript

/-- An expression that a builder can express. -/
inductive Tree where
  | nil
  | bool (value : Bool)
  | int (value : Int64)
  | real (bits : UInt64)
  | str (text : String)
  | sym (name : String)
  | this
  | ident (name : String)
  | bind (name : String) (init : Tree)
  | assign (name : String) (value : Tree)
  | binary (op : BinaryOp) (left right : Tree)
  | unary (op : UnaryOp) (operand : Tree)
  | methodCall (receiver : Option Tree) (method : String) (args : List (Option String × Tree))
  | qualifiedCall (receiver : Option Tree) (className method : String) (args : List Tree)
  | coroutineCall (receiver : Option Tree) (coroutine : String) (args : List Tree) (qualifier : Option String)
  | invoke (callee : Tree) (args : List Tree)
  | instantiate (className : String) (args : List Tree)
  | conditional (clauses : List (Tree × Tree)) (otherwise : Option Tree)
  | block (items : List Tree)
  | loop (body : Tree)
  | loopExit (value : Option Tree)
  | guarded (body : Tree) (errorName : String) (handler : Tree)
  | closure (params : List (String × Option String × Option Tree)) (body : Tree) (kind : CallableKind)
  | list (itemClass : String) (items : List Tree)
  | branch (body : Tree)
  | concurrent (policy : Policy) (branches : List Tree)

/-- A call with positional arguments is one whose arguments have no names. -/
theorem Builder.call_eq_callNamed (receiver : Option ExprId) (method : String) (args : List ExprId) :
    Builder.call receiver method args none = Builder.callNamed receiver method (args.map fun value ↦ ⟨none, value⟩) := rfl

namespace Tree

/-! ### Building -/

mutual

/-- Build a tree, each child before its parent and children from left to right. -/
def build : Tree → Builder ExprId
  | nil => Builder.nil
  | bool value => Builder.bool value
  | int value => Builder.int value
  | real bits => Builder.real bits
  | str text => Builder.str text
  | sym name => Builder.sym name
  | this => Builder.this
  | ident name => Builder.ident name
  | bind name init => do Builder.bind name (← build init)
  | assign name value => do Builder.assign name (← build value)
  | binary op left right => do
    let left ← build left
    Builder.binary op left (← build right)
  | unary op operand => do Builder.unary op (← build operand)
  | methodCall receiver method args => do
    let receiver ← buildOption receiver
    Builder.callNamed receiver method (← buildArgs args)
  | qualifiedCall receiver className method args => do
    let receiver ← buildOption receiver
    Builder.call receiver method (← buildAll args) (some className)
  | coroutineCall receiver coroutine args qualifier => do
    let receiver ← buildOption receiver
    Builder.coroutine receiver coroutine (← buildAll args) qualifier
  | invoke callee args => do
    let callee ← build callee
    Builder.invoke callee (← buildAll args)
  | instantiate className args => do Builder.instantiate className (← buildAll args)
  | conditional clauses otherwise => do
    let clauses ← buildClauses clauses
    Builder.conditional clauses (← buildOption otherwise)
  | block items => do Builder.block (← buildAll items)
  | loop body => do Builder.loop (← build body)
  | loopExit value => do Builder.loopExit (← buildOption value)
  | guarded body errorName handler => do
    let body ← build body
    Builder.guarded body errorName (← build handler)
  | closure params body kind => do
    let params ← Builder.params (← buildParams params)
    Builder.closure params (← build body) kind
  | list itemClass items => do Builder.list itemClass (← buildAll items)
  | branch body => do Builder.branch (← build body)
  | concurrent policy branches => do Builder.concurrent policy (← buildAll branches)

def buildOption : Option Tree → Builder (Option ExprId)
  | none => return none
  | some t => return some (← build t)

def buildAll : List Tree → Builder (List ExprId)
  | [] => return []
  | t :: ts => do
    let id ← build t
    return id :: (← buildAll ts)

def buildArgs : List (Option String × Tree) → Builder (List CallArg)
  | [] => return []
  | (name, t) :: args => do
    let value ← build t
    return ⟨name, value⟩ :: (← buildArgs args)

def buildClauses : List (Tree × Tree) → Builder (List Clause)
  | [] => return []
  | (test, body) :: clauses => do
    let test ← build test
    let body ← build body
    return ⟨test, body⟩ :: (← buildClauses clauses)

def buildParams : List (String × Option String × Option Tree) → Builder (List Param)
  | [] => return []
  | (name, className, default) :: params => do
    let default ← buildOption default
    return ⟨name, className, default⟩ :: (← buildParams params)

end

/-! ### Room -/

mutual

/-- The subtrees of a tree other than itself. -/
def inner : Tree → List Tree
  | nil | bool _ | int _ | real _ | str _ | sym _ | this | ident _ => []
  | bind _ t | assign _ t | unary _ t | loop t | branch t => t :: inner t
  | binary _ left right => left :: inner left ++ right :: inner right
  | methodCall receiver _ args => innerOption receiver ++ innerArgs args
  | qualifiedCall receiver _ _ args | coroutineCall receiver _ args _ => innerOption receiver ++ innerAll args
  | invoke callee args => callee :: inner callee ++ innerAll args
  | instantiate _ ts | block ts | list _ ts | concurrent _ ts => innerAll ts
  | conditional clauses otherwise => innerClauses clauses ++ innerOption otherwise
  | loopExit value => innerOption value
  | guarded body _ handler => body :: inner body ++ handler :: inner handler
  | closure params body _ => innerParams params ++ body :: inner body

def innerOption : Option Tree → List Tree
  | none => []
  | some t => t :: inner t

def innerAll : List Tree → List Tree
  | [] => []
  | t :: ts => t :: inner t ++ innerAll ts

def innerArgs : List (Option String × Tree) → List Tree
  | [] => []
  | (_, t) :: args => t :: inner t ++ innerArgs args

def innerClauses : List (Tree × Tree) → List Tree
  | [] => []
  | (test, body) :: clauses => test :: inner test ++ body :: inner body ++ innerClauses clauses

def innerParams : List (String × Option String × Option Tree) → List Tree
  | [] => []
  | (_, _, default) :: params => innerOption default ++ innerParams params

end

def subtrees (t : Tree) : List Tree := t :: t.inner

end Tree

/-- The tables of an arena. -/
inductive Table where
  | nodes | lists | args | params | clauses
  deriving DecidableEq, Repr

/-- The number of entries of a table. -/
def Arena.count (a : Arena) : Table → ℕ
  | .nodes => a.nodes.size
  | .lists => a.lists.size
  | .args => a.args.size
  | .params => a.params.size
  | .clauses => a.clauses.size

/-- So many entries of one table, and none of the others. -/
def Table.tally (τ : Table) (n : ℕ) (σ : Table) : ℕ := if σ = τ then n else 0

namespace Tree

/-- The table and the length of the list that the root of a tree stores. -/
def list? : Tree → Option (Table × ℕ)
  | methodCall _ _ args => some (.args, args.length)
  | qualifiedCall _ _ _ args | coroutineCall _ _ args _ | invoke _ args | instantiate _ args => some (.args, args.length)
  | conditional clauses _ => some (.clauses, clauses.length)
  | closure params _ _ => some (.params, params.length)
  | block items | list _ items | concurrent _ items => some (.lists, items.length)
  | _ => none

/-- The list that the root of a tree stores is no longer than a span can be. -/
def Fits (t : Tree) : Prop := ∀ τ n, t.list? = some (τ, n) → n ≤ Arena.maxList

/-- No list in the tree is longer than a span can be. -/
def Short (t : Tree) : Prop := ∀ s ∈ t.subtrees, s.Fits

/-- The entries of a table that the root of a tree takes. -/
def own (t : Tree) (τ : Table) : ℕ := (t.list?.elim 0 fun l ↦ l.1.tally l.2 τ) + Table.nodes.tally 1 τ

/-- The entries of a table that the roots of trees take. -/
def taken (ts : List Tree) (τ : Table) : ℕ := ts.foldr (fun t n ↦ t.own τ + n) 0

/-- The entries of a table that a tree takes. -/
def entries (t : Tree) : Table → ℕ := taken t.subtrees

end Tree

/-! ### Reading -/

namespace Arena

/-- The entries of a side table that a span names, provided that all of them are there. -/
def slice? {α : Type} (table : Array α) (s : Span) : Option (List α) :=
  if s.start + s.length ≤ table.size then some (slice table s) else none

/-- The child positions that a node stores. -/
def children? (a : Arena) : Node → Option (List ExprId)
  | .nil | .bool _ | .int _ | .real _ | .str _ | .sym _ | .this | .ident _ => some []
  | .bind _ e | .assign _ e | .unary _ e | .loop e | .branch e => some [e]
  | .binary _ left right => some [left, right]
  | .methodCall receiver _ args _ | .coroutineCall receiver _ args _ => do
    return receiver.toList ++ (← slice? a.args args).map CallArg.value
  | .invoke callee args => do return callee :: (← slice? a.args args).map CallArg.value
  | .instantiate _ args => do return (← slice? a.args args).map CallArg.value
  | .conditional clauses otherwise => do
    return ((← slice? a.clauses clauses).flatMap fun c ↦ [c.test, c.body]) ++ otherwise.toList
  | .block items | .list _ items | .concurrent _ items => slice? a.lists items
  | .loopExit value => some value.toList
  | .guarded body _ handler => some [body, handler]
  | .closure params body _ => do return (← slice? a.params params).filterMap Param.default ++ [body]

/-- The tree of a node, where `read` gives the trees of its children. -/
@[simp] def expand (a : Arena) (read : ExprId → Option Tree) : Node → Option Tree
  | .nil => some .nil
  | .bool value => some (.bool value)
  | .int value => some (.int value)
  | .real bits => some (.real bits)
  | .str text => some (.str text)
  | .sym name => some (.sym name)
  | .this => some .this
  | .ident name => some (.ident name)
  | .bind name init => do return .bind name (← read init)
  | .assign name value => do return .assign name (← read value)
  | .binary op left right => do return .binary op (← read left) (← read right)
  | .unary op operand => do return .unary op (← read operand)
  | .methodCall receiver method args none => do
    return .methodCall (← receiver.mapM read) method (← (← slice? a.args args).mapM readArg)
  | .methodCall receiver method args (some className) => do
    return .qualifiedCall (← receiver.mapM read) className method (← (← slice? a.args args).mapM readPositional)
  | .coroutineCall receiver coroutine args qualifier => do
    return .coroutineCall (← receiver.mapM read) coroutine (← (← slice? a.args args).mapM readPositional) qualifier
  | .invoke callee args => do return .invoke (← read callee) (← (← slice? a.args args).mapM readPositional)
  | .instantiate className args => do return .instantiate className (← (← slice? a.args args).mapM readPositional)
  | .conditional clauses otherwise => do
    return .conditional (← (← slice? a.clauses clauses).mapM readClause) (← otherwise.mapM read)
  | .block items => do return .block (← (← slice? a.lists items).mapM read)
  | .loop body => do return .loop (← read body)
  | .loopExit value => do return .loopExit (← value.mapM read)
  | .guarded body errorName handler => do return .guarded (← read body) errorName (← read handler)
  | .closure params body kind => do
    return .closure (← (← slice? a.params params).mapM readParam) (← read body) kind
  | .list itemClass items => do return .list itemClass (← (← slice? a.lists items).mapM read)
  | .branch body => do return .branch (← read body)
  | .concurrent policy branches => do return .concurrent policy (← (← slice? a.lists branches).mapM read)
where
  readArg (arg : CallArg) : Option (Option String × Tree) := do return (arg.name, ← read arg.value)
  readPositional (arg : CallArg) : Option Tree := if arg.name = none then read arg.value else none
  readClause (c : Clause) : Option (Tree × Tree) := do return (← read c.test, ← read c.body)
  readParam (p : Param) : Option (String × Option String × Option Tree) := do
    return (p.name, p.className, ← p.default.mapM read)

/-- The tree of at most so many levels whose root stands at a position. -/
def readTo (a : Arena) : ℕ → ExprId → Option Tree
  | 0, _ => none
  | n + 1, id => if id.index < a.size then a.expand (a.readTo n) (a.node id) else none

/-- The tree whose root stands at a position.  Children stand before their parents, so that it has no more levels than there are
positions up to its root. -/
def read (a : Arena) (root : ExprId) : Option Tree := a.readTo (root.index + 1) root

end Arena

end MindScript
