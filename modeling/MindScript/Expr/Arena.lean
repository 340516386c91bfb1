import MindScript.Expr.Node

/-!
# Arenas

An arena stores the nodes of any number of expressions, each child before its parents.  Lists of
children, arguments, parameters and clauses lie in four side tables; a node names them by span.  Beside
every node stands a flag that says whether evaluating it may suspend a coroutine; because children come
first, the flag of a new node is read off the flags already stored.
-/

namespace MindScript

structure Arena where
  nodes : Array Node := #[]
  durational : Array Bool := #[]
  lists : Array ExprId := #[]
  args : Array CallArg := #[]
  params : Array Param := #[]
  clauses : Array Clause := #[]
  deriving Inhabited

/-- The ways in which an expression can outgrow an arena. -/
inductive Arena.Overflow where
  /-- The table of this content has no more positions. -/
  | tableFull (what : String)
  /-- A list of this kind is longer than a span can be. -/
  | listTooLong (what : String)
  deriving DecidableEq, Repr

namespace Arena

/-- The longest list that a span can name. -/
def maxList : Nat := 65535

/-- The number of positions of a table. -/
def maxTable : Nat := 4294967296

def Overflow.message : Overflow → String
  | tableFull what => "arena overflow: too many " ++ what
  | listTooLong what => "arena overflow: " ++ what ++ " longer than " ++ toString maxList

def size (a : Arena) : Nat := a.nodes.size

def isEmpty (a : Arena) : Bool := a.nodes.isEmpty

def node (a : Arena) (id : ExprId) : Node := a.nodes.getD id.index .nil

/-- Whether evaluating the node may suspend the running coroutine. -/
def isDurational (a : Arena) (id : ExprId) : Bool := a.durational.getD id.index false

/-- The entries of a side table that a span names. -/
def slice {α : Type} (table : Array α) (s : Span) : List α :=
  (table.extract s.start (s.start + s.length)).toList

def listAt (a : Arena) (s : Span) : List ExprId := slice a.lists s

def argsAt (a : Arena) (s : Span) : List CallArg := slice a.args s

def paramsAt (a : Arena) (s : Span) : List Param := slice a.params s

def clausesAt (a : Arena) (s : Span) : List Clause := slice a.clauses s

/-- Whether a node with the given content may suspend, given the flags of its children.  The bodies of
closures and branches run in frames of their own; whether a closure suspends is only known when it is
invoked. -/
def maySuspend (a : Arena) : Node → Bool
  | .nil | .bool _ | .int _ | .real _ | .str _ | .sym _ | .this | .ident _ => false
  | .closure _ _ _ | .branch _ => false
  | .coroutineCall _ _ _ _ | .concurrent _ _ | .invoke _ _ => true
  | .bind _ value | .assign _ value => a.isDurational value
  | .binary _ left right => a.isDurational left || a.isDurational right
  | .unary _ operand => a.isDurational operand
  | .methodCall receiver _ args _ =>
    receiver.any a.isDurational || (a.argsAt args).any fun arg ↦ a.isDurational arg.value
  | .instantiate _ args => (a.argsAt args).any fun arg ↦ a.isDurational arg.value
  | .conditional clauses otherwise =>
    ((a.clausesAt clauses).any fun c ↦ a.isDurational c.test || a.isDurational c.body)
      || otherwise.any a.isDurational
  | .block items | .list _ items => (a.listAt items).any a.isDurational
  | .loop body => a.isDurational body
  | .loopExit value => value.any a.isDurational
  | .guarded body _ handler => a.isDurational body || a.isDurational handler

/-- Store a node after its children. -/
def alloc (a : Arena) (n : Node) : Except Overflow (ExprId × Arena) :=
  if a.nodes.size < maxTable then
    let flag := a.maySuspend n
    .ok (⟨a.nodes.size⟩, { a with nodes := a.nodes.push n, durational := a.durational.push flag })
  else
    .error (.tableFull "expressions")

/-- Append a list to a side table.  Every empty list has the empty span. -/
def append {α : Type} (table : Array α) (items : List α) (tableName listName : String) :
    Except Overflow (Span × Array α) :=
  if items.isEmpty then
    .ok (.empty, table)
  else if maxTable ≤ table.size then
    .error (.tableFull tableName)
  else if maxList < items.length then
    .error (.listTooLong listName)
  else
    .ok (⟨table.size, items.length⟩, table ++ items)

/-- What was appended is what the span names. -/
theorem slice_append {α : Type} {table : Array α} {items : List α} {tableName listName : String}
    {span : Span} {after : Array α} (h : append table items tableName listName = .ok (span, after)) :
    slice after span = items := by
  unfold append at h
  split at h
  · obtain ⟨rfl, rfl⟩ : Span.empty = span ∧ table = after := by simpa using h
    simp_all [slice, Span.empty]
  · split at h
    · simp at h
    · split at h
      · simp at h
      · obtain ⟨rfl, rfl⟩ :
            (⟨table.size, items.length⟩ : Span) = span ∧ table ++ items = after := by
          simpa using h
        simp [slice]

def pushList (a : Arena) (ids : List ExprId) : Except Overflow (Span × Arena) := do
  let (span, table) ← append a.lists ids "expression lists" "expression list"
  return (span, { a with lists := table })

def pushArgs (a : Arena) (args : List CallArg) : Except Overflow (Span × Arena) := do
  let (span, table) ← append a.args args "call arguments" "argument list"
  return (span, { a with args := table })

def pushParams (a : Arena) (params : List Param) : Except Overflow (Span × Arena) := do
  let (span, table) ← append a.params params "parameters" "parameter list"
  return (span, { a with params := table })

def pushClauses (a : Arena) (clauses : List Clause) : Except Overflow (Span × Arena) := do
  let (span, table) ← append a.clauses clauses "clauses" "clause list"
  return (span, { a with clauses := table })

/-- A one-line summary of the arena for diagnostics. -/
def summary (a : Arena) : String :=
  "ExprArena \x7b exprs: " ++ toString a.nodes.size ++ ", params: " ++ toString a.params.size
    ++ ", .. \x7d"

end Arena

end MindScript
