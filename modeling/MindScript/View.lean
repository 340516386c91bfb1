import MindScript.Identity
import MindScript.Expr.Node

/-!
# Snapshots of values

A `View` is what can be seen of a value at one moment, cut off from the heap: it stays as it is when the
value changes or dies.  A `Line` of a journal is a row of such snapshots and plain facts.
-/

namespace MindScript

/-- What a value looked like when the snapshot was taken. -/
inductive View where
  | nil
  | boolean (value : Bool)
  | integer (value : Int64)
  | real (value : Float)
  | text (value : String)
  | symbol (name : String)
  | list (ref : Ref) (itemClass : String) (items : List View)
  | closure (ref : Ref) (kind : CallableKind)
  | classObject (name : String)
  | coroutine (name status : String)
  | object (ref : Ref) (className : String) (slots : List (String × View))
  /-- A list or object that the same snapshot shows elsewhere. -/
  | seen (ref : Ref)
  /-- A list or object below the greatest depth that snapshots go to. -/
  | deep
  deriving Inhabited

/-- One fact of a journal line. -/
inductive Note (α : Type) where
  | value (v : α)
  | count (n : Nat)
  | time (t : Float)
  | flag (b : Bool)
  | text (s : String)
  deriving Inhabited

namespace Note

def map {α β : Type} (f : α → β) : Note α → Note β
  | value v => value (f v)
  | count n => count n
  | time t => time t
  | flag b => flag b
  | text s => text s

end Note

/-- A journal line: a single fact, or a row of them. -/
inductive Line (α : Type) where
  | note (n : Note α)
  | row (notes : List (Note α))
  deriving Inhabited

namespace Line

def map {α β : Type} (f : α → β) : Line α → Line β
  | note n => note (n.map f)
  | row notes => row (notes.map (Note.map f))

end Line

end MindScript
