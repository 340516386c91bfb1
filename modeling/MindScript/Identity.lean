/-!
# Identities

The handles by which the parts of a running interpreter refer to one another.  Every one of them is a
position in some table; instances, scopes and outcomes are never moved and their positions are never
handed out twice, so a position doubles as an identity.
-/

namespace MindScript

/-- An instance on the heap.  The index is also the instance's serial number. -/
structure Ref where
  index : Nat
  deriving DecidableEq, Repr, Inhabited

/-- A registered class, by order of registration. -/
structure ClassId where
  index : Nat
  deriving DecidableEq, Repr, Inhabited, Hashable

/-- A shared level of local bindings. -/
structure ScopeId where
  index : Nat
  deriving DecidableEq, Repr, Inhabited

/-- The cell in which the outcome of one invoked coroutine is kept. -/
structure OutcomeId where
  index : Nat
  deriving DecidableEq, Repr, Inhabited

/-- A Mind, by order of creation. -/
structure MindId where
  index : Nat
  deriving DecidableEq, Repr, Inhabited

/-- A coroutine frame: a slot of its Mind together with the number of times the slot had been emptied
when the frame was stored there.  Both stand for words of 32 bits; `Mind.Bounded` says of which Minds the identities are
told apart by their words. -/
structure FrameId where
  index : Nat
  generation : Nat
  deriving DecidableEq, Repr, Inhabited, Hashable

namespace ClassId

/-- The identity as diagnostics write it. -/
def text (c : ClassId) : String := "ClassId(" ++ toString c.index ++ ")"

end ClassId

namespace MindId

/-- The identity as diagnostics write it. -/
def text (m : MindId) : String := "MindId(" ++ toString m.index ++ ")"

end MindId

namespace FrameId

/-- The identity as diagnostics write it: slot, then generation. -/
def text (f : FrameId) : String :=
  "FrameId(" ++ toString f.index ++ "v" ++ toString f.generation ++ ")"

end FrameId

end MindScript
