/-!
# The built-in members

Names for what the members of the core classes do.  A member table refers to a built-in member by such a
name; the interpreter gives the name its meaning.
-/

namespace MindScript

inductive Arithmetic where
  | add | sub | mul | div | rem
  deriving DecidableEq, Repr, Inhabited

inductive Comparison where
  | less | lessOrEqual | greater | greaterOrEqual
  deriving DecidableEq, Repr, Inhabited

/-- A built-in method.  Where equality and inequality differ in the answer alone, the constructor takes
the answer to give for equal operands. -/
inductive CoreMethod where
  | identical (whenEqual : Bool)
  | describe
  | className
  | classOf
  | isNil (answer : Bool)
  | nilText
  | equalBooleans (whenEqual : Bool)
  | booleanNot
  | booleanText
  | arithmetic (op : Arithmetic)
  | equalNumbers (whenEqual : Bool)
  | compareNumbers (op : Comparison)
  | lesser
  | greater
  | integerNegated
  | integerAbs
  | integerText
  | integerSelf
  | integerToReal
  | realNegated
  | realAbs
  | realText
  | realSelf
  | realToInteger
  | textJoin
  | textLength
  | textIsEmpty
  | equalTexts (whenEqual : Bool)
  | textLess
  | textGreater
  | textSelf
  | textToSymbol
  | equalSymbols (whenEqual : Bool)
  | symbolText
  | listLength
  | listIsEmpty
  | listAt
  | listSetAt
  | listAppend
  | listInsert
  | listRemoveAt
  | listClear
  | listFirst
  | listLast
  | listEach
  | closureIsCoroutine
  | classText
  | classIsSubclass
  | equalClasses
  | handleIsFinished
  | handleIsCompleted
  | handleIsRunning
  | handleStatus
  | handleResult
  | handleError
  | handleStop
  deriving DecidableEq, Repr, Inhabited

/-- A built-in coroutine. -/
inductive CoreCoroutine where
  | wait
  | waitUntil
  | waitEvent
  | waitFor
  | each
  deriving DecidableEq, Repr, Inhabited

end MindScript
