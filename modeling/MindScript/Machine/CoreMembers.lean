import MindScript.Decimal.Format
import MindScript.Machine.Calls
import MindScript.Number

/-!
# What the built-in members do

The methods and coroutines of the core classes.  Receiver and arguments stay the caller's; a result is
handed over.
-/

namespace MindScript.Machine

/-! ### Reading operands -/

def payloadOf (r : Ref) : Machine Payload := return (← get).heap.payload r

def expectInteger (r : Ref) : Machine Int64 := do
  match ← payloadOf r with
  | .integer i => return i
  | _ => typeMismatch "Integer" r

def expectReal (r : Ref) : Machine Float := do
  match ← payloadOf r with
  | .real x => return x
  | _ => typeMismatch "Real" r

def expectNumber (r : Ref) : Machine Float := do
  match (← payloadOf r).number? with
  | some x => return x
  | none => typeMismatch "Real" r

def expectText (r : Ref) : Machine String := do
  match ← payloadOf r with
  | .text s => return s
  | _ => typeMismatch "String" r

def expectSymbol (r : Ref) : Machine String := do
  match ← payloadOf r with
  | .symbol name => return name
  | _ => typeMismatch "Symbol" r

def expectList (r : Ref) : Machine Sequence := do
  match ← payloadOf r with
  | .list s => return s
  | _ => typeMismatch "List" r

def expectClassObject (r : Ref) : Machine ClassId := do
  match ← payloadOf r with
  | .classObject c => return c
  | _ => typeMismatch "Class" r

def expectHandle (r : Ref) : Machine Handle := do
  match ← payloadOf r with
  | .coroutine h => return h
  | _ => typeMismatch "InvokedCoroutine" r

/-! ### Equality -/

def equalBooleans : Payload → Payload → Bool
  | .boolean a, .boolean b => a == b
  | _, _ => false

/-- Equality of numbers never fails: what is no number is unequal. -/
def equalNumbers : Payload → Payload → Bool
  | .integer a, .integer b => a == b
  | a, b =>
    match a.number?, b.number? with
    | some x, some y => x == y
    | _, _ => false

def equalTexts : Payload → Payload → Bool
  | .text a, .text b => a == b
  | _, _ => false

def equalSymbols : Payload → Payload → Bool
  | .symbol a, .symbol b => a == b
  | _, _ => false

def equalClasses : Payload → Payload → Bool
  | .classObject a, .classObject b => a == b
  | _, _ => false

/-- Answer with the given Boolean if the payloads are equal, and with the other one if not. -/
def answerEqual (equal : Payload → Payload → Bool) (whenEqual : Bool) (a b : Ref) : Machine Ref := do
  boolean (equal (← payloadOf a) (← payloadOf b) == whenEqual)

/-! ### Numbers -/

/-- Integers stay Integers; as soon as a Real takes part, both count as Reals. -/
def arithmetic (op : Arithmetic) (a b : Ref) : Machine Ref := do
  match ← payloadOf a, ← payloadOf b with
  | .integer x, .integer y => integer (← ofExcept (op.integers x y))
  | _, _ =>
    let x ← expectNumber a
    let y ← expectNumber b
    real (op.reals x y)

/-- The ordering of two numbers. -/
def order (a b : Ref) : Machine (Option Ordering) := do
  match ← payloadOf a, ← payloadOf b with
  | .integer x, .integer y => return some (compare x.toInt y.toInt)
  | _, _ =>
    let x ← expectNumber a
    let y ← expectNumber b
    return Real64.order x y

/-- An exact Integer result under the name of the operation. -/
def exactInteger (name : String) (x : Int) : Machine Ref := do
  match Integer.ofInt? x with
  | some i => integer i
  | none => raise (.custom ("integer overflow in " ++ name))

def realToInteger (x : Float) : Machine Ref := do
  let x := Real64.truncate x
  match Real64.toInteger? x with
  | some i => integer i
  | none => raise (.custom (Decimal.plain x ++ " does not fit in an Integer"))

/-! ### Lists -/

def setItems (r : Ref) (s : Sequence) : Machine Unit := modify fun w ↦
  { w with heap := w.heap.setPayload r (.list s) }

def modifyItems (r : Ref) (f : Sequence → Sequence) : Machine Unit := modify fun w ↦
  { w with heap := w.heap.modifyItems r f }

/-- Visit items in turn, each handed over to a closure. -/
def visitAll (E : Engine) (visit : Ref) : List Ref → Machine Unit
  | [] => return ()
  | item :: rest => do
    let value ← elseRelease (invokeClosureNow E visit [(none, item)]) rest
    release value
    visitAll E visit rest

def shareAll : List Ref → Machine Unit
  | [] => return ()
  | r :: rest => do
    retain r
    shareAll rest

/-- The item, or nil if there is none. -/
def shareOrNil : Option Ref → Machine Ref
  | some r => share r
  | none => nil

def listSetAt (this index item : Ref) : Machine Ref := do
  let s ← expectList this
  let i ← expectInteger index
  checkType item s.itemClass
  let previous ← ofExcept (s.get i)
  retain item
  modifyItems this fun s ↦ s.set i item
  release previous
  share item

def listAppend (this item : Ref) : Machine Ref := do
  let s ← expectList this
  checkType item s.itemClass
  retain item
  modifyItems this fun s ↦ s.push item
  share this

def listInsert (this index item : Ref) : Machine Ref := do
  let s ← expectList this
  let i ← expectInteger index
  checkType item s.itemClass
  let s ← ofExcept (s.insert i item)
  retain item
  setItems this s
  share this

def listRemoveAt (this index : Ref) : Machine Ref := do
  let i ← expectInteger index
  let (removed, s) ← ofExcept ((← expectList this).remove i)
  setItems this s
  return removed

def listClear (this : Ref) : Machine Ref := do
  let (removed, s) := (← expectList this).clear
  setItems this s
  releaseAll removed
  share this

/-- Visit the items that the list holds now, whatever happens to it meanwhile. -/
def listEach (E : Engine) (this visit : Ref) : Machine Ref := do
  let items := (← expectList this).items.toList
  shareAll items
  visitAll E visit items
  share this

/-! ### Methods -/

/-- Run a built-in method. -/
def runCore (E : Engine) (method : CoreMethod) (this : Ref) (args : List Ref) : Machine Ref :=
  let arg := args.getD 0 .nil
  let second := args.getD 1 .nil
  match method with
  | .identical whenEqual => boolean ((this == arg) == whenEqual)
  | .describe => do string ((← get).describe this)
  | .className => do string ((← get).classNameOf this)
  | .classOf => do classObject ((← get).heap.classOf this)
  | .isNil answer => boolean answer
  | .nilText => string "nil"
  | .equalBooleans whenEqual => answerEqual equalBooleans whenEqual this arg
  | .booleanNot => do boolean (!(← expectBool this))
  | .booleanText => do string (if ← expectBool this then "true" else "false")
  | .arithmetic op => arithmetic op this arg
  | .equalNumbers whenEqual => answerEqual equalNumbers whenEqual this arg
  | .compareNumbers op => do boolean (op.holds (← order this arg))
  | .lesser => do share (if (← order this arg) == some .gt then arg else this)
  | .greater => do share (if (← order this arg) == some .lt then arg else this)
  | .integerNegated => do exactInteger "negation" (-(← expectInteger this).toInt)
  | .integerAbs => do exactInteger "abs" ((← expectInteger this).toInt.natAbs)
  | .integerText => do string (toString (← expectInteger this).toInt)
  | .integerSelf => do
    let _ ← expectInteger this
    share this
  | .integerToReal => do real (← expectNumber this)
  | .realNegated => do real (-(← expectReal this))
  | .realAbs => do real (← expectReal this).abs
  | .realText => do string (Decimal.literal (← expectReal this))
  | .realSelf => do
    let _ ← expectReal this
    share this
  | .realToInteger => do realToInteger (← expectReal this)
  | .textJoin => do
    let a ← expectText this
    let b ← expectText arg
    string (a ++ b)
  | .textLength => do count (← expectText this).length
  | .textIsEmpty => do boolean (← expectText this).isEmpty
  | .equalTexts whenEqual => answerEqual equalTexts whenEqual this arg
  | .textLess => do
    let a ← expectText this
    let b ← expectText arg
    boolean (a < b)
  | .textGreater => do
    let a ← expectText this
    let b ← expectText arg
    boolean (b < a)
  | .textSelf => do
    let _ ← expectText this
    share this
  | .textToSymbol => do symbol (← expectText this)
  | .equalSymbols whenEqual => answerEqual equalSymbols whenEqual this arg
  | .symbolText => do string (← expectSymbol this)
  | .listLength => do count (← expectList this).size
  | .listIsEmpty => do boolean (← expectList this).items.isEmpty
  | .listAt => do
    let i ← expectInteger arg
    share (← ofExcept ((← expectList this).get i))
  | .listSetAt => listSetAt this arg second
  | .listAppend => listAppend this arg
  | .listInsert => listInsert this arg second
  | .listRemoveAt => listRemoveAt this arg
  | .listClear => listClear this
  | .listFirst => do shareOrNil (← expectList this).items[0]?
  | .listLast => do shareOrNil (← expectList this).items.back?
  | .listEach => listEach E this arg
  | .closureIsCoroutine => do boolean ((← expectClosure this).kind == .coroutine)
  | .classText => do
    let c ← expectClassObject this
    string ((← get).classes.nameOf c)
  | .classIsSubclass => do
    let c ← expectClassObject this
    let other ← expectClassObject arg
    boolean ((← get).classes.isSubtype c other)
  | .equalClasses => answerEqual equalClasses true this arg
  | .handleIsFinished => do
    let h ← expectHandle this
    boolean ((← get).isFinished h)
  | .handleIsCompleted => do
    let h ← expectHandle this
    boolean ((← get).status h == .completed)
  | .handleIsRunning => do
    let h ← expectHandle this
    boolean (!(← get).isFinished h)
  | .handleStatus => do
    let h ← expectHandle this
    symbol ((← get).status h).name
  | .handleResult => do
    let h ← expectHandle this
    shareOrNil ((← get).heap.outcome h.outcome).result
  | .handleError => do
    let h ← expectHandle this
    match ((← get).heap.outcome h.outcome).error with
    | some e => string e.message
    | none => nil
  | .handleStop => do
    let h ← expectHandle this
    modify fun w ↦ w.stop h
    share this

end MindScript.Machine

namespace MindScript

/-- The outcome of one step of a frame: a value, which is handed over, or what to wait for. -/
inductive Step where
  | done (value : Ref)
  | suspend (wake : Wake)
  deriving Inhabited

namespace Machine

/-! ### Coroutines -/

/-- Name of the event that a value stands for. -/
def expectEvent (r : Ref) : Machine String := do
  match ← payloadOf r with
  | .symbol name => return name
  | .text s => return s
  | _ => typeMismatch "Symbol" r

/-- Complete once so many seconds have passed since the start, but not in the first step. -/
def pollWait (info : PollInfo) (seconds : Ref) : Machine Step := do
  let target := info.startedAt + World.atLeastZero (← expectNumber seconds)
  if !info.isFirstStep && info.clock ≥ target then return .done (← nil)
  else return .suspend (.atTime target)

/-- Complete with true as soon as a closure returns true; it is asked once per tick. -/
def pollWaitUntil (E : Engine) (condition : Ref) : Machine Step := do
  let value ← invokeClosureNow E condition []
  if ← elseRelease (expectBool value) [value] then return .done value
  else
    release value
    return .suspend .tick

/-- Complete when another coroutine has finished, with its result if it completed. -/
def pollWaitFor (handle : Ref) : Machine Step := do
  let h ← expectHandle handle
  let w ← get
  if w.isFinished h then
    .done <$> shareOrNil (if w.status h == .completed then (w.heap.outcome h.outcome).result else none)
  else
    retainLink (.outcome h.outcome)
    return .suspend (.frame h)

/-- Complete with the payload of the event.  Takes the payload over. -/
def pollWaitEvent (info : PollInfo) (event : Ref) (delivered : Option Ref) : Machine Step := do
  let name ← elseRelease (expectEvent event) delivered.toList
  match delivered with
  | some payload =>
    if info.isFirstStep then
      release payload
      return .suspend (.event name)
    else return .done payload
  | none => return .suspend (.event name)

/-- Step a cursor over the items of the receiver; the item is handed over. -/
def nextItem (this : Ref) (state : Option Stored) : Machine (Option (Ref × Nat)) := do
  let s ← expectList this
  let (cursor, s) := match state with
    | some (.cursor number) => (number, s)
    | _ => s.openCursor
  let (item, s) := s.advance cursor
  setItems this s
  match item with
  | some item =>
    retain item
    return some (item, cursor)
  | none => return none

/-- Run one step of a built-in coroutine, which gives also what is kept for the next step.  Takes the
delivered payload over. -/
def pollCore (E : Engine) (code : CoreCoroutine) (info : PollInfo) (this : Ref) (args : List Ref)
    (delivered : Option Ref) (state : Option Stored) :
    Machine (Except EvalError Step × Option Stored) := do
  let arg := args.getD 0 .nil
  match code with
  | .wait => return (← attempt (thenRelease (pollWait info arg) delivered.toList), state)
  | .waitUntil => return (← attempt (thenRelease (pollWaitUntil E arg) delivered.toList), state)
  | .waitEvent => return (← attempt (pollWaitEvent info arg delivered), state)
  | .waitFor => return (← attempt (thenRelease (pollWaitFor arg) delivered.toList), state)
  | .each =>
    match ← attempt (nextItem this state) with
    | .error e =>
      releaseAll delivered.toList
      return (.error e, state)
    | .ok none =>
      releaseAll delivered.toList
      return (.ok (.done (← share this)), none)
    | .ok (some (item, cursor)) =>
      let result ← attempt (thenRelease (invokeClosureNow E arg [(none, item)]) delivered.toList)
      match result with
      | .error e => return (.error e, some (.cursor cursor))
      | .ok value =>
        release value
        return (.ok (.suspend .tick), some (.cursor cursor))

end Machine

end MindScript
