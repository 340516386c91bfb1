import MindScript.Machine.Engine
import MindScript.Machine.Values

/-!
# Binding arguments

Positional arguments go to the parameters in order, named ones to the first parameter of their name; no
parameter takes two.  The parameters of a script are then bound left to right: an omitted one takes its
default, evaluated where the earlier ones are already bound, and a declared class is checked.
-/

namespace MindScript.Machine

/-- The parameter that an argument goes to, given the number of positional arguments before it. -/
def paramIndex (member : String) (names : List String) (given : Nat) (positional : Nat) :
    Option String → Except EvalError Nat
  | some name =>
    match names.findIdx? (· == name) with
    | some i => .ok i
    | none => .error (.unknownArgument member name)
  | none =>
    if positional < names.length then .ok positional
    else .error (.ofKind (.arityMismatch member names.length given))

/-- The values to be given up when an argument cannot be placed: its own, those after it, those placed
before. -/
def unplaced (value : Ref) (rest : ArgValues) (slots : List (Option Ref)) : List Ref :=
  value :: rest.map Prod.snd ++ slots.filterMap id

/-- Place arguments one by one.  On failure the values are handed back in the order in which they are to
be given up. -/
def placeArgs (member : String) (names : List String) (given : Nat) :
    Nat → List (Option Ref) → ArgValues → Except (EvalError × List Ref) (List (Option Ref))
  | _, slots, [] => .ok slots
  | positional, slots, (name, value) :: rest =>
    match paramIndex member names given positional name with
    | .error e => .error (e, unplaced value rest slots)
    | .ok i =>
      if (slots[i]?.join).isSome then
        let e : EvalError := .ofKind (.arityMismatch member names.length given)
        .error (e.withNote ("argument `" ++ names.getD i "" ++ "` given twice"),
          unplaced value rest slots)
      else
        placeArgs member names given (if name.isNone then positional + 1 else positional)
          (slots.set i (some value)) rest

/-- Match arguments to parameters. -/
def orderArgs (member : String) (names : List String) (args : ArgValues) :
    Except (EvalError × List Ref) (List (Option Ref)) :=
  placeArgs member names args.length 0 (names.map fun _ ↦ none) args

/-- Match arguments to parameters; on failure they are given up. -/
def orderArgsOrRelease (member : String) (names : List String) (args : ArgValues) :
    Machine (List (Option Ref)) := do
  match orderArgs member names args with
  | .ok slots => return slots
  | .error (e, values) =>
    releaseAll values
    raise e

/-- The value of a parameter: its argument, else its default. -/
def paramValue (E : Engine) (member : String) (required given : Nat) (param : Param) :
    Option Ref → Machine Ref
  | some value => return value
  | none =>
    match param.default with
    | some d => E.eval d
    | none => raiseKind (.arityMismatch member required given)

/-- A value must conform to the class that its parameter declares, if any. -/
def checkParam (param : Param) (value : Ref) : Machine Unit := do
  if let some className := param.className then
    checkType value (← lookupClass className)

/-- Bind parameters left to right in the innermost scope. -/
def bindSlots (E : Engine) (member : String) (required given : Nat) :
    List (Param × Option Ref) → Machine Unit
  | [] => return ()
  | (param, slot) :: rest => do
    let held := rest.filterMap Prod.snd
    let value ← elseRelease (paramValue E member required given param slot) held
    elseRelease (checkParam param value) (value :: held)
    define param.name value
    bindSlots E member required given rest

/-- Bind the arguments of a scripted callee in its context.  Takes them over. -/
def bindParams (E : Engine) (member : String) (params : Span) (args : ArgValues) : Machine Unit := do
  let params := (← get).context.arena.paramsAt params
  let slots ← orderArgsOrRelease member (params.map Param.name) args
  let required := (params.filter fun p ↦ p.default.isNone).length
  bindSlots E member required args.length (params.zip slots)

/-- The arguments of a native callee in the order of its parameters.  Takes them over. -/
def bindNative (member : String) (params : List String) (args : ArgValues) :
    Machine (List Ref) := do
  let slots ← orderArgsOrRelease member params args
  match slots.mapM id with
  | some values => return values
  | none =>
    let placed := (slots.takeWhile Option.isSome).filterMap id
    let later := (slots.dropWhile Option.isSome).filterMap id
    releaseAll (later ++ placed)
    raiseKind (.arityMismatch member params.length args.length)

end MindScript.Machine
