import MindScript.Host.Script
import MindScript.Interpreter

/-!
# Ready-made classes

Small classes that show what the language does: a counter, a timer that sets a flag after a while, and a
sentry on an endless patrol.
-/

namespace MindScript.Scenario

open Builder

/-- `name = name + 1` -/
def increment (name : String) : Builder ExprId := do
  let current ← ident name
  let one ← int 1
  let sum ← binary .add current one
  assign name sum

/-- A counter with one method, which adds one and returns the sum. -/
def counter : ClassScript where
  name := "Counter"
  data := [⟨"n", "Integer"⟩]
  scripts := [⟨"increment", .method, do
    let current ← ident "n"
    let one ← int 1
    let sum ← binary .add current one
    return (← params [], ← assign "n" sum)⟩]

/-- A value and whether it has been set. -/
def flag : ClassScript where
  name := "Flag"
  data := [⟨"value", "Integer"⟩, ⟨"is_set", "Boolean"⟩]
  scripts := [⟨"set", .method, do
    let v ← ident "v"
    let store ← assign "value" v
    let yes ← bool true
    let mark ← assign "is_set" yes
    return (← params [⟨"v", some "Integer", none⟩], ← block [store, mark])⟩]

/-- A coroutine that waits and then sets a flag. -/
def timer : ClassScript where
  name := "Timer"
  scripts := [⟨"wait_then_set", .coroutine, do
    let duration ← ident "duration"
    let wait ← coroutine none "_wait" [duration] none
    let target ← ident "target"
    let value ← ident "value"
    let set ← call (some target) "set" [value] none
    let ps ← params [⟨"target", some "Flag", none⟩, ⟨"duration", none, none⟩,
      ⟨"value", some "Integer", none⟩]
    return (ps, ← block [wait, set])⟩]

/-- An endless loop that waits so many seconds and then adds one to a datum. -/
def tallyEvery (seconds : Float) (name : String) : Builder ExprId := do
  let seconds ← real seconds.toBits
  let wait ← coroutine none "_wait" [seconds] none
  let bump ← increment name
  loop (← block [wait, bump])

/-- A patrol of two endless loops, one with a round every second and one with a round every three. -/
def sentry : ClassScript where
  name := "Sentry"
  data := [⟨"fast", "Integer"⟩, ⟨"slow", "Integer"⟩]
  scripts := [⟨"patrol", .coroutine, do
    let fast ← tallyEvery 1 "fast"
    let slow ← tallyEvery 3 "slow"
    let group ← concurrent .sync [fast, slow]
    return (← params [], group)⟩]

/-- The classes of a scenario, by its name. -/
def named? : String → Option (List ClassScript)
  | "counter" => some [counter]
  | "delayed_set" => some [flag, timer]
  | "sentry" => some [sentry]
  | _ => none

/-- Register the classes of a scenario in order. -/
def register (script : ClassScript) : Machine ClassId :=
  match script.toDecl with
  | .ok decl => Machine.registerClass decl
  | .error e => Machine.raise (.custom e.message)

end MindScript.Scenario
