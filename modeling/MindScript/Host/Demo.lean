import MindScript.Decimal.Format
import MindScript.Decimal.Reader
import MindScript.Diagnostics
import MindScript.Host.Scenario
import MindScript.Host.Site

/-!
# The demonstration

A command line that runs the ready-made classes and reports what they do.  A run is a function from the
arguments and the variables to what is printed and the exit code.
-/

namespace MindScript.Demo

/-- What a run prints, and its exit code. -/
structure Output where
  exit : Nat := 0
  out : String := ""
  err : String := ""
  deriving DecidableEq, Repr, Inhabited

namespace Output

/-- Print a line. -/
def say (o : Output) (line : String) : Output := { o with out := o.out ++ line ++ "\n" }

/-- Print a line of complaint. -/
def complain (o : Output) (line : String) : Output := { o with err := o.err ++ line ++ "\n" }

/-- End with a complaint. -/
def fail (o : Output) (line : String) : Output := { o.complain line with exit := 1 }

end Output

def usage : List String := [
  "Brook scripting runtime demo",
  "",
  "Usage: brook <command> [args]",
  "",
  "Commands:",
  "  counter [times]          Call Counter.increment repeatedly (default 3)",
  "  timer [duration] [tick]  Run Timer.wait_then_set, ticking the Mind (default 2.0 1.0)",
  "  patrol [ticks]           Run Sentry.patrol for some ticks, then stop it (default 6)",
  "  config                   Show the configuration read from the environment",
  "  help                     Show this help message",
  "  version                  Show version information",
  "",
  "Environment:",
  "  BROOK_MAX_CALL_DEPTH     Nested invocations before StackOverflow",
  "  BROOK_LOG                Log filter, e.g. brook_eval=debug (falls back to RUST_LOG)",
  "  BROOK_LOG_TREE=1         Print logs as an indented span tree",
  "  BROOK_TRACE=1            Record and print frame transitions"]

def version : String := "brook 0.1.0-alpha.1"

def sayUsage (o : Output) : Output := usage.foldl Output.say o

/-! ### Scenarios -/

/-- The state of a running scenario. -/
structure Stage where
  world : World
  output : Output := {}

/-- A scenario: it uses the interpreter, prints, and may fail. -/
abbrev Show := ExceptT EvalError (StateM Stage)

/-- Let the interpreter act. -/
def act {α : Type} (action : Machine α) : Show α := fun s ↦
  match action s.world with
  | (.ok a, world) => (.ok a, { s with world })
  | (.error (.raised e), world) => (.error e, { s with world })
  | (.error .exhausted, world) => (.error (.custom "out of budget"), { s with world })

def world : Show World := do return (← get).world

def say (line : String) : Show Unit := modify fun s ↦ { s with output := s.output.say line }

def complain (line : String) : Show Unit := modify fun s ↦ { s with output := s.output.complain line }

def defaultMind : Show MindId := do
  match (← world).defaultMind with
  | some m => return m
  | none => throw (.custom "the runtime has no default Mind")

/-- Report the frames that failed since the last report. -/
def reportFailures (m : MindId) : Show Unit := do
  let failures ← act (modifyGet fun w ↦ w.takeFailures m)
  for f in failures do
    complain ("coroutine " ++ f.name ++ " failed: " ++ f.error.text)

/-- Report what every Mind recorded of its frames. -/
def reportHistory : Show Unit := do
  for m in (← world).mindIds do
    let events ← act (modifyGet fun w ↦ w.takeHistory m)
    if !events.isEmpty then
      say ("history of mind '" ++ (((← world).mind? m).map Mind.name).getD "" ++ "':")
      for e in events do
        say ("  " ++ e.frame.text ++ " " ++ e.name ++ " -> " ++ e.status.name)

/-- Call a counter so many times. -/
def countUp (E : Engine) (counter : Ref) : Nat → Show Unit
  | 0 => return ()
  | n + 1 => do
    let value ← act (Machine.hostInvoke E counter "increment" [])
    say ("increment -> " ++ (← world).describe value)
    act (Machine.release value)
    countUp E counter n

def counter (E : Engine) (times : Int64) : Show Unit := do
  let c ← act (Scenario.register Scenario.counter)
  let counter ← act (Machine.hostNew E c [])
  countUp E counter times.toInt.toNat

/-- Update a Mind until a coroutine has finished, and show the value of a flag after every update. -/
def tickUntilFinished (E : Engine) (mind : MindId) (handle : Handle) (flag : Ref) (step : Float) :
    Nat → Nat → Show Unit
  | 0, _ => return ()
  | n + 1, ticks => do
    if (← world).isFinished handle then return ()
    let _ ← act (Machine.update E mind step)
    let w ← world
    let value := ((w.dataMember flag "value").map w.describe).getD "?"
    let clock := ((w.mind? mind).map Mind.clock).getD 0
    say ("tick " ++ toString ticks ++ " (t=" ++ Decimal.fixed clock 2 ++ "): value = " ++ value
      ++ ", " ++ (w.status handle).name)
    tickUntilFinished E mind handle flag step n (ticks + 1)

def timer (E : Engine) (duration step : Float) : Show Unit := do
  let flagClass ← act (Scenario.register Scenario.flag)
  let timerClass ← act (Scenario.register Scenario.timer)
  let mind ← defaultMind
  let flag ← act (Machine.hostNew E flagClass [])
  let timer ← act (Machine.hostNew E timerClass [])
  let duration ← act (Machine.real duration)
  let answer ← act (Machine.integer 42)
  let handle ← act (Machine.hostStart E timer "wait_then_set" [flag, duration, answer] mind false)
  tickUntilFinished E mind handle flag step E.budget 1
  reportFailures mind

/-- The Integer in a data member, or zero. -/
def tally (w : World) (r : Ref) (name : String) : Int :=
  match (w.dataMember r name).map w.heap.payload with
  | some (.integer i) => i.toInt
  | _ => 0

/-- Update a Mind once a second and show the tallies of a sentry, from one tick up to another. -/
def watch (E : Engine) (mind : MindId) (sentry : Ref) (last : Nat) : Nat → Show Unit
  | 0 => return ()
  | left + 1 => do
    let _ ← act (Machine.update E mind 1)
    let w ← world
    say ("tick " ++ toString (last - left) ++ ": fast = " ++ toString (tally w sentry "fast")
      ++ ", slow = " ++ toString (tally w sentry "slow") ++ ", live frames = "
      ++ toString (w.liveCount mind))
    watch E mind sentry last left

def patrol (E : Engine) (ticks : Nat) : Show Unit := do
  let c ← act (Scenario.register Scenario.sentry)
  let mind ← defaultMind
  let sentry ← act (Machine.hostNew E c [])
  let handle ← act (Machine.hostStart E sentry "patrol" [] mind false)
  watch E mind sentry ticks ticks
  act (modify fun w ↦ w.stop handle)
  let w ← world
  say ("stopped: patrol is " ++ (w.status handle).name ++ ", live frames = "
    ++ toString (w.liveCount mind))
  reportFailures mind

/-! ### Commands -/

/-- Read the settings, run a scenario and, if changes are traced, report them. -/
def perform (lookup : String → Option String) (scenario : Show Unit) : Output :=
  match Settings.read lookup with
  | .error e => ({} : Output).fail ("error: " ++ e.message)
  | .ok settings =>
    let (result, stage) := scenario { world := .new settings.config }
    let output :=
      if settings.trace then (reportHistory.run stage).2.output else stage.output
    match result with
    | .ok () => output
    | .error e => output.fail ("error: " ++ e.text)

def showConfig (lookup : String → Option String) : Output :=
  match Settings.read lookup with
  | .error e => ({} : Output).fail ("error: " ++ e.message)
  | .ok s => [
      "max call depth: " ++ toString s.maxCallDepth,
      "log filter:     " ++ s.logFilter.getD "(off)",
      "log tree:       " ++ flagText s.logTree,
      "trace:          " ++ flagText s.trace,
      "default mind:   " ++ s.defaultMind.getD "(none)"].foldl Output.say {}

/-- An argument, or its default if it is not there. -/
def readArg {α : Type} (args : List String) (i : Nat) (parse : String → Option α) (default : α) :
    Except String α :=
  match args[i]? with
  | none => .ok default
  | some raw =>
    match parse raw with
    | some a => .ok a
    | none => .error ("error: invalid argument '" ++ raw ++ "'")

/-- Go on with an argument that could be read. -/
def withArg {α : Type} (arg : Except String α) (next : α → Output) : Output :=
  match arg with
  | .ok a => next a
  | .error message => ({} : Output).fail message

/-- The largest number of ticks that can be written. -/
def maxTicks : Nat := 4294967295

/-- Run a command. -/
def runCommand (E : Engine) (lookup : String → Option String) (command : String)
    (args : List String) : Output :=
  match command with
  | "counter" => withArg (readArg args 0 Decimal.readInt64 3) fun times ↦
      perform lookup (counter E times)
  | "timer" => withArg (readArg args 0 Decimal.readReal 2) fun duration ↦
      withArg (readArg args 1 Decimal.readReal 1) fun step ↦
        if step ≤ 0 then ({} : Output).fail "error: tick length must be positive"
        else perform lookup (timer E duration step)
  | "patrol" => withArg (readArg args 0 (Decimal.readNat maxTicks) 6) fun ticks ↦
      perform lookup (patrol E ticks)
  | "config" => showConfig lookup
  | "help" | "--help" | "-h" => sayUsage {}
  | "version" | "--version" | "-V" => ({} : Output).say version
  | _ => sayUsage ((({} : Output).fail ("Unknown command: " ++ command)).complain "")

/-- Run the command line. -/
def run (E : Engine) (lookup : String → Option String) : List String → Output
  | [] => sayUsage {}
  | command :: args => runCommand E lookup command args

end MindScript.Demo
