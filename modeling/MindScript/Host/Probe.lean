import MindScript.Class.Member

/-!
# Probes

Host members for watching an interpreter from inside: they write to the journal, drive the default Mind,
and wait in every way a coroutine can wait.  They use nothing but the requests that are open to every host
member: a native is handed the interpreter, so it may call every entry point of it that a host may call,
`invoke_coroutine` and `invoke_coroutine_deferred` among them, also while a step or an update is under way.
-/

namespace MindScript.Probe

open Program

/-! ### Reading arguments -/

def this : Reg := 0

/-- The register of an argument. -/
def arg (i : Nat) : Reg := i + 1

/-- The default Mind, without which most probes cannot do anything. -/
def defaultMind : Program MindId := do
  match ← ask .defaultMind with
  | some m => return m
  | none => fail (.custom "no default mind")

/-- A name as a symbol or as a text.  Events are named so; members and classes only by a text. -/
def name (r : Reg) : Program String := do
  match ← ask (.inspect r) with
  | .symbol s | .text s => return s
  | _ => fail (.custom "expected a name")

def text (r : Reg) : Program String := do
  match ← ask (.inspect r) with
  | .text s => return s
  | _ => fail (.custom "expected a string")

def number (r : Reg) : Program Float := do
  match ← ask (.inspect r) with
  | .integer i => return i.toFloat
  | .real x => return x
  | _ => fail (.custom "expected a number")

def handle (r : Reg) : Program Reg := do
  match ← ask (.inspect r) with
  | .coroutine => return r
  | _ => fail (.custom "expected a coroutine")

/-! ### Making results -/

def make (v : Literal) : Program Reg := ask (.literal v)

def count (n : Nat) : Program Reg := make (.integer (Int64.ofNat n))

def journal (notes : List (Note Reg)) : Program Unit := ask (.journal (.row notes))

/-! ### Methods -/

def log : Program Reg := do
  ask (.journal (.note (.value (arg 0))))
  return arg 0

def pair : Program Reg := do
  journal [.value (arg 0), .value (arg 1)]
  return arg 1

def notify : Program Reg := do
  let m ← defaultMind
  let event ← name (arg 0)
  count (← ask (.notify m event (arg 1)))

def tick : Program Reg := do
  let m ← defaultMind
  let seconds ← number (arg 0)
  count (← ask (.update m seconds))

def stopAll : Program Reg := do
  ask (.stopAll (← defaultMind))
  make .nil

def stopMine : Program Reg := do
  ask (.stopFor this)
  make .nil

def live : Program Reg := do
  count (← ask (.liveCount (← defaultMind)))

/-- Start a coroutine of the receiver on the default Mind: `invoke_coroutine`, or `invoke_coroutine_deferred`. -/
def start (deferred : Bool) : Program Reg := do
  let m ← defaultMind
  let member ← text (arg 0)
  ofExcept (← ask (.startCoroutine this member [] m deferred))

def call : Program Reg := do
  let member ← text (arg 0)
  ofExcept (← ask (.invokeMethod this member []))

def construct : Program Reg := do
  let className ← text (arg 0)
  match ← ask (.classNamed className) with
  | some c => ofExcept (← ask (.newInstance c []))
  | none => fail (.custom "no such class")

def throttle : Program Reg := do
  let h ← handle (arg 0)
  let seconds ← number (arg 1)
  ask (.setUpdateInterval h seconds)
  return arg 0

def suspend : Program Reg := do
  ask (.suspendMind (← defaultMind))
  make .nil

/-! ### Coroutines -/

def ticker (p : PollInfo) : Program Poll := do
  journal [.count p.updateCount, .time p.startedAt, .time p.clock, .flag p.isFirstStep,
    .count p.mind.index, .text p.frame.text]
  return .pending .tick

/-- The number left to count down: what was kept, or the argument at the start. -/
def remaining (p : PollInfo) : Program Int64 := do
  if p.isFirstStep then
    match ← ask (.inspect (arg 0)) with
    | .integer n => return n
    | _ => fail (.custom "expected an integer")
  else
    match ← ask .takeState with
    | some (.integer n) => return n
    | _ => return 0

def countdown (p : PollInfo) : Program Poll := do
  let n ← remaining p
  if n ≤ 0 then return .ready (← count p.updateCount)
  ask (.setState (.integer (n - 1)))
  return .pending .tick

def quit (p : PollInfo) : Program Poll := do
  if !p.isFirstStep then
    ask (.stopFor this)
  return .pending .tick

def quitDone (_ : PollInfo) : Program Poll := do
  ask (.stopFor this)
  return .ready this

/-- The payload that was delivered, or nil. -/
def payload : Program Reg := do
  match ← ask .takeDelivered with
  | some r => return r
  | none => make .nil

/-- Wait once, then journal the payload and complete with it. -/
def waitOnce (wait : Program Waiting) (p : PollInfo) : Program Poll := do
  if p.isFirstStep then return .pending (← wait)
  let r ← payload
  journal [.count p.updateCount, .time p.clock, .value r]
  return .ready r

def relay (p : PollInfo) : Program Poll := do
  let event ← name (arg 0)
  if p.isFirstStep then return .pending (.event event)
  let r ← payload
  let n ← ask (.notify p.mind event r)
  journal [.text "relay", .count n]
  return .ready r

def eventTick (p : PollInfo) : Program Poll := do
  journal [.text "event_tick", .count p.updateCount, .time p.clock]
  match p.updateCount with
  | 0 => return .pending (.event (← name (arg 0)))
  | 1 => return .pending .tick
  | 2 => return .pending (.atTime 0)
  | _ => return .ready this

def lateFail (p : PollInfo) : Program Poll := do
  if p.isFirstStep then return .pending .tick
  fail (.custom (← text (arg 0)))

/-- Ask for an argument beyond the ones there are. -/
def miss (p : PollInfo) : Program Poll :=
  fail (.ofKind (.arityMismatch "" (p.argCount + 3) p.argCount))

/-- Keep a text, then ask for it as a number, which loses it. -/
def badState (p : PollInfo) : Program Poll := do
  if p.isFirstStep then
    ask (.setState (.text "state"))
    return .pending .tick
  let first ← ask .takeState
  let second ← ask .takeState
  let found := match first, second with
    | some (.integer _), _ => true
    | _, some (.text _) => true
    | _, _ => false
  return .ready (← make (.boolean found))

def method (params : List String) (program : Program Reg) (name : String) : MemberDecl :=
  .nativeMethod name params (.host program)

def coroutine (params : List String) (poll : PollInfo → Program Poll) (name : String) : MemberDecl :=
  .nativeCoroutine name params (.host poll)

/-- The probe of a kind, to be declared under a name. -/
def named? : String → Option (String → MemberDecl)
  | "log" => some (method ["x"] log)
  | "pair" => some (method ["a", "b"] pair)
  | "self" => some (method [] (pure this))
  | "fail" => some (method ["message"] (do fail (.custom (← text (arg 0)))))
  | "notify" => some (method ["event", "payload"] notify)
  | "tick" => some (method ["seconds"] tick)
  | "stop_all" => some (method [] stopAll)
  | "stop_mine" => some (method [] stopMine)
  | "gc" => some (method [] (do count (← ask .collectGarbage)))
  | "depth" => some (method [] (do count (← ask .callDepth)))
  | "pending" => some (method [] (do count (← ask .pendingDestructors)))
  | "live" => some (method [] live)
  | "start" => some (method ["member"] (start false))
  | "start_deferred" => some (method ["member"] (start true))
  | "call" => some (method ["member"] call)
  | "make" => some (method ["class"] construct)
  | "throttle" => some (method ["coroutine", "seconds"] throttle)
  | "suspend" => some (method [] suspend)
  | "ticker" => some (coroutine [] ticker)
  | "countdown" => some (coroutine ["n"] countdown)
  | "quit" => some (coroutine [] quit)
  | "quit_done" => some (coroutine [] quitDone)
  | "at" => some (coroutine ["t"] (waitOnce do return .atTime (← number (arg 0))))
  | "on_event" => some (coroutine ["event"] (waitOnce do return .event (← name (arg 0))))
  | "on_frame" => some (coroutine ["coroutine"] (waitOnce do return .frame (← handle (arg 0))))
  | "on_children" => some (coroutine [] (waitOnce (pure .children)))
  | "miss" => some (coroutine ["a"] miss)
  | "relay" => some (coroutine ["event"] relay)
  | "event_tick" => some (coroutine ["event"] eventTick)
  | "late_fail" => some (coroutine ["message"] lateFail)
  | "ready" => some (coroutine ["x"] fun _ ↦ return .ready (arg 0))
  | "bad_state" => some (coroutine [] badState)
  | _ => none

end MindScript.Probe
