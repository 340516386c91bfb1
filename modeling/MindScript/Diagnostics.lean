import MindScript.Decimal.Format
import MindScript.Machine.World
import MindScript.Text.Quoted

/-!
# Diagnostic texts

How payloads, handles and weak references are written for a developer.
-/

namespace MindScript

/-- A truth value as diagnostics write it. -/
def flagText (b : Bool) : String := if b then "true" else "false"

/-- A payload; lists and closures show their size and kind only. -/
def Payload.summary : Payload → String
  | .plain => "Plain"
  | .boolean b => "Boolean(" ++ flagText b ++ ")"
  | .integer i => "Integer(" ++ toString i.toInt ++ ")"
  | .real x => "Real(" ++ Decimal.plain x ++ ")"
  | .text s => "String(" ++ Text.quoted s ++ ")"
  | .symbol name => "Symbol(" ++ name ++ ")"
  | .list items => "List(len=" ++ toString items.size ++ ")"
  | .closure c => "Closure(" ++ c.kind.title ++ ")"
  | .classObject c => "Class(" ++ c.text ++ ")"
  | .coroutine h => "Coroutine(" ++ h.frame.text ++ ")"

namespace World

/-- A handle with the status that it shows now. -/
def handleText (w : World) (h : Handle) : String :=
  "CoroutineHandle \x7b mind: " ++ h.mind.text ++ ", frame: " ++ h.frame.text ++ ", status: "
    ++ (w.status h).title ++ " \x7d"

/-- Whether an instance has not been freed.  Positions on the heap are not used twice, so a position is
all that a weak reference needs. -/
def isAlive (w : World) (r : Ref) : Bool := 0 < w.heap.refCount r

def weakText (w : World) (r : Ref) : String :=
  "WeakInstance(alive=" ++ flagText (w.isAlive r) ++ ")"

end World

end MindScript
