import MindScript.Proofs.Scheduler.Moments
import MindScript.Proofs.Scheduler.Notes

/-!
# Acts that keep the books

A Mind lists its frames, and it has a queue of frames that were woken.  An act may be anything at all that
leaves frames and outcomes alone; what an interpreter does keeps the lists of the Minds besides, and takes
nobody out of the queue of a Mind but the Mind that is being pumped.  No other clock goes on either.
-/

namespace MindScript

namespace World

/-- The frames that a Mind lists. -/
def live (w : World) (m : MindId) : List FrameId := ((w.mind? m).map fun mind ↦ mind.live.toList).getD []

/-- The frames of a Mind that were woken and have not had their turn yet. -/
def ready (w : World) (m : MindId) : List FrameId := ((w.mind? m).map Mind.ready).getD []

def isUpdating (w : World) (m : MindId) : Bool := ((w.mind? m).map Mind.updating).getD false

/-- The deferred frames of a Mind. -/
def pending (w : World) (m : MindId) : List FrameId := ((w.mind? m).map Mind.pending).getD []

def clock (w : World) (m : MindId) : Float := ((w.mind? m).map Mind.clock).getD 0

def tick (w : World) (m : MindId) : Nat := ((w.mind? m).map Mind.tick).getD 0

/-- The lists of all Minds are the same, and so are the queues and clocks, of the pumped Mind apart. -/
structure Tends (pumped : Option MindId) (w w' : World) : Prop where
  live : ∀ m, w'.live m = w.live m
  tick_le : ∀ m, w.tick m ≤ w'.tick m
  ready : ∀ m, pumped ≠ some m → w'.ready m = w.ready m
  updating : ∀ m, pumped ≠ some m → w'.isUpdating m = w.isUpdating m
  clock : ∀ m, pumped ≠ some m → w'.clock m = w.clock m
  tick : ∀ m, pumped ≠ some m → w'.tick m = w.tick m

theorem tends_of_minds {w w' : World} (h : w'.minds = w.minds) (pumped : Option MindId) :
    Tends pumped w w' := by
  have hmind : ∀ m, w'.mind? m = w.mind? m := fun m ↦ by rw [mind?, mind?, h]
  refine ⟨fun m ↦ ?_, fun m ↦ ?_, fun m _ ↦ ?_, fun m _ ↦ ?_, fun m _ ↦ ?_, fun m _ ↦ ?_⟩
  · rw [live, live, hmind]
  · rw [tick, tick, hmind]
  · rw [ready, ready, hmind]
  · rw [isUpdating, isUpdating, hmind]
  · rw [clock, clock, hmind]
  · rw [tick, tick, hmind]

theorem tends_modifyMind (w : World) (m : MindId) {f : Mind → Mind} {pumped : Option MindId}
    (hlive : ∀ mind, (f mind).live = mind.live) (htick : ∀ mind, mind.tick ≤ (f mind).tick)
    (hidle : pumped ≠ some m → ∀ mind, (f mind).ready = mind.ready ∧ (f mind).updating = mind.updating ∧
      (f mind).clock = mind.clock ∧ (f mind).tick = mind.tick) :
    Tends pumped w (w.modifyMind m f) := by
  refine ⟨fun m' ↦ ?_, fun m' ↦ ?_, fun m' hm' ↦ ?_, fun m' hm' ↦ ?_, fun m' hm' ↦ ?_, fun m' hm' ↦ ?_⟩
  · rw [live, w.map_mind?_modifyMind fun _ mind ↦ congrArg Array.toList (hlive mind), live]
  · rw [tick, tick, mind?_modifyMind]
    split
    · next heq =>
      rw [heq]
      cases w.mind? m with
      | none => exact Nat.le_refl _
      | some mind => exact htick mind
    · exact Nat.le_refl _
  · rw [ready, w.map_mind?_modifyMind fun heq mind ↦ (hidle (by rwa [← heq]) mind).1, ready]
  · rw [isUpdating, w.map_mind?_modifyMind fun heq mind ↦ (hidle (by rwa [← heq]) mind).2.1, isUpdating]
  · rw [clock, w.map_mind?_modifyMind fun heq mind ↦ (hidle (by rwa [← heq]) mind).2.2.1, clock]
  · rw [tick, w.map_mind?_modifyMind fun heq mind ↦ (hidle (by rwa [← heq]) mind).2.2.2, tick]

end World

/-- An act that keeps the books, in the course of the update of a Mind or outside of any update. -/
inductive Deed (pumped : Option MindId) : Moment → Moment → Prop where
  | compute {s : List FrameKey} {w w' : World} : w.Still w' → w.Steady w' → w.Tends pumped w' →
      Deed pumped ⟨s, w⟩ ⟨s, w'⟩
  | register {s : List FrameKey} {w : World} {m : MindId} (name : String) (owner : ClassId)
      {parent : Option FrameId} (frame : Frame) : m.index < w.minds.size →
      (∀ p, parent = some p → s.head? = some (m, p)) → frame.Fresh →
      Deed pumped ⟨s, w⟩ ⟨s, (w.register m name owner parent frame).2⟩
  | begin {s : List FrameKey} {w : World} {m : MindId} {id : FrameId} {e : FrameEntry} {frame : Frame} :
      w.entryAt m id = some e → w.isFinished e.handle = false → e.frame = some frame →
      Deed pumped ⟨s, w⟩ ⟨(m, id) :: s, w.takeFrame m id e frame⟩
  | back {s : List FrameKey} {w : World} {m : MindId} {id : FrameId} (context : Context) (frame : Frame)
      (step : Except EvalError Step) :
      Deed pumped ⟨(m, id) :: s, w⟩ ⟨s, (w.enter context s.head?).returnFrame m id frame step⟩
  | stop {s : List FrameKey} {w : World} (m : MindId) (id : FrameId) :
      Deed pumped ⟨s, w⟩ ⟨s, World.stopFrame m w id⟩
  | sweep {s : List FrameKey} {w : World} (m : MindId) : Deed pumped ⟨s, w⟩ ⟨s, w.sweep m⟩
  | detach {s : List FrameKey} {w : World} (m : MindId) (id : FrameId) :
      Deed pumped ⟨s, w⟩ ⟨s, w.detachChildren m id⟩
  | notify {s : List FrameKey} {w : World} (m : MindId) (event : String) (payload : Ref) :
      Deed pumped ⟨s, w⟩ ⟨s, (w.notify m event payload).2⟩
  | setUpdateInterval {s : List FrameKey} {w : World} (h : Handle) (seconds : Float) :
      Deed pumped ⟨s, w⟩ ⟨s, w.setUpdateInterval h seconds⟩
  | createMind {s : List FrameKey} {w : World} (name : String) :
      Deed pumped ⟨s, w⟩ ⟨s, (w.createMind name).2⟩

theorem Deed.act {pumped : Option MindId} {M M' : Moment} (h : Deed pumped M M') : Act M M' := by
  cases h with
  | compute hstill hsteady _ => exact .compute hstill hsteady
  | register name owner frame hm hparent _ => exact .register name owner frame hm hparent
  | begin he hu hframe => exact .begin he hu hframe
  | back context frame step => exact .back context frame step
  | stop m id => exact .stop m id
  | sweep m => exact .sweep m
  | detach m id => exact .detach m id
  | notify m event payload => exact .notify m event payload
  | setUpdateInterval x seconds => exact .setUpdateInterval x seconds
  | createMind name => exact .createMind name

/-- Any number of deeds in the course of one update and of one step.  Nobody fails in them, so nobody notes a failure. -/
abbrev Course (pumped : Option MindId) : Moment → Moment → Prop :=
  Relation.ReflTransGen fun M M' ↦ Deed pumped M M' ∧ M'.stack = M.stack ∧ M.world.Silent M'.world

/-- Any number of deeds, through updates and steps. -/
abbrev Journey : Moment → Moment → Prop := Relation.ReflTransGen fun M M' ↦ ∃ pumped, Deed pumped M M'

theorem Course.of_deed {pumped : Option MindId} {s : List FrameKey} {w w' : World}
    (h : Deed pumped ⟨s, w⟩ ⟨s, w'⟩) (hsilent : w.Silent w') : Course pumped ⟨s, w⟩ ⟨s, w'⟩ :=
  .single ⟨h, rfl, hsilent⟩

theorem Course.journey {pumped : Option MindId} {M M' : Moment} (h : Course pumped M M') : Journey M M' :=
  Relation.ReflTransGen.mono (fun _ _ hdeed ↦ ⟨pumped, hdeed.1⟩) _ _ h

theorem Journey.run {M M' : Moment} (h : Journey M M') : Run M M' :=
  Relation.ReflTransGen.mono (fun _ _ ⟨_, hdeed⟩ ↦ hdeed.act) _ _ h

end MindScript
