import Mathlib.Logic.Relation
import MindScript.Proofs.Scheduler.Returns

/-!
# Moments and acts

Seen from the scheduler, an interpreter goes from moment to moment.  A moment is a world together with the
stack of the steps under way, and an act is one call of the scheduler, or anything at all that leaves frames
and outcomes alone.  Whatever a host, a script or a native member does is a sequence of acts.
-/

namespace MindScript

/-! ### What only steps and new Minds change -/

/-- Two worlds with the same step under way, the same default Mind and as many Minds. -/
structure World.Steady (w w' : World) : Prop where
  current : w'.current = w.current
  defaultMind : w'.defaultMind = w.defaultMind
  minds : w'.minds.size = w.minds.size

namespace World

theorem Steady.refl (w : World) : Steady w w := ⟨rfl, rfl, rfl⟩

theorem Inward.steady {w w' : World} (h : Inward w w') : Steady w w' :=
  ⟨h.current, h.defaultMind, h.minds⟩

end World

/-! ### Moments -/

/-- A world and the steps under way in it, the one that was begun last first. -/
structure Moment where
  stack : List FrameKey
  world : World

structure Moment.Valid (M : Moment) : Prop where
  sound : Sound ∅ M.stack M.world
  current : M.world.current = M.stack.head?
  defaultMind : ∀ m, M.world.defaultMind = some m → m.index < M.world.minds.size

/-- One call of the scheduler.  A new frame may be a child only of the step under way. -/
inductive Act : Moment → Moment → Prop where
  | compute {s : List FrameKey} {w w' : World} : w.Still w' → w.Steady w' → Act ⟨s, w⟩ ⟨s, w'⟩
  | register {s : List FrameKey} {w : World} {m : MindId} (name : String) (owner : ClassId)
      {parent : Option FrameId} (frame : Frame) : m.index < w.minds.size →
      (∀ p, parent = some p → s.head? = some (m, p)) →
      Act ⟨s, w⟩ ⟨s, (w.register m name owner parent frame).2⟩
  | begin {s : List FrameKey} {w : World} {m : MindId} {id : FrameId} {e : FrameEntry} {frame : Frame} :
      w.entryAt m id = some e → w.isFinished e.handle = false → e.frame = some frame →
      Act ⟨s, w⟩ ⟨(m, id) :: s, w.takeFrame m id e frame⟩
  | back {s : List FrameKey} {w : World} {m : MindId} {id : FrameId} (context : Context) (frame : Frame)
      (step : Except EvalError Step) :
      Act ⟨(m, id) :: s, w⟩ ⟨s, (w.enter context s.head?).returnFrame m id frame step⟩
  | stop {s : List FrameKey} {w : World} (m : MindId) (id : FrameId) : Act ⟨s, w⟩ ⟨s, World.stopFrame m w id⟩
  | sweep {s : List FrameKey} {w : World} (m : MindId) : Act ⟨s, w⟩ ⟨s, w.sweep m⟩
  | detach {s : List FrameKey} {w : World} (m : MindId) (id : FrameId) :
      Act ⟨s, w⟩ ⟨s, w.detachChildren m id⟩
  | notify {s : List FrameKey} {w : World} (m : MindId) (event : String) (payload : Ref) :
      Act ⟨s, w⟩ ⟨s, (w.notify m event payload).2⟩
  | setUpdateInterval {s : List FrameKey} {w : World} (h : Handle) (seconds : Float) :
      Act ⟨s, w⟩ ⟨s, w.setUpdateInterval h seconds⟩
  | createMind {s : List FrameKey} {w : World} (name : String) : Act ⟨s, w⟩ ⟨s, (w.createMind name).2⟩

/-- Any number of acts. -/
abbrev Run : Moment → Moment → Prop := Relation.ReflTransGen Act

namespace Moment.Valid

theorem of_steady {s : List FrameKey} {w w' : World} (h : Valid ⟨s, w⟩) (hsound : Sound ∅ s w')
    (hw : w.Steady w') : Valid ⟨s, w'⟩ := by
  refine ⟨hsound, hw.current.trans h.current, fun m hm ↦ ?_⟩
  rw [hw.defaultMind] at hm
  rw [hw.minds]
  exact h.defaultMind m hm

/-- The step under way belongs to a frame that is not finished. -/
theorem card_of_head? {s : List FrameKey} {w : World} (h : Valid ⟨s, w⟩) {m : MindId} {id : FrameId}
    (hhead : s.head? = some (m, id)) : ∃ c, w.card m id = some c ∧ c.isFinished = false := by
  have hmem : (m, id) ∈ s := List.mem_of_mem_head? hhead
  obtain ⟨c, hc⟩ := h.sound.card_of_mem hmem
  exact ⟨c, hc, h.sound.unfinished_of_mem hmem hc⟩

theorem registered {s : List FrameKey} {w : World} (h : Valid ⟨s, w⟩) {m : MindId} (name : String)
    (owner : ClassId) {parent : Option FrameId} (frame : Frame) (hm : m.index < w.minds.size)
    (hparent : ∀ p, parent = some p → s.head? = some (m, p)) :
    World.Registered m parent (w.register m name owner parent frame).1 w
      (w.register m name owner parent frame).2 := by
  refine World.registered_register h.sound.filed hm name owner frame fun p hp ↦ ?_
  obtain ⟨c, hc, -⟩ := h.card_of_head? (hparent p hp)
  rw [hc, Option.isSome_some]

/-- Every act leads from a valid moment to a valid one. -/
theorem act {M M' : Moment} (h : M.Valid) (hact : Act M M') : M'.Valid := by
  cases hact with
  | compute hstill hsteady => exact h.of_steady (h.sound.still hstill) hsteady
  | register name owner frame hm hparent =>
    exact h.of_steady (h.sound.registered (h.registered name owner frame hm hparent)
      fun p hp ↦ h.card_of_head? (hparent p hp)) (World.inward_register ..).steady
  | begin he hu hframe =>
    refine ⟨h.sound.takeFrame he hu hframe, rfl, fun k hk ↦ ?_⟩
    simpa [World.takeFrame, World.enter, World.release, World.setStatus, World.modifyEntry] using
      h.defaultMind k hk
  | @back s w m id context frame step =>
    have hsteady := World.inward_returnFrame (w.enter context s.head?) m id frame step
    refine ⟨(h.sound.still (World.still_enter ..)).returnFrame frame step, hsteady.current, fun k hk ↦ ?_⟩
    rw [hsteady.minds]
    exact h.defaultMind k (hsteady.defaultMind ▸ hk)
  | stop m id => exact h.of_steady (World.sound_stop h.sound m id).1 (World.inward_stopFrame ..).steady
  | sweep m => exact h.of_steady (h.sound.swept (World.swept_sweep h.sound.filed m)) (World.inward_sweep ..).steady
  | detach m id => exact h.of_steady (h.sound.detachChildren m id) (World.inward_detachChildren ..).steady
  | notify m event payload => exact h.of_steady (h.sound.notify m event payload) (World.inward_notify ..).steady
  | setUpdateInterval x seconds =>
    exact h.of_steady (h.sound.setUpdateInterval x seconds) (World.inward_modifyMind ..).steady
  | createMind name =>
    refine ⟨h.sound.createMind name, h.current, fun m hm ↦ ?_⟩
    simp only [World.createMind, Array.size_push]
    exact Nat.lt_succ_of_lt (h.defaultMind m hm)

theorem run {M M' : Moment} (h : M.Valid) (hrun : Run M M') : M'.Valid := by
  induction hrun with
  | refl => exact h
  | tail _ hact ih => exact ih.act hact

end Moment.Valid

end MindScript
