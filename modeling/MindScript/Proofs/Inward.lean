import MindScript.Machine.Resume

/-!
# What the scheduler leaves alone

The functions of the scheduler change the heap and the Minds, and nothing else: not the context of the
running code, not its call stack, not the classes.
-/

namespace MindScript.Ending

/-- A frame does not fail with a loop exit that is still under way. -/
def IsFinal (ending : Ending) : Prop := ∀ e, ending.error? = some e → e.isLoopExit = false

theorem isFinal_stopped : stopped.IsFinal := fun _ h ↦ by cases h

theorem isFinal_completed (value : Ref) : (completed value).IsFinal := fun _ h ↦ by cases h

theorem isFinal_failed {e : EvalError} (h : e.isLoopExit = false) : (failed e).IsFinal := fun e' h' ↦ by
  cases h'
  exact h

end MindScript.Ending

namespace MindScript.World

/-- The Mind after a frame that settles is recorded and has left its parent. -/
def parted (a : Mind) (id : FrameId) (entry : FrameEntry) (s : FrameStatus) : Mind :=
  entry.parent.elim ((a.modifyEntry id FrameEntry.settled).record id entry.handle.name s) fun parent ↦
    leaveParent ((a.modifyEntry id FrameEntry.settled).record id entry.handle.name s) parent id

/-- A frame that has left its parent wakes who waits for it, and a failure is kept. -/
theorem settleEntry_eq (a : Mind) (id : FrameId) (entry : FrameEntry) (s : FrameStatus) (failure : Option FrameFailure) :
    settleEntry a id entry s failure =
      failure.elim ((parted a id entry s).wake entry.waiters).noteFinished
        ((parted a id entry s).wake entry.waiters).noteFinished.recordFailure := by
  unfold settleEntry parted
  cases entry.parent <;> cases failure <;> rfl

/-- Only the heap and what is in the Minds differ. -/
structure Inward (w w' : World) : Prop where
  minds : w'.minds.size = w.minds.size
  others : w' = { w with heap := w'.heap, minds := w'.minds }

namespace Inward

variable {w w' w'' : World}

theorem refl (w : World) : Inward w w := ⟨rfl, rfl⟩

theorem trans (h : Inward w w') (h' : Inward w' w'') : Inward w w'' := by
  refine ⟨h'.minds.trans h.minds, ?_⟩
  rw [h'.others, h.others]

theorem current (h : Inward w w') : w'.current = w.current := by rw [h.others]

theorem defaultMind (h : Inward w w') : w'.defaultMind = w.defaultMind := by rw [h.others]

theorem context (h : Inward w w') : w'.context = w.context := by rw [h.others]

theorem classes (h : Inward w w') : w'.classes = w.classes := by rw [h.others]

end Inward

@[simp] theorem size_minds_modifyMind (w : World) (m : MindId) (f : Mind → Mind) :
    (w.modifyMind m f).minds.size = w.minds.size := by
  simp [modifyMind]

theorem inward_heap (w : World) (heap : Heap) : Inward w { w with heap } := ⟨rfl, rfl⟩

theorem inward_modifyMind (w : World) (m : MindId) (f : Mind → Mind) : Inward w (w.modifyMind m f) :=
  ⟨size_minds_modifyMind w m f, rfl⟩

theorem inward_modifyEntry (w : World) (m : MindId) (id : FrameId) (f : FrameEntry → FrameEntry) :
    Inward w (w.modifyEntry m id f) :=
  inward_modifyMind w m _

theorem inward_settle (w : World) (m : MindId) (id : FrameId) (ending : Ending) :
    Inward w (w.settle m id ending) := by
  unfold settle
  split
  · exact inward_heap w _
  · split
    · exact inward_heap w _
    · exact ((inward_heap w _).trans (inward_modifyMind _ m _)).trans (inward_heap _ _)

theorem rel_foldl {R : World → World → Prop} (hrefl : ∀ w, R w w)
    (htrans : ∀ {w w' w''}, R w w' → R w' w'' → R w w'') {α : Type} {f : World → α → World}
    (hf : ∀ w a, R w (f w a)) (xs : List α) (w : World) : R w (xs.foldl f w) := by
  induction xs generalizing w with
  | nil => exact hrefl w
  | cons a rest ih => exact htrans (hf w a) (ih _)

theorem inward_foldl {α : Type} {f : World → α → World} (hf : ∀ w a, Inward w (f w a)) (xs : List α)
    (w : World) : Inward w (xs.foldl f w) :=
  rel_foldl .refl .trans hf xs w

/-! ### What ending and stopping are made of -/

/-- A relation that holds across each of the changes that end and stop frames of a Mind. -/
structure Closing (m : MindId) (R : World → World → Prop) : Prop where
  refl : ∀ w, R w w
  trans : ∀ {w w' w''}, R w w' → R w' w'' → R w w''
  release : ∀ w ls, R w (w.release ls)
  clear : ∀ w id, R w (w.modifyEntry m id fun e ↦ { e with children := #[] })
  mark : ∀ w id, R w (w.modifyEntry m id fun e ↦ { e with stopRequested := true })
  settle : ∀ w id ending, ending.IsFinal → R w (w.settle m id ending)

namespace Closing

variable {m : MindId} {R : World → World → Prop} (hR : Closing m R)

include hR

theorem stopWith {finish : World → FrameId → World} (hfinish : ∀ w id, R w (finish w id)) (w : World)
    (id : FrameId) : R w (World.stopWith finish m w id) := by
  unfold World.stopWith
  split
  · exact hR.refl w
  · split
    · exact hR.refl w
    · split
      · exact hR.mark w id
      · exact hfinish w id

theorem finishWithin (n : Nat) (w : World) (id : FrameId) {ending : Ending} (hending : ending.IsFinal) :
    R w (World.finishWithin n m w id ending) := by
  induction n generalizing w id ending with
  | zero => exact hR.refl w
  | succ n ih =>
    unfold World.finishWithin
    split
    · exact hR.release w _
    · split
      · exact hR.release w _
      · dsimp only
        rw [← Array.foldl_toList]
        refine hR.trans (hR.trans (hR.clear w id) ?_) (hR.settle _ id ending hending)
        exact rel_foldl hR.refl hR.trans (fun w k ↦ hR.stopWith (fun w k ↦ ih w k Ending.isFinal_stopped) w k) _ _

theorem finishFrame (w : World) (id : FrameId) {ending : Ending} (hending : ending.IsFinal) :
    R w (w.finishFrame m id ending) :=
  hR.finishWithin _ w id hending

theorem stopFrame (w : World) (id : FrameId) : R w (World.stopFrame m w id) :=
  hR.stopWith (fun w k ↦ hR.finishFrame w k Ending.isFinal_stopped) w id

/-- A step that is concluded ends its frame or puts it to sleep. -/
theorem conclude {w : World} {id : FrameId} (hsleep : ∀ wake, R w (w.sleep m id wake))
    (step : Except EvalError Step) : R w (w.conclude m id step) := by
  unfold World.conclude
  split
  · exact hR.finishFrame w id (Ending.isFinal_completed _)
  · unfold World.suspendFrame
    split
    · split
      · exact hR.trans (hR.finishFrame w id (Ending.isFinal_failed rfl)) (hR.release _ _)
      · exact hsleep _
    · exact hsleep _
  · exact hR.trans (hR.release w _) (hR.finishFrame _ id (Ending.isFinal_failed (EvalError.isLoopExit_toFailure _)))

theorem returnFrame {w : World} {id : FrameId} {frame : Frame}
    (hback : R w (w.modifyEntry m id fun e ↦ { e with frame := some frame }))
    (hsleep : ∀ wake, R (w.modifyEntry m id fun e ↦ { e with frame := some frame })
      ((w.modifyEntry m id fun e ↦ { e with frame := some frame }).sleep m id wake))
    (step : Except EvalError Step) : R w (w.returnFrame m id frame step) := by
  unfold World.returnFrame
  split
  · exact hR.release w _
  · have hconclude := hR.trans hback (hR.conclude hsleep step)
    dsimp only
    split
    · exact hR.trans hconclude (hR.stopFrame _ id)
    · exact hconclude

end Closing

theorem closing_inward (m : MindId) : Closing m Inward where
  refl := .refl
  trans := .trans
  release w _ := inward_heap w _
  clear w id := inward_modifyEntry w m id _
  mark w id := inward_modifyEntry w m id _
  settle w id ending _ := inward_settle w m id ending

theorem inward_stopFrame (m : MindId) (w : World) (id : FrameId) : Inward w (stopFrame m w id) :=
  (closing_inward m).stopFrame w id

theorem inward_sleep (w : World) (m : MindId) (id : FrameId) (wake : Wake) :
    Inward w (w.sleep m id wake) := by
  unfold sleep
  split
  · exact inward_heap w _
  · exact (inward_heap w _).trans (inward_modifyMind _ m _)

theorem inward_returnFrame (w : World) (m : MindId) (id : FrameId) (frame : Frame)
    (step : Except EvalError Step) : Inward w (w.returnFrame m id frame step) :=
  (closing_inward m).returnFrame (inward_modifyEntry w m id _) (fun wake ↦ inward_sleep _ m id wake) step

@[simp] theorem size_minds_takeFrame (w : World) (m : MindId) (id : FrameId) (entry : FrameEntry)
    (frame : Frame) : (w.takeFrame m id entry frame).minds.size = w.minds.size :=
  size_minds_modifyMind w m _

theorem inward_register (w : World) (m : MindId) (name : String) (owner : ClassId)
    (parent : Option FrameId) (frame : Frame) : Inward w (w.register m name owner parent frame).2 := by
  have hopen : Inward w (w.openOutcome frame.context.this).2 := ⟨rfl, rfl⟩
  unfold register
  dsimp only
  split
  · exact hopen
  · exact hopen.trans (inward_modifyMind _ m _)

theorem inward_sweep (w : World) (m : MindId) : Inward w (w.sweep m) := by
  unfold sweep
  split
  · exact .refl w
  · split
    · exact (inward_modifyMind w m _).trans (inward_heap _ _)
    · exact .refl w

theorem inward_detachChildren (w : World) (m : MindId) (id : FrameId) :
    Inward w (w.detachChildren m id) := by
  unfold detachChildren
  split
  · exact .refl w
  · exact inward_modifyMind w m _

theorem inward_notify (w : World) (m : MindId) (event : String) (payload : Ref) :
    Inward w (w.notify m event payload).2 := by
  unfold notify
  split
  · exact .refl w
  · have hdeliver := fun ids ↦ inward_foldl (f := fun w id ↦ (w.retain (.object payload)).modifyEntry m id
      fun e ↦ { e with delivered := some payload })
      (fun w id ↦ (inward_heap w _).trans (inward_modifyEntry _ m id _)) ids w
    dsimp only
    split
    · exact (hdeliver _).trans (inward_modifyMind _ m _)
    · exact hdeliver _

/-! ### Stopping from outside -/

section

variable {R : World → World → Prop} (hR : ∀ m, Closing m R) (hsweep : ∀ w m, R w (w.sweep m))

include hR hsweep

theorem rel_settleMind (w : World) (m : MindId) : R w (w.settleMind m) := by
  unfold settleMind
  split
  · exact (hR m).refl w
  · exact hsweep w m

theorem rel_stop (w : World) (x : Handle) : R w (w.stop x) := by
  unfold stop
  split
  · exact (hR x.mind).trans ((hR x.mind).stopFrame w x.frame) (rel_settleMind hR hsweep _ x.mind)
  · exact (hR x.mind).refl w

/-- Stopping some of the frames of a Mind, and sweeping the Mind. -/
theorem rel_stopFrames (w : World) (m : MindId) (ids : List FrameId) :
    R w ((ids.foldl (stopFrame m) w).settleMind m) :=
  (hR m).trans (rel_foldl (hR m).refl (hR m).trans (hR m).stopFrame ids w) (rel_settleMind hR hsweep _ m)

theorem rel_stopAll (w : World) (m : MindId) : R w (w.stopAll m) := by
  unfold stopAll
  split
  · exact (hR m).refl w
  · exact rel_stopFrames hR hsweep w m _

theorem rel_stopAllFor (w : World) (target : Ref) : R w (w.stopAllFor target) := by
  refine rel_foldl (hR ⟨0⟩).refl (hR ⟨0⟩).trans (fun w m ↦ ?_) _ w
  unfold stopOnMind
  split
  · exact (hR m).refl w
  · exact rel_stopFrames hR hsweep w m _

end

theorem inward_settleMind (w : World) (m : MindId) : Inward w (w.settleMind m) :=
  rel_settleMind closing_inward inward_sweep w m

theorem inward_stop (w : World) (x : Handle) : Inward w (w.stop x) := rel_stop closing_inward inward_sweep w x

theorem inward_stopAll (w : World) (m : MindId) : Inward w (w.stopAll m) :=
  rel_stopAll closing_inward inward_sweep w m

theorem inward_stopAllFor (w : World) (target : Ref) : Inward w (w.stopAllFor target) :=
  rel_stopAllFor closing_inward inward_sweep w target

theorem inward_stopEverything (w : World) : Inward w w.stopEverything := inward_foldl inward_stopAll _ w

end MindScript.World
