import MindScript.Proofs.Inward

/-!
# What the scheduler does to the heap

It takes references and gives them up, opens outcomes and changes them.  Whatever these four keep of a heap, the scheduler
keeps as well.
-/

namespace MindScript

/-- The second heap comes from the first by taking and giving up references, and by opening and changing outcomes. -/
inductive Heap.Dealt : Heap → Heap → Prop where
  | refl (h : Heap) : Dealt h h
  | retain {h h' : Heap} (l : Link) : Dealt h h' → Dealt h (h'.retain l)
  | release {h h' : Heap} (ls : List Link) : Dealt h h' → Dealt h (h'.release ls)
  | newOutcome {h h' : Heap} (status : FrameStatus) : Dealt h h' → Dealt h (h'.newOutcome status).2
  | modifyOutcome {h h' : Heap} (c : OutcomeId) (f : Outcome → Outcome) : Dealt h h' → Dealt h (h'.modifyOutcome c f)

theorem Heap.Dealt.trans {h h' h'' : Heap} (hd : Dealt h h') (hd' : Dealt h' h'') : Dealt h h'' := by
  induction hd' with
  | refl => exact hd
  | retain l _ ih => exact ih.retain l
  | release ls _ ih => exact ih.release ls
  | newOutcome status _ ih => exact ih.newOutcome status
  | modifyOutcome c f _ ih => exact ih.modifyOutcome c f

namespace World

def Deals (w w' : World) : Prop := w.heap.Dealt w'.heap

theorem Deals.refl (w : World) : Deals w w := Heap.Dealt.refl w.heap

theorem Deals.trans {w w' w'' : World} (h : Deals w w') (h' : Deals w' w'') : Deals w w'' := Heap.Dealt.trans h h'

theorem deals_retain (w : World) (l : Link) : Deals w (w.retain l) := (Heap.Dealt.refl w.heap).retain l

theorem deals_release (w : World) (ls : List Link) : Deals w (w.release ls) := (Heap.Dealt.refl w.heap).release ls

theorem deals_settle (w : World) (m : MindId) (id : FrameId) (ending : Ending) : Deals w (w.settle m id ending) := by
  unfold settle
  split
  · exact deals_release w _
  · split
    · exact deals_release w _
    · exact ((Heap.Dealt.refl w.heap).modifyOutcome _ _).release _

theorem closing_deals (m : MindId) : Closing m Deals where
  refl := .refl
  trans := .trans
  release := deals_release
  clear w _ := .refl w
  mark w _ := .refl w
  settle w id ending _ := deals_settle w m id ending

theorem deals_sleep (w : World) (m : MindId) (id : FrameId) (wake : Wake) : Deals w (w.sleep m id wake) := by
  unfold sleep
  split
  · exact deals_release w _
  · exact (Heap.Dealt.refl w.heap).modifyOutcome _ _

theorem deals_returnFrame (w : World) (m : MindId) (id : FrameId) (frame : Frame) (step : Except EvalError Step) :
    Deals w (w.returnFrame m id frame step) :=
  (closing_deals m).returnFrame (.refl w) (fun wake ↦ deals_sleep _ m id wake) step

theorem deals_takeFrame (w : World) (m : MindId) (id : FrameId) (entry : FrameEntry) (frame : Frame) :
    Deals w (w.takeFrame m id entry frame) :=
  ((Heap.Dealt.refl w.heap).modifyOutcome _ _).release _

theorem deals_register (w : World) (m : MindId) (name : String) (owner : ClassId) (parent : Option FrameId)
    (frame : Frame) : Deals w (w.register m name owner parent frame).2 := by
  have hopen : Deals w (w.openOutcome frame.context.this).2 :=
    (((Heap.Dealt.refl w.heap).newOutcome .pending).retain (.object frame.context.this)).retain
      (.outcome (w.heap.newOutcome .pending).1)
  unfold register
  dsimp only
  split
  · exact hopen
  · exact hopen

theorem deals_sweep (w : World) (m : MindId) : Deals w (w.sweep m) := by
  unfold sweep
  split
  · exact .refl w
  · split
    · exact (Heap.Dealt.refl w.heap).release _
    · exact .refl w

theorem heap_detachChildren (w : World) (m : MindId) (id : FrameId) : (w.detachChildren m id).heap = w.heap := by
  unfold detachChildren
  split <;> rfl

theorem deals_detachChildren (w : World) (m : MindId) (id : FrameId) : Deals w (w.detachChildren m id) := by
  rw [Deals, heap_detachChildren]
  exact .refl w.heap

theorem deals_notify (w : World) (m : MindId) (event : String) (payload : Ref) :
    Deals w (w.notify m event payload).2 := by
  unfold notify
  split
  · exact .refl w
  · have hdeliver := rel_foldl
      (f := fun w id ↦ (w.retain (.object payload)).modifyEntry m id fun e ↦ { e with delivered := some payload })
      Deals.refl .trans fun w _ ↦ deals_retain w (.object payload)
    dsimp only
    split
    · exact hdeliver _ w
    · exact hdeliver _ w

theorem deals_settleMind (w : World) (m : MindId) : Deals w (w.settleMind m) :=
  rel_settleMind closing_deals deals_sweep w m

theorem deals_stop (w : World) (x : Handle) : Deals w (w.stop x) := rel_stop closing_deals deals_sweep w x

theorem deals_stopAll (w : World) (m : MindId) : Deals w (w.stopAll m) := rel_stopAll closing_deals deals_sweep w m

theorem deals_stopAllFor (w : World) (target : Ref) : Deals w (w.stopAllFor target) :=
  rel_stopAllFor closing_deals deals_sweep w target

theorem deals_stopEverything (w : World) : Deals w w.stopEverything := rel_foldl .refl .trans deals_stopAll _ w

end World

end MindScript
