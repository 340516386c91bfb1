import MindScript.Proofs.Custody.Decent

/-!
# Errors that frames failed with

A frame that fails leaves its error in its outcome, where whoever awaits the frame finds it.  The value of a loop
exit is not held there: by the time a frame ends, a loop exit that escaped from it has become a failure.  And every
failure is blamed on someone.
-/

namespace MindScript

/-- A failure that names the invocation that it left. -/
structure EvalError.Blamed (e : EvalError) : Prop where
  isLoopExit : e.isLoopExit = false
  origin : e.origin.isSome = true

namespace World

/-- Some frame has failed with this error. -/
def Failed (w : World) (e : EvalError) : Prop := ∃ o c, w.cell? o = some c ∧ c.error = some e

/-- Whoever has failed since has failed with a failure that is blamed on someone. -/
def Blames (w w' : World) : Prop := ∀ e, w'.Failed e → w.Failed e ∨ e.Blamed

variable {w w' w'' : World}

namespace Blames

theorem refl (w : World) : Blames w w := fun _ h ↦ .inl h

theorem trans (h : Blames w w') (h' : Blames w' w'') : Blames w w'' :=
  fun e he ↦ (h' e he).elim (h e) .inr

theorem of_outcomes (h : w'.heap.outcomes.map Outcome.bare = w.heap.outcomes.map Outcome.bare) : Blames w w' := by
  rintro e ⟨o, c, hc, he⟩
  refine .inl ⟨o, c, ?_, he⟩
  rwa [cell?, Heap.outcome?, ← Array.getElem?_map, h, Array.getElem?_map] at hc

/-- An outcome is written to, and what it tells of an error is blamed on someone. -/
theorem modifyOutcome (w : World) (o : OutcomeId) {g : Outcome → Outcome}
    (hg : ∀ c e, (g c).error = some e → c.error = some e ∨ e.Blamed) :
    Blames w { w with heap := w.heap.modifyOutcome o g } := by
  rintro e ⟨k, c, hc, he⟩
  rw [cell?] at hc
  obtain ⟨c', hc', rfl⟩ := Option.map_eq_some_iff.mp hc
  rw [Heap.outcome?_modifyOutcome] at hc'
  split at hc'
  · obtain ⟨c₀, hc₀, rfl⟩ := Option.map_eq_some_iff.mp hc'
    exact (hg c₀ e he).imp_left fun h ↦ ⟨k, c₀.bare, by rw [cell?, hc₀, Option.map_some], h⟩
  · exact .inl ⟨k, c'.bare, by rw [cell?, hc', Option.map_some], he⟩

end Blames

/-! ### The functions of the scheduler -/

variable (w : World) (m : MindId)

theorem blames_release (ls : List Link) : Blames w (w.release ls) := .of_outcomes (still_release w ls).outcomes

theorem blames_settle (id : FrameId) {ending : Ending} (hending : ending.IsFinal) :
    Blames w (w.settle m id ending) := by
  unfold settle
  split
  · exact blames_release w _
  · next entry _ =>
    split
    · exact blames_release w _
    · refine (Blames.modifyOutcome w entry.handle.outcome fun _ e he ↦ .inr ?_).trans
        ((Blames.of_outcomes rfl).trans (blames_release _ _))
      obtain ⟨e', he', rfl⟩ := Option.map_eq_some_iff.mp he
      exact ⟨hending e' he', e'.isSome_origin_withOrigin _⟩

theorem closing_blames : Closing m Blames where
  refl := .refl
  trans := .trans
  release := blames_release
  clear _ _ := .of_outcomes rfl
  mark _ _ := .of_outcomes rfl
  settle w id _ hending := blames_settle w m id hending

theorem blames_setStatus (x : Handle) (s : FrameStatus) : Blames w (w.setStatus x s) :=
  .modifyOutcome w x.outcome fun _ _ he ↦ .inl he

theorem blames_sleep (id : FrameId) (wake : Wake) : Blames w (w.sleep m id wake) := by
  unfold sleep
  split
  · exact blames_release w _
  · exact (blames_setStatus w _ _).trans (.of_outcomes rfl)

theorem blames_returnFrame (id : FrameId) (frame : Frame) (step : Except EvalError Step) :
    Blames w (w.returnFrame m id frame step) :=
  (closing_blames m).returnFrame (.of_outcomes rfl) (fun wake ↦ blames_sleep _ m id wake) step

theorem blames_takeFrame (id : FrameId) (entry : FrameEntry) (frame : Frame) :
    Blames w (w.takeFrame m id entry frame) := by
  have htaken : Blames w (w.modifyEntry m id FrameEntry.taken) := .of_outcomes rfl
  exact htaken.trans ((blames_setStatus _ _ _).trans (.of_outcomes (still_release _ _).outcomes))

theorem blames_register (name : String) (owner : ClassId) (parent : Option FrameId) (frame : Frame) :
    Blames w (w.register m name owner parent frame).2 := by
  have hnew : Blames w { w with heap := (w.heap.newOutcome .pending).2 } := by
    rintro e ⟨o, c, hc, he⟩
    obtain ⟨c', hc', rfl⟩ := Option.map_eq_some_iff.mp hc
    simp only [Heap.outcome?, Heap.newOutcome, Array.getElem?_push] at hc'
    split at hc'
    · cases hc'
      cases he
    · exact .inl ⟨o, c'.bare, by rw [cell?, Heap.outcome?, hc', Option.map_some], he⟩
  have hopen : Blames w (w.openOutcome frame.context.this).2 :=
    hnew.trans ((Blames.of_outcomes (still_retain _ _).outcomes).trans
      (.of_outcomes (still_retain _ _).outcomes))
  unfold register
  dsimp only
  split
  · exact hopen
  · exact hopen.trans (.of_outcomes rfl)

theorem blames_sweep : Blames w (w.sweep m) := by
  unfold sweep
  split
  · exact .refl w
  · split
    · exact .of_outcomes (still_release _ _).outcomes
    · exact .refl w

theorem blames_detachChildren (id : FrameId) : Blames w (w.detachChildren m id) := by
  unfold detachChildren
  split
  · exact .refl w
  · exact .of_outcomes rfl

theorem blames_notify (event : String) (payload : Ref) : Blames w (w.notify m event payload).2 := by
  unfold notify
  split
  · exact .refl w
  · have hdeliver := rel_foldl (R := Blames)
      (f := fun w id ↦ (w.retain (.object payload)).modifyEntry m id fun e ↦ { e with delivered := some payload })
      .refl .trans fun w _ ↦ .of_outcomes (still_retain w (.object payload)).outcomes
    dsimp only
    split
    · exact (hdeliver _ w).trans (.of_outcomes rfl)
    · exact hdeliver _ w

end World

end MindScript
