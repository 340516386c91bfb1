import Mathlib.Data.List.DropRight
import MindScript.Proofs.Scheduler.Frames

/-!
# What a Mind notes of failures

A Mind keeps notes of the frames that failed, for its host to take.  Among the functions of the scheduler only the one that
settles a frame adds to them, and only if the frame fails; so whoever is stopped below it goes without a note.
-/

namespace MindScript

/-! ### Bounded logs -/

theorem toList_pushBounded {α : Type} {log : Array α} (h : log.size ≤ logLimit) (a : α) :
    (pushBounded log a).toList = (log.toList ++ [a]).rtake logLimit := by
  rw [List.rtake, List.length_append, Array.length_toList, List.length_singleton]
  unfold pushBounded
  split
  · next hfull =>
    have hdrop : log.size + 1 - logLimit = 1 := by omega
    have hone : 1 ≤ log.toList.length := by
      rw [Array.length_toList, hfull]
      decide
    rw [hdrop, List.drop_append_of_le_length hone]
    have hlast : log.toList.tail.take (log.size - 1) = log.toList.tail := List.take_of_length_le (by simp)
    simp [List.drop_one, hlast]
  · next hfull =>
    have hdrop : log.size + 1 - logLimit = 0 := by omega
    rw [hdrop]
    simp

/-- What an older entry adds to a bounded log is lost once there are enough younger ones. -/
theorem rtake_rtake_append {α : Type} (n : ℕ) (l : List α) (a : α) : (l.rtake n ++ [a]).rtake n = (l ++ [a]).rtake n := by
  cases n with
  | zero => rw [List.rtake_zero, List.rtake_zero]
  | succ n =>
    rw [List.rtake_concat_succ, List.rtake_concat_succ, List.rtake_eq_reverse_take_reverse l (n + 1),
      List.rtake_eq_reverse_take_reverse, List.reverse_reverse, List.take_take, Nat.min_eq_left (Nat.le_succ n),
      ← List.rtake_eq_reverse_take_reverse]

/-- As long as there is room nothing is lost. -/
theorem rtake_of_length_lt {α : Type} {n : ℕ} {l : List α} (h : (l.rtake n).length < n) : l.rtake n = l := by
  rw [List.rtake, List.length_drop] at h
  have hdrop : l.length - n = 0 := by omega
  rw [List.rtake, hdrop, List.drop_zero]

/-! ### Minds -/

namespace Mind

theorem failures_record (mind : Mind) (id : FrameId) (name : String) (s : FrameStatus) :
    (mind.record id name s).failures = mind.failures := by
  unfold record
  split <;> rfl

theorem failures_wake (mind : Mind) (ids : Array FrameId) : (mind.wake ids).failures = mind.failures := by
  unfold wake
  split <;> rfl

end Mind

namespace World

theorem failures_parted (mind : Mind) (id : FrameId) (entry : FrameEntry) (s : FrameStatus) :
    (parted mind id entry s).failures = mind.failures := by
  unfold parted
  cases entry.parent with
  | none => exact Mind.failures_record _ id entry.handle.name s
  | some parent =>
    refine Eq.trans ?_ (Mind.failures_record (mind.modifyEntry id FrameEntry.settled) id entry.handle.name s)
    show (leaveParent _ parent id).failures = _
    unfold leaveParent
    split
    · rfl
    · dsimp only
      split
      · exact Mind.failures_wake _ _
      · rfl

theorem failures_settleEntry (mind : Mind) (id : FrameId) (entry : FrameEntry) (s : FrameStatus) :
    (settleEntry mind id entry s none).failures = mind.failures := by
  rw [settleEntry_eq]
  exact (Mind.failures_wake _ entry.waiters).trans (failures_parted mind id entry s)

/-- What a change to one Mind leaves alone is the same for all Minds. -/
theorem map_mind?_modifyMind {α : Type} {g : Mind → α} (w : World) {m m' : MindId} {f : Mind → Mind}
    (h : m' = m → ∀ mind, g (f mind) = g mind) : ((w.modifyMind m f).mind? m').map g = (w.mind? m').map g := by
  rw [mind?_modifyMind]
  split
  · next heq => simp [heq, h heq, Function.comp_def]
  · rfl

/-- The notes that a Mind keeps of its failures, the oldest first. -/
def failures (w : World) (m : MindId) : List FrameFailure :=
  ((w.mind? m).map fun mind ↦ mind.failures.toList).getD []

/-- No Mind notes or forgets a failure. -/
def Silent (w w' : World) : Prop := ∀ m, w'.failures m = w.failures m

variable {w w' w'' : World} {m : MindId}

namespace Silent

theorem refl (w : World) : Silent w w := fun _ ↦ rfl

theorem trans (h : Silent w w') (h' : Silent w' w'') : Silent w w'' := fun m ↦ (h' m).trans (h m)

theorem of_minds (h : w'.minds = w.minds) : Silent w w' := fun m ↦ by rw [failures, failures, mind?, mind?, h]

theorem modifyMind (w : World) (m : MindId) {f : Mind → Mind} (hf : ∀ mind, (f mind).failures = mind.failures) :
    Silent w (w.modifyMind m f) := by
  intro m'
  rw [failures, w.map_mind?_modifyMind fun _ mind ↦ congrArg Array.toList (hf mind), failures]

theorem release (h : Silent w w') (ls : List Link) : Silent w (w'.release ls) := h

theorem settle (w : World) (m : MindId) (id : FrameId) {ending : Ending} (h : ending.error? = none) :
    Silent w (w.settle m id ending) := by
  unfold World.settle
  split
  · exact of_minds rfl
  · split
    · exact of_minds rfl
    · next entry _ _ =>
      simp only [h, Option.map_none]
      exact release (modifyMind _ m fun mind ↦ failures_settleEntry mind id entry ending.status) _

theorem stopWith (w : World) (m : MindId) (id : FrameId) {finish : World → FrameId → World}
    (h : ∀ w k, Silent w (finish w k)) : Silent w (World.stopWith finish m w id) := by
  unfold World.stopWith
  split
  · exact refl w
  · split
    · exact refl w
    · split
      · exact modifyMind w m fun _ ↦ rfl
      · exact h w id

/-- A frame that does not fail leaves no note, and neither does anyone below it. -/
theorem finishWithin (n : ℕ) (w : World) (m : MindId) (id : FrameId) {ending : Ending} (h : ending.error? = none) :
    Silent w (World.finishWithin n m w id ending) := by
  induction n generalizing w id ending with
  | zero => exact refl w
  | succ n ih =>
    unfold World.finishWithin
    split
    · exact of_minds rfl
    · split
      · exact of_minds rfl
      · dsimp only
        rw [← Array.foldl_toList]
        have hstopped := rel_foldl (R := Silent) (f := World.stopWith (fun w c ↦ World.finishWithin n m w c .stopped) m) refl
          trans fun w k ↦ stopWith w m k fun w k ↦ ih w k rfl
        refine trans (trans (modifyMind w m fun mind ↦ ?_) (hstopped _ _)) (settle _ m id h)
        rfl

theorem stopFrame (w : World) (m : MindId) (id : FrameId) : Silent w (World.stopFrame m w id) :=
  stopWith w m id fun w k ↦ finishWithin _ w m k rfl

theorem sleep (w : World) (m : MindId) (id : FrameId) (wake : Wake) : Silent w (w.sleep m id wake) := by
  unfold World.sleep
  split
  · exact of_minds rfl
  · next e _ =>
    have hstatus : Silent w (w.setStatus e.handle .suspended) := of_minds rfl
    refine hstatus.trans (modifyMind _ m fun mind ↦ ?_)
    unfold enlist
    split
    · split <;> rfl
    · rfl

theorem takeFrame (w : World) (m : MindId) (id : FrameId) (entry : FrameEntry) (frame : Frame) :
    Silent w (w.takeFrame m id entry frame) := by
  have htaken : Silent w (w.modifyEntry m id FrameEntry.taken) := modifyMind w m fun _ ↦ rfl
  exact htaken.trans (of_minds rfl)

theorem register (w : World) (m : MindId) (name : String) (owner : ClassId) (parent : Option FrameId) (frame : Frame) :
    Silent w (w.register m name owner parent frame).2 := by
  unfold World.register
  dsimp only
  split
  · exact of_minds rfl
  · have hopened : Silent w (w.openOutcome frame.context.this).2 := of_minds rfl
    refine hopened.trans (modifyMind _ m fun mind ↦ ?_)
    unfold Mind.enroll
    rw [Mind.failures_record]
    unfold Mind.adopt Mind.insert
    split <;> split <;> rfl

theorem sweep (w : World) (m : MindId) : Silent w (w.sweep m) := by
  have hremoved : ∀ (ids : List FrameId) (mind : Mind),
      (ids.foldl (fun mind id ↦ (mind.remove id).2) mind).failures = mind.failures := by
    intro ids
    induction ids with
    | nil => exact fun _ ↦ rfl
    | cons id rest ih =>
      intro mind
      rw [List.foldl_cons, ih]
      unfold Mind.remove
      split <;> rfl
  unfold World.sweep
  split
  · exact refl w
  · next mind₀ _ =>
    split
    · dsimp only
      generalize mind₀.live.toList.partition (w.isSettled mind₀) = parts
      refine release (modifyMind w m fun mind ↦ ?_) _
      exact hremoved parts.1 mind
    · exact refl w

theorem detachChildren (w : World) (m : MindId) (id : FrameId) : Silent w (w.detachChildren m id) := by
  unfold World.detachChildren
  split
  · exact refl w
  · refine modifyMind w m fun mind ↦ ?_
    rw [← Array.foldl_toList]
    generalize Array.toList _ = ids
    induction ids using List.reverseRecOn with
    | nil => rfl
    | append_singleton rest k ih =>
      rw [List.foldl_append]
      exact ih

theorem notify (w : World) (m : MindId) (event : String) (payload : Ref) : Silent w (w.notify m event payload).2 := by
  unfold World.notify
  split
  · exact refl w
  · have hgiven : ∀ (w : World) (id : FrameId), Silent w
        ((w.retain (.object payload)).modifyEntry m id fun e ↦ { e with delivered := some payload }) := by
      intro w id
      have hretained : Silent w (w.retain (.object payload)) := of_minds rfl
      exact hretained.trans (modifyMind _ m fun _ ↦ rfl)
    have hdeliver := rel_foldl (R := Silent) refl trans hgiven
    dsimp only
    split
    · exact (hdeliver _ w).trans (modifyMind _ m fun mind ↦ Mind.failures_wake mind _)
    · exact hdeliver _ w

theorem createMind (w : World) (name : String) : Silent w (w.createMind name).2 := by
  intro m
  unfold failures mind? World.createMind
  rw [Array.getElem?_push]
  split
  · next hm => simp [hm]
  · rfl

end Silent

end World

end MindScript
