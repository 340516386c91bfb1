import MindScript.Proofs.Calls.Bodies
import MindScript.Proofs.Custody.Continue
import MindScript.Proofs.Custody.Programs

/-!
# Custody of steps

For the time of a step the links of a frame are in the hand: those of its context with the running context, those of
its body for the step to use.  The step leaves the body and what it comes to in the hand, and then the frame takes them
back.
-/

namespace MindScript

open Machine
open World (Sane)

variable {α β : Type} {σ : Footing} {A G : List Link} {w : World} {E : Engine} {m : MindId} {id : FrameId}

/-- The links of the branches of a group. -/
def handleLinks (handles : Array Handle) : List Link := handles.toList.map fun h ↦ .outcome h.outcome

/-- What is in hand after a step of a body: the body, and what the step came to. -/
def afterStep (p : FrameBody × Except EvalError Step) : List Link := p.1.links ++ broughtBy Step.links p.2

namespace Machine

namespace Yields

variable {f : Machine α} {Q : α → World → Prop}

/-- An action that raises nothing comes to a result, if it ends. -/
theorem attempt_calm (hf : Calm f) (h : Yields σ G f w Q) :
    Yields σ G (Machine.attempt f) w fun r w' ↦ ∃ a, r = .ok a ∧ Q a w' := by
  rw [Yields] at h
  rcases hrun : f w with ⟨(e | _) | a, w'⟩ <;> rw [hrun] at h
  · exact absurd (congrArg Prod.fst hrun) (hf w e)
  · rw [Yields, attempt_of_exhausted hrun]
    exact h
  · rw [Yields, attempt_of_ok hrun]
    exact ⟨a, rfl, h⟩

/-- An action that raises nothing may run on another footing. -/
theorem bind_calm {τ : Footing} {H : List Link} {F : α → Machine β} {R : β → World → Prop} (hf : Calm f)
    (h : Yields τ H f w Q) (hF : ∀ a w', Q a w' → Yields σ G (F a) w' R) (hle : Within G H) :
    Yields σ G (f >>= F) w R := by
  rw [Yields] at h
  rcases hrun : f w with ⟨(e | _) | a, w'⟩ <;> rw [hrun] at h
  · exact absurd (congrArg Prod.fst hrun) (hf w e)
  · obtain ⟨ρ, hρ⟩ := h
    rw [Yields, bind_of_error hrun]
    exact ⟨ρ, hρ.mono hle⟩
  · rw [Yields, bind_of_ok hrun]
    exact hF a w' h

end Yields

/-! ### Groups -/

namespace Gives

/-- A group that one branch decides hands the result of the branch over. -/
theorem branchResult {x : OutcomeId} {outcome : Outcome} (h : Sane σ G w) (hx : w.heap.Alive (.outcome x))
    (houtcome : outcome = w.heap.outcome x) : Gives σ G (branchResult outcome) w (broughtBy Step.links) := by
  subst houtcome
  unfold Machine.branchResult
  split
  · refine .pure ?_
    have hexit : ((w.heap.outcome x).error.getD (.custom "branch failed")).isLoopExit = false := by
      cases he : (w.heap.outcome x).error with
      | none => rfl
      | some e => exact h.exit_of_error he
    rw [broughtBy, EvalError.links_of_isLoopExit hexit]
    exact h
  · exact (shareOrNil h fun _ hvalue ↦ h.alive_result (x := { (default : Handle) with outcome := x }) hx hvalue).bind
      fun _ _ h₁ ↦ .pure h₁

/-- What the branches have come to; they stay in the hand. -/
theorem decideGroup {g : Group} (h : Sane σ (handleLinks g.handles ++ G) w) :
    Gives σ (handleLinks g.handles ++ G) (decideGroup m id g) w (broughtBy Step.links) := by
  refine .read ?_
  have hdone (done : Bool) : Gives σ (handleLinks g.handles ++ G) (if done = true then do return .ok (.done (← Machine.nil))
      else Pure.pure (.ok (.suspend .children)) : Machine (Except EvalError Step)) w (broughtBy Step.links) := by
    cases done with
    | true => exact (nil h).bind fun _ _ h₁ ↦ .pure h₁
    | false => exact .pure h
  have halive : ∀ {p : Handle → Bool} {x}, g.handles.find? p = some x → w.heap.Alive (.outcome x.outcome) :=
    fun hx ↦ h.alive (List.mem_append_left _ (List.mem_map.mpr ⟨_, Array.mem_toList_iff.mpr (Array.mem_of_find?_eq_some hx), rfl⟩))
  cases hpolicy : g.policy with
  | sync =>
    dsimp only
    split
    · next x hx =>
      refine .pure ?_
      have hexit : ((w.heap.outcome x.outcome).error.getD (.custom "sync branch failed")).isLoopExit = false := by
        cases he : (w.heap.outcome x.outcome).error with
        | none => rfl
        | some e => exact h.exit_of_error he
      rw [broughtBy, EvalError.links_of_isLoopExit hexit]
      exact h
    · exact hdone _
  | race =>
    dsimp only
    split
    · next x hx => exact branchResult h (halive hx) rfl
    · exact hdone _
  | any =>
    dsimp only
    split
    · next x hx =>
      have hheap := w.heap_detachChildren m id
      refine .modified (branchResult (h.detachChildren m id) (x := x.outcome) ?_ (by rw [hheap]))
      rw [hheap]
      exact halive hx
    · exact hdone _

section

variable (hE : E.Careful)

include hE

/-- The handles of the branches that were started are in the hand. -/
theorem startBranches {handles : Array Handle} (h : Sane σ (handleLinks handles ++ G) w)
    (hhead : σ.stack.head? = some (m, id)) (policy : Policy) (branches : List ExprId) :
    Gives σ G (startBranches E m id policy branches handles) w handleLinks := by
  induction branches generalizing handles w with
  | nil => exact .pure h
  | cons branch rest ih =>
    refine (Yields.captureContext h).bind (fun context w₁ h₁ ↦ ?_)
    have hframe : Sane σ ((Frame.script context branch).links ++ (handleLinks handles ++ G)) w₁ := by
      rw [Frame.links_script]
      exact h₁.1
    refine (spawnFrame hE hframe (h₁.1.mind_of_head? hhead) (fun p hp ↦ by cases hp; exact hhead) ⟨h₁.2.1, trivial⟩
      (.script context branch) _ _ false).bind (fun x w₂ h₂ ↦ ?_)
    have hpushed : Sane σ (handleLinks (handles.push x) ++ G) w₂ := h₂.mono fun l ↦ by
      simp only [handleLinks, Array.toList_push, List.map_append, List.map_cons, List.map_nil, List.count_append,
        count_cons_hits, List.count_nil]
      omega
    refine .read ?_
    split
    · exact .pure hpushed
    · exact ih hpushed

theorem pollGroup {g : Group} (h : Sane σ (handleLinks g.handles ++ G) w) (hhead : σ.stack.head? = some (m, id))
    (updateCount : Nat) : Gives σ G (pollGroup E m id g updateCount) w fun p ↦
      handleLinks p.1.handles ++ broughtBy Step.links p.2 := by
  have hdecide : ∀ {g : Group} {w}, Sane σ (handleLinks g.handles ++ G) w → Gives σ G (do
      return (g, ← Machine.decideGroup m id g)) w fun p ↦ handleLinks p.1.handles ++ broughtBy Step.links p.2 :=
    fun h ↦ (decideGroup h).bind (fun step w₁ h₁ ↦ .pure (h₁.mono (by grind)))
  unfold Machine.pollGroup
  split
  · refine .read ((startBranches hE h hhead _ _).bind fun handles w₁ h₁ ↦ ?_)
    exact hdecide (g := { g with handles }) h₁
  · exact hdecide h

/-! ### Steps of bodies -/

/-- The body of a frame is there after the step. -/
theorem stepBody (hC : Civilized E) {frame : Frame} {delivered : Option Ref}
    (h : Sane σ (frame.body.links ++ (delivered.toList.map .object ++ G)) w) (hhead : σ.stack.head? = some (m, id))
    (hbody : frame.body.Decent σ.Knows) : Yields σ G (stepBody E m id frame delivered) w fun p w' ↦
      Sane σ (afterStep p ++ G) w' ∧ p.1.Decent σ.Knows := by
  unfold Machine.stepBody
  split
  · next k hk =>
    rw [hk] at h
    refine (runContinuation hE h).bind (fun p w₁ h₁ ↦ ?_)
    refine (releaseAll (L := delivered.toList) (G := afterRun p ++ G) (h₁.mono fun l ↦ ?_)).bind
      (fun _ w₂ h₂ ↦ .pure ⟨h₂, trivial⟩)
    simp only [List.count_append]
    omega
  · next code args state hcode =>
    rw [hcode] at h hbody
    have hheld : Sane σ (delivered.toList.map .object ++ (args.map .object ++ G)) w := h.mono fun l ↦ by
      simp only [FrameBody.links, List.count_append]
      omega
    have hthis : σ.Lends (args.map .object ++ G) w.context.this := h.this ▸ Footing.lends_this
    have hargs : ∀ r ∈ args, σ.Lends (args.map .object ++ G) r := fun r hr ↦
      Footing.lends_of_mem (List.mem_append_left _ (List.mem_map.mpr ⟨r, hr, rfl⟩))
    refine .read (Yields.bind (H := args.map .object ++ G) (Q := fun p w' ↦
      Sane σ (broughtBy Step.links p.1 ++ (args.map .object ++ G)) w') ?_ (fun p w₁ h₁ ↦ ?_))
    · cases code with
      | core c => exact pollCore hE hheld hthis hargs c _ _
      | host poll => exact pollHost hE hC _ (hbody _) hheld hthis hargs _
    · refine .pure ⟨h₁.mono fun l ↦ ?_, hbody⟩
      simp only [afterStep, FrameBody.links, List.count_append]
      omega
  · next g hg =>
    rw [hg] at h
    refine (pollGroup hE h hhead _).bind (fun p w₁ h₁ ↦ ?_)
    refine (releaseAll (L := delivered.toList) (G := afterStep (.group p.1, p.2) ++ G) (h₁.mono fun l ↦ ?_)).bind
      (fun _ w₂ h₂ ↦ .pure ⟨h₂, trivial⟩)
    simp only [afterStep, FrameBody.links, handleLinks, List.count_append]
    omega

/-- At the limit of the call stack the payload is handed back. -/
theorem stepInvocation (hC : Civilized E) {frame : Frame} {delivered : Option Ref}
    (h : Sane σ (frame.body.links ++ (delivered.toList.map .object ++ G)) w) (hhead : σ.stack.head? = some (m, id))
    (hbody : frame.body.Decent σ.Knows) (i : Invocation) :
    Yields σ G (stepInvocation E m id i frame delivered) w fun p w' ↦
      Sane σ (afterStep (p.1, p.2.1) ++ (p.2.2.map .object ++ G)) w' ∧ p.1.Decent σ.Knows := by
  refine .read ?_
  split
  · next e he =>
    refine .pure ⟨h.mono fun l ↦ ?_, hbody⟩
    simp only [afterStep, broughtBy, EvalError.links_of_isLoopExit (CallStack.isLoopExit_of_push he), List.count_append,
      List.count_nil]
    omega
  · next callStack _ =>
    have hstack : ∀ {hand w} callStack, Sane σ hand w → Sane σ hand { w with callStack } :=
      fun _ h ↦ h.unconcerned rfl rfl rfl rfl rfl rfl
    refine .modified ((Yields.attempt_calm (Calm.stepBody hC.resume m id frame delivered)
      (stepBody hE hC (hstack callStack h) hhead hbody)).bind fun r w₁ h₁ ↦ ?_)
    obtain ⟨⟨body, step⟩, rfl, hafter, hdecent⟩ := h₁
    refine .read (.modified (.pure ⟨hstack _ ?_, hdecent⟩))
    have hsame : broughtBy Step.links (step.mapError w₁.callStack.attach) = broughtBy Step.links step := by
      cases step with
      | ok s => rfl
      | error e => exact CallStack.links_attach _ e
    simpa only [afterStep, hsame, List.map_nil, List.nil_append] using hafter

/-- A frame takes its links back after its step. -/
theorem resumeFrame (hC : Civilized E) (h : Sane σ G w) (m : MindId) (id : FrameId) :
    Gives σ G (resumeFrame E m id) w fun _ ↦ [] := by
  refine .read ?_
  split
  · exact .pure h
  next entry hentry =>
  split
  · exact .pure h
  next hunfinished =>
  split
  · exact .pure h
  next frame hframe =>
  have htaken := h.takeFrame hentry (Bool.eq_false_iff.mpr hunfinished) hframe
  have hdecent := h.books.frames frame ⟨m, id, entry, hentry, hframe⟩
  refine .read (.modified ?_)
  have hheld : Sane { σ with stack := (m, id) :: σ.stack, this := frame.context.this }
      (frame.body.links ++ (entry.delivered.toList.map .object ++ (w.context.links ++ G)))
      (w.takeFrame m id entry frame) := htaken.mono (by grind)
  refine (stepInvocation hE hC hheld rfl hdecent.body _).bind_calm (Calm.stepInvocation E m id _ frame _)
    (fun p w₁ h₁ ↦ ?_) (.append_left _ _)
  obtain ⟨body, step, unused⟩ := p
  obtain ⟨h₁, hbody⟩ := h₁
  let frame' : Frame := { frame with context := w₁.context, body, updateCount := frame.updateCount + 1 }
  have hback : Sane { σ with stack := (m, id) :: σ.stack, this := frame.context.this }
      (w.context.links ++ (frame'.body.links ++ (stepLinks step ++ (unused.map .object ++ G)))) w₁ :=
    h₁.mono fun l ↦ by
      simp only [afterStep, stepLinks_eq, List.count_append, frame']
      omega
  have hreturned := hback.returnFrame h.rooted h.this (show frame'.context = w₁.context from rfl) hbody
  rw [← h.books.valid.current] at hreturned
  exact .read (.modified (releaseAll hreturned))

end

end Gives

end Machine

end MindScript
