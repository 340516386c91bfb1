import MindScript.Proofs.Continuation.Unwinding
import MindScript.Proofs.Custody.Standing

/-!
# Where errors resume, in reached worlds

A script that can run is at a stage of its body, whatever has happened to the interpreter since the frame was registered.  So
what is known of the stages of a body is known of the scripts in every world that is reached.
-/

namespace MindScript

open Machine

/-- The rest of a script is a stage of a body. -/
def Frame.Unfolding (frame : Frame) (_ : Option Wake) : Prop :=
  ∀ k, frame.body = .script k → frame.context.arena.Closed →
    ∃ body e₀ past, Unfolds frame.context.arena body e₀ past ⟨k, frame.context.env⟩

namespace Machine

variable {E : Engine} {m : MindId} {id : FrameId} {i : Invocation} {frame : Frame} {delivered : Option Ref} {w w' : World}

/-- A step that leaves a script asleep has run the rest of a script. -/
theorem exists_of_stepInvocation_script {body : FrameBody} {k' : Continuation} {wake : Wake} {unused : List Ref}
    (hrun : stepInvocation E m id i frame delivered w = (.ok (body, .ok (.suspend wake), unused), w'))
    (hscript : body = .script k') :
    ∃ k callStack u, frame.body = .script k ∧ w.callStack.push i = .ok callStack ∧
      runTasks E w.context.arena E.budget k { w with callStack } = (.ok (k', .ok (.suspend wake)), u) ∧
      w'.context = u.context := by
  unfold stepInvocation at hrun
  rw [get_bind] at hrun
  cases hpush : w.callStack.push i with
  | error err =>
    simp only [hpush] at hrun
    cases hrun
  | ok callStack =>
    simp only [hpush] at hrun
    obtain ⟨r, u, hattempt, hrun⟩ := exists_of_bind_eq_ok (f := attempt (stepBody E m id frame delivered)) hrun
    rcases attempt_cases hattempt with ⟨⟨body, _ | step⟩, rfl, hstep⟩ | ⟨err, rfl, -⟩
    · cases hrun
    · cases hrun
      unfold stepBody at hstep
      cases hbody : frame.body with
      | script k =>
        simp only [hbody] at hstep
        obtain ⟨⟨k₁, step₁⟩, u₁, hsteps, hstep⟩ := exists_of_bind_eq_ok hstep
        cases hstep
        cases hscript
        exact ⟨k, callStack, u₁, rfl, rfl, hsteps, rfl⟩
      | native code args state =>
        simp only [hbody] at hstep
        rw [get_bind] at hstep
        obtain ⟨⟨_, _⟩, _, -, hstep⟩ := exists_of_bind_eq_ok hstep
        cases hstep
        cases hscript
      | group g =>
        simp only [hbody] at hstep
        obtain ⟨⟨_, _⟩, _, -, hstep⟩ := exists_of_bind_eq_ok hstep
        cases hstep
        cases hscript
    · cases hrun

end Machine

/-- New scripts have all of their body to do, and a script that sleeps after a step has got to a later stage. -/
theorem Frame.standing_unfolding : Frame.Standing Frame.Unfolding where
  fresh frame hfresh k hk _ := by
    obtain ⟨body, rfl⟩ := hfresh.tasks k hk
    exact ⟨body, frame.context.env, [], .start⟩
  slept {E m id i frame before delivered s w w' body wake unused} _ hB hvalid _ hcontext hunfolding hrun := by
    rintro k' hscript hclosed
    obtain ⟨k, callStack, u, hbody, -, hsteps, hu⟩ := exists_of_stepInvocation_script hrun hscript
    have hholds := hvalid.holds (σ := ⟨s.head?, 0, false, none⟩) rfl (Nat.zero_le _)
    have hrooted : World.Rooted { w with callStack } := ⟨hholds.rooted.current, hholds.rooted.defaultMind⟩
    have harena : u.context.arena = frame.context.arena :=
      (arena_runTasks hB hrooted hsteps).trans (congrArg Context.arena hcontext)
    dsimp only at hclosed ⊢
    rw [hu, harena] at hclosed ⊢
    obtain ⟨body, e₀, past, hunfolds⟩ := hunfolding k hbody hclosed
    rw [← hcontext] at hunfolds hclosed ⊢
    cases hunfolds.rests (w := { w with callStack }) hclosed hB hrooted rfl hsteps with
    | asleep hlater => exact ⟨body, e₀, _, hlater⟩

variable {owned : List Link} {w : World}

/-- In all that a call passes, the rest of a script is a stage that its body has got to.  From each stage of the body, an
error that a task fails with goes down the tasks below to the innermost construct that catches it: a loop exit to a loop,
which yields its value, and a failure to a guarded body, whose handler is told of it in a scope of its own.  The values and the
scopes there are those of the stage in which the body entered that construct.  If nothing catches the error, it is given back,
both stacks are empty, and the scopes are those in which the body started. -/
theorem errors_resume_innermost (hw : Reached owned w) {n : ℕ} {α : Type} {f : Machine α} {key : Option FrameKey}
    {v : World} (hpasses : Passes n w.setting f w key v) {m : MindId} {id : FrameId} {entry : FrameEntry} {frame : Frame}
    {rest : Continuation} (he : v.entryAt m id = some entry) (hframe : entry.frame = some frame)
    (hbody : frame.body = .script rest) (hclosed : frame.context.arena.Closed) :
    ∃ body e₀ past, Unfolds frame.context.arena body e₀ past ⟨rest, frame.context.env⟩ ∧
      (∀ past' s k e u, Unfolds frame.context.arena body e₀ past' s → s.Fails frame.context.arena k e u →
        (∃ task, s.rest.tasks = task :: k.tasks) ∧ ∃ r u', unwind k.values e k.tasks u = (.ok r, u') ∧
          Unwound (Entered frame.context.arena (s :: past')) e₀ u k.tasks e r u') ∧
      ∀ (E : Engine) (j : ℕ) u k step u', E.Balanced → u.Rooted → u.context = frame.context →
        runTasks E frame.context.arena j rest u = (.ok (k, step), u') →
        Rests frame.context.arena body e₀ k step u'.context.env := by
  obtain ⟨s, -, hstands⟩ := hw.passes Frame.standing_unfolding hpasses
  obtain ⟨body, e₀, past, hunfolds⟩ := hstands m id entry frame he hframe rest hbody hclosed
  refine ⟨body, e₀, past, hunfolds, fun past' s k e u hthere hfails ↦ hthere.unwound hclosed hfails,
    fun E j u k step u' hE hu hcontext hrun ↦ ?_⟩
  rw [← hcontext] at hunfolds hclosed hrun ⊢
  exact hunfolds.rests hclosed hE hu rfl hrun

/-! ### A guarded call of nil -/

/-- A body that invokes nil where failures are caught. -/
def Arena.guardedCall : Arena where
  nodes := #[.nil, .invoke ⟨0⟩ .empty, .guarded ⟨1⟩ "message" ⟨0⟩]
  durational := #[false, true, true]

def Frame.guardedCall : Frame := .script { arena := .guardedCall, env := default, this := .nil, thisClass := Core.object } ⟨2⟩

/-- The body has just been registered with a new interpreter. -/
def World.guardedCall : World := ((World.new {}).register ⟨0⟩ "guarded" Core.object none Frame.guardedCall).2

theorem errors_resume_innermost_guardedCall : ∃ k e u r u',
    runTask (.ofBudget 1) .guardedCall ⟨[.guarded "message" ⟨0⟩ 1 0], .ofList [.nil]⟩ (.apply (.invoke .empty))
      { World.guardedCall with context := Frame.guardedCall.context } = (.ok (k, .failed e), u) ∧
    unwind k.values e k.tasks u = (.ok (r, none), u') ∧ r = ⟨[.eval ⟨0⟩, .popScope], .empty⟩ := by
  have hpasses : Passes 1 (World.new {}).setting (registerFrame ⟨0⟩ "guarded" Core.object none .guardedCall >>= fun h ↦
      (Engine.ofBudget 1).resume ⟨0⟩ h.frame >>= fun _ ↦ pure h) (World.new {}) (some (⟨0⟩, ⟨0, 0⟩)) .guardedCall :=
    .spawns ⟨0⟩ "guarded" Core.object none .guardedCall (by decide) (fun p hp ↦ by cases hp) (.script _ _) rfl
  let entry : FrameEntry := (World.guardedCall.entryAt ⟨0⟩ ⟨0, 0⟩).getD default
  have he : World.guardedCall.entryAt ⟨0⟩ ⟨0, 0⟩ = some entry := rfl
  have hframe : entry.frame = some { Frame.guardedCall with startedAt := 0 } := rfl
  have hclosed : Arena.guardedCall.Closed := by
    rintro ⟨_ | _ | _ | n⟩ itemClass items h
    all_goals cases h
  obtain ⟨body, e₀, past, hunfolds, hresumes, -⟩ := errors_resume_innermost (.start {}) hpasses he hframe rfl hclosed
  let w : World := { World.guardedCall with context := Frame.guardedCall.context }
  have hE : (Engine.ofBudget 1).Balanced := Engine.balanced_ofBudget 1
  have hw : w.Rooted := ⟨fun _ _ h ↦ (by cases h), fun m hm ↦ (by cases hm; decide)⟩
  have h₁ := hunfolds.next (.runs (w := w) hE hw rfl rfl)
  have h₂ := h₁.next (.runs (w := w) hE hw rfl rfl)
  have h₃ := h₂.next (.runs (w := w) hE hw rfl rfl)
  obtain ⟨-, r, u', hunwind, hunwound⟩ := hresumes _ _ _ _ _ h₃ (.intro (w := w) hE hw rfl rfl)
  -- The guarded body stands on top, so that it is the construct that the failure resumes at.
  refine ⟨_, _, _, r.1, u', rfl, ?_, ?_⟩
  · cases hunwound with
    | left _ _ hexit => cases hexit
    | escaped hskip => cases hskip _ (List.mem_cons_self ..)
    | caught => exact hunwind
  · cases hunwind
    rfl

end MindScript
