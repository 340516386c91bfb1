import MindScript.Proofs.Custody.FirstSteps

/-!
# Calls on the way

Native members call back into the interpreter in the middle of a step, and code is evaluated in the middle of a call.  In
all worlds that a call passes such calls are like those of a host that has nothing else under way: when they are over,
also by an error, the call stack, the step and the running context are what they were.
-/

namespace MindScript

open Machine

/-- However the action ends, the call stack, the step under way and the running context are what they were. -/
def Machine.Restores {α : Type} (f : Machine α) (w : World) : Prop :=
  ∀ r w', f w = (r, w') → r ≠ .error .exhausted →
    w'.callStack = w.callStack ∧ w'.current = w.current ∧ w'.context = w.context

theorem Machine.Balanced.restores {α : Type} {f : Machine α} {w : World} (h : Balanced false f w) : f.Restores w := by
  intro r w' hrun hne
  have hlevel := h.level (by rwa [hrun])
  rw [hrun] at hlevel
  exact ⟨hlevel.callStack, hlevel.current, hlevel.context rfl⟩

/-- In every world that a call passes the call stack keeps to the configured limit.  Host calls that native members make
there, and evaluations of expressions, restore call stack, step and context, as the call itself does. -/
theorem calls_restore {owned : List Link} {w v : World} (hw : Reached owned w) {n : Nat} {α : Type} {f : Machine α}
    {k : Option FrameKey} (hv : Passes n w.setting f w k v) :
    v.callStack.depth ≤ w.config.maxCallDepth ∧
      (∀ (n : Nat) {β : Type} {g : Machine β}, HostCall (.ofBudget n) g → g.Restores v) ∧
      ∀ (n : Nat) (id : ExprId), ((Engine.ofBudget n).eval id).Restores v := by
  have hsetting : w.setting.Holds w := ⟨rfl, Nat.le_refl _, (hw.holds none).rooted⟩
  obtain ⟨hlimited, hrooted⟩ := hv.satisfies passing_limited hsetting
  obtain ⟨hmax, hdepth⟩ := hw.depth_le
  refine ⟨?_, fun n β g hg ↦ ?_, fun n id ↦ ?_⟩
  · rw [← hmax, ← hlimited.maxDepth]
    exact hlimited.depth hdepth
  · exact (hg.balanced (Engine.balanced_ofBudget n) (hrooted.holds none)).restores
  · exact ((Engine.balanced_ofBudget n).eval _ id v (hrooted.holds none)).restores

/-! ### A start in the middle of a step, and a failure inside a block -/

/-- The coroutine of the host makes the name of the event in its step. -/
theorem Machine.passes_relayNamed :
    Passes 4 World.relayed.setting (update (.ofBudget 4) ⟨0⟩ 0.5) World.relayed none .relayNamed := by
  have hbegin : beginUpdate ⟨0⟩ 0.5 .relayed = (.ok (), .relayBegun) := rfl
  have he : World.relayTurn.entryAt ⟨0⟩ ⟨0, 0⟩ = some relayEntry := rfl
  have hu : World.relayTurn.isFinished relayEntry.handle = false := rfl
  have hframe : relayEntry.frame = some relayFrame := rfl
  have hpushed : World.relayTurn.callStack.push
      ⟨World.relayTurn.classes.nameOf relayEntry.owner, relayEntry.handle.name⟩ = .ok World.relayStep.callStack := rfl
  have hstep (σ : Setting) : Passes 3 σ (stepBody (.ofBudget 3) ⟨0⟩ ⟨0, 0⟩ relayFrame relayEntry.delivered)
      World.relayStep none .relayNamed := by
    have hbody : relayFrame.body = .native (.host fun _ ↦ relayProgram) [] none := rfl
    rw [stepBody, hbody]
    exact .read (.first (.first (.first (.first (.after (.literal _) fun h ↦ by cases h)))))
  refine .whenIdle rfl rfl (.next (.basic (.beginUpdate rfl 0.5)) hbegin (.first ?_))
  -- Nobody is due by the clock, by a poll or from the ready queue.
  refine .read (.next (.resumeEach (Nat.le_refl _) rfl (fun w ↦ by simp) (fun w id hw ↦ by simp [World.isDue, hw]) _ 0)
    rfl ?_)
  refine .next (.resumeEach (Nat.le_refl _) rfl (fun w ↦ by simp) (fun w id hw ↦ by simp [World.isDue, hw]) _ 0) rfl ?_
  refine .next (.drainReady rfl (.of_budget (Nat.le_refl _)) 0) rfl ?_
  refine .next (.basic (.popPending rfl)) rfl (.first ?_)
  exact .step he hu hframe hpushed (hstep _)

/-- A block that binds a name to a number and then takes it for a truth value. -/
def Arena.stumbling : Arena where
  nodes := #[.int 7, .bind "count" ⟨0⟩, .ident "count", .nil, .conditional ⟨0, 1⟩ none, .block ⟨0, 2⟩]
  lists := #[⟨1⟩, ⟨4⟩]
  clauses := #[⟨⟨2⟩, ⟨3⟩⟩]

/-- The host is about to evaluate it. -/
def World.stumbling : World :=
  let w := (nil (.new {})).2
  let (env, heap) := Environment.new w.heap
  { w with heap, context := { arena := .stumbling, env, this := .nil, thisClass := Core.object } }

theorem Machine.passes_stumbling :
    Passes 4 (World.new {}).setting (hostEvaluate (.ofBudget 4) .stumbling ⟨5⟩) (.new {}) none .stumbling :=
  .next .nil rfl (.next (.newContext ..) rfl (.first (.withContext _ (.here _ _))))

/-- An error was raised on the way. -/
def raised {α : Type} : Except Interrupt α → Bool
  | .error (.raised _) => true
  | _ => false

/-- The step goes on where it was when the other coroutine has been started, and the block is closed when the evaluation
has failed. -/
theorem calls_restore_relayNamed :
    World.relayNamed.callStack.depth = 1 ∧ World.relayNamed.callStack.depth ≤ 512 ∧
    (∃ x w', hostStart (.ofBudget 3) .nil "_wait_event" [⟨1⟩] ⟨0⟩ true .relayNamed = (.ok x, w') ∧
      w'.callStack = World.relayNamed.callStack ∧ w'.current = some (⟨0⟩, ⟨0, 0⟩) ∧
      w'.context = World.relayNamed.context) ∧
    ∃ e w', (Engine.ofBudget 4).eval ⟨5⟩ .stumbling = (.error (.raised e), w') ∧
      w'.callStack = World.stumbling.callStack ∧ w'.current = none ∧ w'.context = World.stumbling.context := by
  obtain ⟨-, owned, hrelayed⟩ := Reached.relayed
  obtain ⟨hdepth, hcalls, -⟩ := calls_restore hrelayed passes_relayNamed
  obtain ⟨-, -, hevaluations⟩ := calls_restore (.start {}) passes_stumbling
  refine ⟨rfl, hdepth, ?_, ?_⟩
  · obtain ⟨x, w', hstart, -⟩ := exists_of_bind_eq_ok startValue_relay
    obtain ⟨hstack, hcurrent, hcontext⟩ := hcalls 3 (.start ..) _ _ hstart (by exact nofun)
    exact ⟨x, w', hstart, hstack, hcurrent, hcontext⟩
  · have hraised : raised ((Engine.ofBudget 4).eval ⟨5⟩ .stumbling).1 = true := by decide +kernel
    rcases hrun : (Engine.ofBudget 4).eval ⟨5⟩ .stumbling with ⟨(e | _) | r, w'⟩
    · obtain ⟨hstack, hcurrent, hcontext⟩ := hevaluations 4 ⟨5⟩ _ _ hrun (by exact nofun)
      exact ⟨e, w', rfl, hstack, hcurrent, hcontext⟩
    · rw [hrun] at hraised
      cases hraised
    · rw [hrun] at hraised
      cases hraised

end MindScript
