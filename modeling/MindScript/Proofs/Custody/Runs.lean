import MindScript.Proofs.Custody.Wakeups
import MindScript.Proofs.Passages
import MindScript.Proofs.Scheduler.Search

/-!
# Runs of scripts and groups

What a run comes to when it is known what its parts come to: a step that ends with a wait, the tasks and the polls in it, the
frames that are started on the way, and the call of the host around all of them.
-/

namespace MindScript

open Machine

variable {E : Engine} {w v u : World} {m : MindId} {id : FrameId} {frame : Frame} {h : Handle} {n : ℕ}

/-! ### Steps -/

theorem Machine.stepBody_of_runTasks {k k' : Continuation} {step : Except EvalError Step}
    (hscript : frame.body = .script k) (hrun : runTasks E w.context.arena E.budget k w = (.ok (k', step), v)) :
    stepBody E m id frame none w = (.ok (.script k', step), v) := by
  have hcontinued : runContinuation E k w = (.ok (k', step), v) := hrun
  rw [stepBody, hscript]
  exact bind_of_ok hcontinued

theorem Machine.stepBody_of_pollGroup {g g' : Group} {step : Except EvalError Step} (hgroup : frame.body = .group g)
    (hrun : pollGroup E m id g frame.updateCount w = (.ok (g', step), v)) :
    stepBody E m id frame none w = (.ok (.group g', step), v) := by
  rw [stepBody, hgroup]
  exact bind_of_ok hrun

theorem Machine.stepInvocation_of_stepBody {i : Invocation} {delivered : Option Ref} {callStack : CallStack}
    {body : FrameBody} {step : Step} (hpush : w.callStack.push i = .ok callStack)
    (hbody : stepBody E m id frame delivered { w with callStack } = (.ok (body, .ok step), v)) :
    stepInvocation E m id i frame delivered w = (.ok (body, .ok step, []), { v with callStack := v.callStack.pop }) := by
  rw [stepInvocation, get_bind, hpush]
  dsimp only
  refine (bind_of_ok (modify_apply _ _)).trans ?_
  exact bind_of_ok (attempt_of_ok hbody)

theorem World.suspendFrame_of_waitsOn {wake : Wake} (hfree : ∀ x, wake = .frame x → w.waitsOn m x.frame id = false) :
    w.suspendFrame m id wake = w.sleep m id wake := by
  cases wake with
  | frame x =>
    rw [suspendFrame]
    simp only [hfree x rfl, Bool.and_false, Bool.false_eq_true, if_false]
  | tick | atTime _ | event _ | children => rfl

/-- The frame of an entry has been taken for a step, which is on the call stack. -/
def World.stepping (w : World) (m : MindId) (id : FrameId) (e : FrameEntry) (frame : Frame) : World :=
  let i : Invocation := ⟨w.classes.nameOf e.owner, e.handle.name⟩
  { w.takeFrame m id e frame with callStack := { w.callStack with invocations := w.callStack.invocations.push i } }

/-- It is back in its entry, after a step from the first world that has ended in the second one. -/
def World.putBack (w v : World) (m : MindId) (id : FrameId) (frame : Frame) (body : FrameBody) : World :=
  let frame := { frame with context := v.context, body, updateCount := frame.updateCount + 1 }
  ({ v with callStack := v.callStack.pop }.enter w.context w.current).modifyEntry m id fun e ↦ { e with frame := some frame }

/-- A frame whose step ends with a wait sleeps, unless it was told to stop or would wait for itself. -/
theorem Machine.resume_of_suspends {e : FrameEntry} {body : FrameBody} {wake : Wake} (he : w.entryAt m id = some e)
    (hu : w.isFinished e.handle = false) (hframe : e.frame = some frame) (hdelivered : e.delivered = none)
    (hroom : w.callStack.depth < w.callStack.maxDepth)
    (hbody : stepBody (.ofBudget n) m id frame none (w.stepping m id e frame) = (.ok (body, .ok (.suspend wake)), v))
    (hback : (v.entryAt m id).any (fun e ↦ !e.stopRequested) = true)
    (hfree : ∀ x, wake = .frame x → (w.putBack v m id frame body).waitsOn m x.frame id = false) :
    (Engine.ofBudget (n + 1)).resume m id w = (.ok (), (w.putBack v m id frame body).sleep m id wake) := by
  have hpush : (w.takeFrame m id e frame).callStack.push ⟨w.classes.nameOf e.owner, e.handle.name⟩ =
      .ok (w.stepping m id e frame).callStack := CallStack.push_eq_ok_iff.mpr ⟨hroom, rfl⟩
  obtain ⟨e', he', hstop⟩ := (Option.any_eq_true _ _).mp hback
  let v' : World := { v with callStack := v.callStack.pop }.enter w.context w.current
  have hreturned : v'.returnFrame m id { frame with context := v.context, body, updateCount := frame.updateCount + 1 }
      (.ok (.suspend wake)) = (w.putBack v m id frame body).sleep m id wake := by
    have hentry : v'.entryAt m id = some e' := he'
    rw [World.returnFrame, hentry]
    simp only [(Bool.not_eq_true' _).mp hstop, Bool.false_eq_true, if_false]
    exact World.suspendFrame_of_waitsOn hfree
  rw [← hdelivered] at hbody
  have hstep := runFrame_of_ok rfl (stepInvocation_of_stepBody hpush hbody)
  exact (resumeFrame_of_stored he hu hframe).trans (hstep.trans (congrArg (Prod.mk _) hreturned))

/-! ### Tasks -/

theorem Machine.awaitInvoked_of_suspended {k : Continuation} {act : Machine Invoked} (hact : act w = (.ok (.running h), u))
    (hs : u.status h = .suspended) :
    awaitInvoked k act w = (.ok (k.todo [.await h], .suspend (.frame h)), u.retain (.outcome h.outcome)) := by
  have hawait : awaitFrame k h u = (.ok (k.todo [.await h], .suspend (.frame h)), u.retain (.outcome h.outcome)) := by
    rw [awaitFrame, get_bind]
    simp only [hs]
    rfl
  exact (bind_of_ok (attempt_of_ok hact)).trans hawait

/-- A script that calls a coroutine starts what a search of the registry finds. -/
theorem Machine.callCoroutine_of_search {r : Registry} {receiver : Ref} {c : ClassId} {member : Member} {args : ArgValues}
    {p : FrameId} (hr : r.Remembers w.classes) (hc : w.heap.classOf receiver = c) (hlt : c.index < r.size)
    (hsearch : r.search c member.name = some member) (hcoroutine : member.isCoroutine = true)
    (hcurrent : w.current = some (m, p)) :
    callCoroutine E receiver member.name none args w =
      (Invoked.running <$> spawnMember E m (some p) receiver member args false)
        { w with classes := (w.classes.find c member.name).2 } := by
  rw [callCoroutine, bind_of_ok (elseRelease_of_ok (resolveCall_of_search hr hc hlt hsearch))]
  simp only [hcoroutine, if_true, get_bind, hcurrent]

/-! ### Frames that go on from the running context -/

def Machine.registerHere (m : MindId) (name : String) (parent : Option FrameId) (body : FrameBody) : Machine Handle :=
  captureContext >>= fun context ↦ registerFrame m name context.thisClass parent { context, body }

theorem Machine.thisClass_of_captureContext {context : Context} (h : captureContext w = (.ok context, v)) :
    context.thisClass = w.context.thisClass := by
  cases h
  rfl

theorem Machine.spawnFrame_of_resume {name : String} {owner : ClassId} {parent : Option FrameId}
    (hregister : registerFrame m name owner parent frame w = (.ok h, v))
    (hresume : E.resume m h.frame v = (.ok (), u)) : spawnFrame E m name owner parent frame false w = (.ok h, u) := by
  rw [spawnFrame, bind_of_ok hregister]
  exact bind_of_ok hresume

theorem Machine.startBranches_of_resume {branch : ExprId} {rest : List ExprId} {handles : Array Handle}
    (hregister : registerHere m branchName (some id) (.script (.new branch)) w = (.ok h, v))
    (hresume : E.resume m h.frame v = (.ok (), u)) :
    startBranches E m id .sync (branch :: rest) handles w = startBranches E m id .sync rest (handles.push h) u := by
  obtain ⟨context, w₁, hcontext, hregister⟩ := exists_of_bind_eq_ok hregister
  have hspawned : spawnFrame E m branchName context.thisClass (some id) (.script context branch) false w₁ = (.ok h, u) :=
    spawnFrame_of_resume hregister hresume
  rw [startBranches, bind_of_ok hcontext, bind_of_ok hspawned]
  rfl

theorem Machine.spawnGroup_of_resume {policy : Policy} {branches : Span} (hcurrent : w.current = some (m, id))
    (hregister : registerHere m policy.name (some id) (.group { policy, branches }) w = (.ok h, v))
    (hresume : E.resume m h.frame v = (.ok (), u)) : spawnGroup E policy branches w = (.ok h, u) := by
  obtain ⟨context, w₁, hcontext, hregister⟩ := exists_of_bind_eq_ok hregister
  rw [thisClass_of_captureContext hcontext] at hregister
  rw [spawnGroup, get_bind, hcurrent]
  dsimp only
  rw [bind_of_ok hcontext]
  exact spawnFrame_of_resume hregister hresume

theorem Machine.spawnBranch_of_resume {body : ExprId} (hmind : (w.current.map Prod.fst).or w.defaultMind = some m)
    (hregister : registerHere m branchName none (.script (.new body)) w = (.ok h, v))
    (hresume : E.resume m h.frame v = (.ok (), u)) : spawnBranch E body w = (.ok h, u.settleMind m) := by
  obtain ⟨context, w₁, hcontext, hregister⟩ := exists_of_bind_eq_ok hregister
  rw [thisClass_of_captureContext hcontext] at hregister
  have hspawned : spawnFrame E m branchName w.context.thisClass none (.script context body) false w₁ = (.ok h, u) :=
    spawnFrame_of_resume hregister hresume
  rw [spawnBranch, get_bind, hmind]
  dsimp only
  rw [bind_of_ok hcontext, bind_of_ok hspawned]
  rfl

/-! ### Code of the host -/

theorem Machine.evaluateBody_of_eval {arena : Arena} {root : ExprId} {w₁ w₂ : World} {context : Context} {value : Ref}
    (hnil : nil w = (.ok .nil, w₁)) (hcontext : newContext arena .nil Core.object w₁ = (.ok context, w₂))
    (heval : E.eval root { w₂ with context } = (.ok value, u)) :
    evaluateBody E arena root w = (.ok (.ok value), { u with context := w₂.context }.release u.context.links) := by
  have hwithin : withContext context (E.eval root) w₂ = (.ok (.ok value, u.context), { u with context := w₂.context }) := by
    rw [withContext, get_bind]
    refine (bind_of_ok (modify_apply _ _)).trans ?_
    exact (bind_of_ok (attempt_of_ok heval)).trans rfl
  rw [evaluateBody, bind_of_ok hnil, bind_of_ok hcontext, bind_of_ok hwithin]
  exact bind_of_ok (modify_apply _ _)

/-! ### Updates -/

/-- The polls of an update resume the first frame that has something to do. -/
theorem Machine.passes_polled {σ : Setting} {k : FrameId} {before after : List FrameId} (hσ : σ.pumping = some m)
    (hbefore : ∀ id ∈ before, w.conditionHolds m id = false) (hdue : w.conditionHolds m k = true) (resumed : ℕ) :
    Passes n σ (resumeDue (.ofBudget n) m (fun w id ↦ w.conditionHolds m id) (before ++ k :: after) resumed) w
      (some (m, k)) w := by
  induction before generalizing σ with
  | nil => exact .wakes k (fun w ↦ w.conditionHolds m k) hσ (fun w hw ↦ by simp [World.isDue, hw]) hdue
  | cons id rest ih =>
    obtain ⟨hid, hrest⟩ := List.forall_mem_cons.mp hbefore
    refine .read ?_
    dsimp only
    rw [if_neg (Bool.eq_false_iff.mp hid)]
    exact ih hσ hrest

theorem Machine.passes_resumePhases {σ : Setting} {k : FrameId} {before after : List FrameId} (hσ : σ.pumping = some m)
    (hlive : w.live m = before ++ k :: after) (htimed : ∀ id ∈ w.live m, w.timeWakeDue m id = false)
    (hbefore : ∀ id ∈ before, w.conditionHolds m id = false) (hdue : w.conditionHolds m k = true) :
    Passes n σ (resumePhases (.ofBudget n) m) w (some (m, k)) w := by
  have hpiece (σ : Setting) (hσ : σ.pumping = some m) :
      Piece n σ (resumeDue (.ofBudget n) m (fun w id ↦ w.timeWakeDue m id) (w.live m) 0) :=
    .resumeEach (Nat.le_refl _) hσ (fun w ↦ by simp) (fun w id hw ↦ by simp [World.isDue, hw]) _ 0
  have hpumping : ({ σ with minds := w.minds.size } : Setting).pumping = some m := hσ
  refine .read (.next (hpiece _ hpumping) (resumeDue_of_none htimed 0) (.first ?_))
  rw [← World.live, hlive]
  exact passes_polled hpumping hbefore hdue 0

end MindScript
