import MindScript.Proofs.Continuation.Unwinding
import MindScript.Proofs.Custody.Hosts
import MindScript.Proofs.Scheduler.Tolls
import MindScript.Proofs.Wakeups.Paces

/-!
# Failures that are handed on

A script that awaits a frame that has failed fails with the error of that frame, unless it catches the error, and a group
fails like the branch that decides it.  An error that is stored with a handle has been blamed on someone already, so that the
next frame adds nothing to it but a backtrace if it has none.
-/

namespace MindScript

open Machine

/-- Two errors of one kind, with one message, that are blamed on the same invocation. -/
structure EvalError.Agrees (e e' : EvalError) : Prop where
  kind : e'.kind = e.kind
  message : e'.message = e.message
  origin : e'.origin = e.origin

namespace EvalError

variable {e e' e'' : EvalError}

theorem Agrees.refl (e : EvalError) : e.Agrees e := ⟨rfl, rfl, rfl⟩

theorem Agrees.trans (h : e.Agrees e') (h' : e'.Agrees e'') : e.Agrees e'' :=
  ⟨h'.kind.trans h.kind, h'.message.trans h.message, h'.origin.trans h.origin⟩

theorem agrees_attach (e : EvalError) (callStack : CallStack) : e.Agrees (callStack.attach e) := by
  unfold CallStack.attach
  split
  · exact .refl e
  · exact ⟨rfl, rfl, rfl⟩

theorem Blamed.attach (h : e.Blamed) (callStack : CallStack) : (callStack.attach e).Blamed := by
  unfold CallStack.attach
  split
  · exact h
  · exact ⟨h.isLoopExit, h.origin⟩

/-- An error that has been blamed on someone is stored as it is. -/
theorem Blamed.stored (h : e.Blamed) (o : Origin) : e.toFailure.withOrigin o = e := by
  rw [toFailure_of_isLoopExit_eq_false h.isLoopExit, withOrigin_of_isSome h.origin]

end EvalError

/-! ### Whoever has failed -/

theorem Act.blames {M M' : Moment} (h : Act M M') : M.world.Blames M'.world := by
  cases h with
  | compute hstill _ => exact .of_outcomes hstill.outcomes
  | register name owner frame _ _ => exact World.blames_register _ _ name owner _ frame
  | begin _ _ _ => exact World.blames_takeFrame _ _ _ _ _
  | @back s w m id context frame step =>
    have henter : w.Blames (w.enter context s.head?) := .of_outcomes rfl
    exact henter.trans (World.blames_returnFrame _ m id frame step)
  | stop m id => exact (World.closing_blames m).stopFrame _ id
  | sweep m => exact World.blames_sweep _ m
  | detach m id => exact World.blames_detachChildren _ m id
  | notify m event payload => exact World.blames_notify _ m event payload
  | setUpdateInterval x seconds => exact .of_outcomes rfl
  | createMind name => exact .of_outcomes rfl

theorem Run.blames {M M' : Moment} (h : Run M M') : M.world.Blames M'.world := by
  induction h with
  | refl => exact .refl _
  | tail _ hact ih => exact ih.trans hact.blames

theorem Reachable.onward {M M' : Moment} (h : Reachable M) (hrun : Run M M') : Reachable M' := by
  induction hrun with
  | refl => exact h
  | tail _ hact ih => exact ih.act hact

/-- Every error that is stored with a handle is blamed on someone. -/
theorem Reachable.blamed {M : Moment} (h : Reachable M) {x : Handle} {e : EvalError} (hx : M.world.FailedWith x e) :
    e.Blamed := by
  obtain ⟨config, hrun⟩ := h.run
  obtain ⟨c, hc, -, herror⟩ := World.failedWith_iff.mp hx
  rcases hrun.blames e ⟨_, c, hc, herror⟩ with ⟨o, c', hc', -⟩ | hblamed
  · rw [World.cell?, World.heap_new] at hc'
    cases hc'
  · exact hblamed

/-! ### Scripts -/

/-- A task awaits a frame, which it may have started: with these tasks and values left, in that world. -/
inductive Task.Awaits (E : Engine) (a : Arena) (x : Handle) : Task → Continuation → World → Continuation → World → Prop where
  | await {k : Continuation} {w : World} : Awaits E a x (.await x) k w k w
  | coroutine {hasReceiver : Bool} {name : String} {args : Span} {qualifier : Option String} {k k' : Continuation}
      {receiver : Ref} {w w₁ u : World} :
      popReceiver (popArgs k (a.argsAt args)).2 hasReceiver w = (.ok (receiver, k'), w₁) →
      callCoroutine E receiver name qualifier (popArgs k (a.argsAt args)).1 w₁ = (.ok (.running x), u) →
      Awaits E a x (.apply (.coroutine hasReceiver name args qualifier)) k w k' u
  | invoke {args : Span} {k k' : Continuation} {callee : Ref} {w w₁ u : World} :
      popValue (popArgs k (a.argsAt args)).2 w = (.ok (callee, k'), w₁) →
      callClosure E callee (popArgs k (a.argsAt args)).1 w₁ = (.ok (.running x), u) →
      Awaits E a x (.apply (.invoke args)) k w k' u
  | concurrent {id : ExprId} {policy : Policy} {branches : Span} {k : Continuation} {w u : World} :
      a.isDurational id = true → a.node id = .concurrent policy branches →
      spawnGroup E policy branches w = (.ok x, u) → Awaits E a x (.eval id) k w k u

/-- A run of tasks comes to await a frame that has failed, and no task below catches the error. -/
inductive Continuation.Meets (E : Engine) (a : Arena) (x : Handle) : ℕ → Continuation → World → Prop where
  | fails {n : ℕ} {task : Task} {rest : List Task} {values : Stack Ref} {k : Continuation} {w u : World} :
      task.Awaits E a x ⟨rest, values⟩ w k u → u.status x = .failed →
      (∀ e, u.FailedWith x e → ∀ t ∈ k.tasks, t.catches e = false) → Meets E a x (n + 1) ⟨task :: rest, values⟩ w
  | runs {n : ℕ} {task : Task} {rest : List Task} {values : Stack Ref} {k : Continuation} {w w₁ : World} :
      runTask E a ⟨rest, values⟩ task w = (.ok (k, .running), w₁) → Meets E a x n k w₁ →
      Meets E a x (n + 1) ⟨task :: rest, values⟩ w
  | recovers {n : ℕ} {task : Task} {rest : List Task} {values : Stack Ref} {k k' : Continuation} {e : EvalError}
      {w w₁ w₂ : World} : runTask E a ⟨rest, values⟩ task w = (.ok (k, .failed e), w₁) →
      unwind k.values e k.tasks w₁ = (.ok (k', none), w₂) → Meets E a x n k' w₂ →
      Meets E a x (n + 1) ⟨task :: rest, values⟩ w

section

variable {E : Engine} {a : Arena} {x : Handle} {task : Task} {k k' : Continuation} {e : EvalError} {s : List FrameKey}
  {w w' u : World}

namespace Machine

/-- An error that no task catches goes all the way down. -/
theorem unwind_of_catches {tasks : List Task} (h : ∀ t ∈ tasks, t.catches e = false) (values : Stack Ref) (w : World) :
    ∃ w', unwind values e tasks w = (.ok ({ tasks := [] }, some e), w') := by
  induction tasks generalizing w with
  | nil => exact ⟨_, rfl⟩
  | cons task rest ih =>
    obtain ⟨htask, hrest⟩ := List.forall_mem_cons.mp h
    unfold unwind
    cases task with
    | popScope => exact ih hrest (popScope w).2
    | await y => exact ih hrest (w.release [.outcome y.outcome])
    | loop body depth height =>
      have hexit : e.exit = none := by simpa [Task.catches, EvalError.isLoopExit] using htask
      simp only [hexit]
      exact ih hrest w
    | guarded errorName handler depth height =>
      have hexit : e.isLoopExit = true := by simpa [Task.catches] using htask
      simp only [hexit, if_true]
      exact ih hrest w
    | eval _ | discard | apply _ | shortCircuit _ _ | checkBool | cond _ _ _ => exact ih hrest w

theorem awaitFrame_of_failed (k : Continuation) (h : u.status x = .failed) : awaitFrame k x u =
    (.ok (k, .failed ((u.heap.outcome x.outcome).error.getD (.custom "awaited coroutine failed"))),
      u.release [.outcome x.outcome]) := by
  rw [awaitFrame, get_bind]
  simp only [h]
  rfl

end Machine

/-- A task that awaits a frame that has failed fails with the error of the frame. -/
theorem Task.Awaits.fails (h : task.Awaits E a x k w k' u) (hfailed : u.status x = .failed) :
    ∃ w', runTask E a k task w =
      (.ok (k', .failed ((u.heap.outcome x.outcome).error.getD (.custom "awaited coroutine failed"))), w') ∧ u.Still w' := by
  have hreleased : u.Still (u.release [.outcome x.outcome]) := World.still_release u _
  have hawait := awaitFrame_of_failed k' hfailed
  cases h with
  | await => exact ⟨_, hawait, hreleased⟩
  | @coroutine hasReceiver name args qualifier _ _ receiver _ w₁ _ hreceiver hcall =>
    refine ⟨_, ?_, hreleased⟩
    have hinvoked : awaitInvoked k' (callCoroutine E receiver name qualifier (popArgs k (a.argsAt args)).1) w₁ = _ :=
      (bind_of_ok (attempt_of_ok hcall)).trans hawait
    exact (bind_of_ok hreceiver).trans hinvoked
  | @invoke args _ _ callee _ w₁ _ hcallee hcall =>
    refine ⟨_, ?_, hreleased.trans (World.still_release _ [.object callee])⟩
    have hinvoked : awaitInvoked k' (callClosure E callee (popArgs k (a.argsAt args)).1) w₁ = _ :=
      (bind_of_ok (attempt_of_ok hcall)).trans hawait
    exact (bind_of_ok hcallee).trans (bind_of_ok hinvoked)
  | @concurrent id policy branches _ _ _ hdurational hnode hspawn =>
    refine ⟨_, ?_, hreleased⟩
    have hrunning : (Invoked.running <$> spawnGroup E policy branches) w = (.ok (.running x), u) := by
      rw [map_eq_pure_bind]
      exact bind_of_ok hspawn
    unfold runTask
    simp only [hdurational, if_true, decompose, hnode]
    exact (bind_of_ok (attempt_of_ok hrunning)).trans hawait

/-- A run of tasks that comes to await a frame that has failed ends with the error of the frame. -/
theorem Continuation.Meets.ends {n : ℕ} (h : k.Meets E a x n w) (hE : E.Tracked) (hvalid : Moment.Valid ⟨s, w⟩) :
    ∃ e w', runTasks E a n k w = (.ok ({ tasks := [] }, .error e), w') ∧ w'.FailedWith x e := by
  let σ : Setting := ⟨s.head?, 0, true, none⟩
  -- What a task and the unwinding of an error leave is valid.
  have hnext : ∀ {α : Type} {f : Machine α} {r : α} {w w' : World}, Alike E E σ f f → Moment.Valid ⟨s, w⟩ →
      f w = (.ok r, w') → Run ⟨s, w⟩ ⟨s, w'⟩ := by
    intro α f r w w' halike hvalid hrun
    obtain ⟨s', hjourney, hs⟩ := halike.tracked hE s w hvalid rfl (Nat.zero_le _)
    rw [hrun] at hjourney hs
    exact hs (by simp) ▸ hjourney.run
  induction h with
  | @fails n task rest values k w u hawaits hfailed hskip =>
    obtain ⟨w₁, htask, hstill⟩ := hawaits.fails hfailed
    have hvalid₁ := hvalid.run (hnext (.runTask rfl a _ task) hvalid htask)
    rw [← hstill.status] at hfailed
    obtain ⟨e, herror⟩ := hvalid₁.exists_error hfailed
    have hthere : w₁.FailedWith x e := ⟨hfailed, herror⟩
    have hbefore := (hstill.failedWith x e).mp hthere
    rw [hbefore.error, Option.getD_some] at htask
    obtain ⟨w₂, hunwind⟩ := unwind_of_catches (hskip e hbefore) k.values w₁
    refine ⟨e, w₂, ?_, hthere.later hvalid₁ (hnext (.unwind rfl k.values e k.tasks) hvalid₁ hunwind)⟩
    exact (bind_of_ok htask).trans (bind_of_ok hunwind)
  | @runs n task rest values k w w₁ htask _ ih =>
    obtain ⟨e, w', hrun, hx⟩ := ih (hvalid.run (hnext (.runTask rfl a _ task) hvalid htask))
    exact ⟨e, w', (bind_of_ok htask).trans hrun, hx⟩
  | @recovers n task rest values k k' e w w₁ w₂ htask hunwind _ ih =>
    have hvalid₁ := hvalid.run (hnext (.runTask rfl a _ task) hvalid htask)
    obtain ⟨e', w', hrun, hx⟩ := ih (hvalid₁.run (hnext (.unwind rfl k.values e k.tasks) hvalid₁ hunwind))
    exact ⟨e', w', (bind_of_ok htask).trans ((bind_of_ok hunwind).trans hrun), hx⟩

/-! ### Groups -/

/-- A group is decided by a branch that has failed. -/
structure Group.FailsLike (g : Group) (x : Handle) (w : World) : Prop where
  failed : w.status x = .failed
  first : ∃ before after, g.handles.toList = before ++ x :: after ∧
    ∀ b ∈ before, if g.policy = .sync then w.status b ≠ .failed else w.isFinished b = false

theorem Group.FailsLike.poll {g : Group} (h : g.FailsLike x w) (hx : w.FailedWith x e) : g.Poll w (.error e) := by
  obtain ⟨before, after, htoList, hbefore⟩ := h.first
  by_cases hpolicy : g.policy = .sync
  · simp only [hpolicy, if_true] at hbefore
    exact .failed hpolicy htoList hbefore h.failed hx.error
  · simp only [hpolicy, if_false] at hbefore
    have hverdict : (w.heap.outcome x.outcome).verdict = .error e := by
      have hstatus : (w.heap.outcome x.outcome).status = .failed := h.failed
      rw [Outcome.verdict, if_pos hstatus, hx.error, Option.getD_some]
    exact hverdict ▸ .settled hpolicy htoList hbefore hx.isFinished

theorem Machine.pollGroup_of_starts {m : MindId} {id : FrameId} {g g' : Group} {count : ℕ} {step : Except EvalError Step}
    (hstarts : g.Starts E m id w count g' u) (hdecide : decideGroup m id g' u = (.ok step, w')) :
    pollGroup E m id g count w = (.ok (g', step), w') := by
  unfold pollGroup
  cases hstarts with
  | first hbranches =>
    rw [if_pos rfl, get_bind]
    exact (bind_of_ok hbranches).trans ((bind_of_ok hdecide).trans rfl)
  | later hcount =>
    rw [if_neg hcount, pure_bind]
    exact (bind_of_ok hdecide).trans rfl

/-! ### Steps -/

/-- In a step from this world a frame meets the failure of another one, and does not catch it: its script awaits the other
frame, or its group is decided by it. -/
inductive Frame.Meets (E : Engine) (m : MindId) (k : FrameId) (x : Handle) (frame : Frame) (w : World) : Prop where
  | awaits {rest : Continuation} : frame.body = .script rest → rest.Meets E w.context.arena x E.budget w →
      Meets E m k x frame w
  | polls {g g' : Group} {u : World} : frame.body = .group g → g.Starts E m k w frame.updateCount g' u →
      g'.FailsLike x u → Meets E m k x frame w

/-- The step ends with the error of the other frame. -/
theorem Frame.Meets.ends {m : MindId} {id : FrameId} {frame : Frame} (h : frame.Meets E m id x w) (hE : E.Tracked)
    (hvalid : Moment.Valid ⟨s, w⟩) (hhead : s.head? = some (m, id)) (delivered : Option Ref) :
    ∃ body e w', stepBody E m id frame delivered w = (.ok (body, .error e), w') ∧ w'.FailedWith x e := by
  cases h with
  | @awaits rest hbody hmeets =>
    obtain ⟨e, w₁, hrun, hx⟩ := hmeets.ends hE hvalid
    refine ⟨.script { tasks := [] }, e, w₁.release (delivered.toList.map .object), ?_,
      ((World.still_release w₁ _).failedWith x e).mpr hx⟩
    have hcontinue : runContinuation E rest w = (.ok ({ tasks := [] }, .error e), w₁) := hrun
    unfold stepBody
    simp only [hbody]
    exact (bind_of_ok hcontinue).trans rfl
  | @polls g g' u hbody hstarts hfails =>
    have hvalid' := hstarts.valid hE hvalid hhead
    obtain ⟨e, herror⟩ := hvalid'.exists_error hfails.failed
    have hx : u.FailedWith x e := ⟨hfails.failed, herror⟩
    obtain ⟨step, w₁, hdecide, hpoll, hstill⟩ := exists_poll hvalid' m id g'
    obtain rfl := hpoll.unique (hfails.poll hx)
    have hx₁ : w₁.FailedWith x e := by
      rcases hstill with hstill | hstill
      · exact (hstill.failedWith x e).mpr hx
      · exact (hstill.failedWith x e).mpr (hx.later hvalid' (.single (.detach m id)))
    refine ⟨.group g', e, w₁.release (delivered.toList.map .object), ?_,
      ((World.still_release w₁ _).failedWith x e).mpr hx₁⟩
    have hgroup := pollGroup_of_starts hstarts hdecide
    unfold stepBody
    simp only [hbody]
    exact (bind_of_ok hgroup).trans rfl

theorem Frame.Meets.steps {m : MindId} {id : FrameId} {i : Invocation} {frame : Frame} {callStack : CallStack}
    (hpush : w.callStack.push i = .ok callStack) (h : frame.Meets E m id x { w with callStack }) (hE : E.Tracked)
    (hvalid : Moment.Valid ⟨s, w⟩) (hhead : s.head? = some (m, id)) (delivered : Option Ref) :
    ∃ body e w', ∃ callStack' : CallStack, stepInvocation E m id i frame delivered w =
      (.ok (body, .error (callStack'.attach e), []), w') ∧ w'.FailedWith x e := by
  have hvalid' : Moment.Valid ⟨s, { w with callStack }⟩ := hvalid.act (.compute ⟨rfl, rfl, rfl⟩ ⟨rfl, rfl, rfl⟩)
  obtain ⟨body, e, w₁, hrun, hx⟩ := h.ends hE hvalid' hhead delivered
  refine ⟨body, e, { w₁ with callStack := w₁.callStack.pop }, w₁.callStack, ?_, ⟨hx.status, hx.error⟩⟩
  unfold stepInvocation
  rw [get_bind]
  simp only [hpush]
  exact (bind_of_ok (attempt_of_ok hrun)).trans rfl

end

/-! ### Frames -/

namespace World

/-- A frame was resumed where it met the failure of another one, and did not catch it. -/
inductive HandsOn : World → Handle → Handle → Prop where
  | step {x p : Handle} {s s' : List FrameKey} {v w : World} {m : MindId} {k : FrameId} {entry : FrameEntry} {frame : Frame}
      {callStack : CallStack} {n : ℕ} : Reachable ⟨s, v⟩ → v.entryAt m k = some entry → entry.handle = p →
      entry.frame = some frame → v.callStack.push ⟨v.classes.nameOf entry.owner, p.name⟩ = .ok callStack →
      frame.Meets (.ofBudget n) m k x { v.takeFrame m k entry frame with callStack } →
      Run ⟨s, ((Engine.ofBudget (n + 1)).resume m k v).2⟩ ⟨s', w⟩ → HandsOn w x p

/-- Who hands on the failure of another frame has failed alike. -/
theorem HandsOn.agrees {x p : Handle} {w : World} (h : w.HandsOn x p) :
    ∃ e e', w.FailedWith x e ∧ w.FailedWith p e' ∧ e.Agrees e' := by
  cases h with
  | @step _ _ s s' v _ m k entry frame callStack n hreachable he hp hframe hpush hmeets hrun =>
    subst hp
    have hvalid := hreachable.valid
    have htaken : Moment.Valid ⟨(m, k) :: s, v.takeFrame m k entry frame⟩ :=
      hvalid.act (.begin he (hvalid.isFinished_of_stored he hframe) hframe)
    have hT := Engine.tracked_ofBudget n
    have hpushed : (v.takeFrame m k entry frame).callStack.push ⟨v.classes.nameOf entry.owner, entry.handle.name⟩ =
        .ok callStack := hpush
    obtain ⟨body, e, w₁, callStack', hstep, hx⟩ := hmeets.steps hpushed hT htaken rfl entry.delivered
    obtain ⟨v', c, c', hends, hvalid₁, hback, hreturned, hhandle, hreturn⟩ := exists_returned hT hvalid he hframe rfl hstep
    have hends' : (Engine.ofBudget (n + 1)).resume m k v = (.ok (), v') := hends
    rw [hends'] at hrun
    have hx' := hx.later hvalid₁ hback
    have hvalid' := hvalid₁.run hback
    have hblamed : e.Blamed := by
      obtain ⟨s', hjourney, hs⟩ :=
        (Engine.tracked_ofBudget (n + 1)).resume ⟨s.head?, 0, true, none⟩ m k s v hvalid rfl (Nat.zero_le _)
      rw [hends'] at hjourney hs
      obtain rfl := hs (by simp)
      exact (hreachable.onward hjourney.run).blamed hx'
    have hp' : v'.FailedWith entry.handle (callStack'.attach e) := by
      cases hreturn with
      | @ended _ _ origin _ hending hstatus _ herror =>
        cases hending
        rw [← hhandle]
        refine World.failedWith_iff.mpr ⟨_, World.cell_of_card hreturned, hstatus, herror.trans ?_⟩
        exact congrArg some ((hblamed.attach callStack').stored origin)
    exact ⟨e, _, hx'.later hvalid' hrun, hp'.later hvalid' hrun, e.agrees_attach callStack'⟩

/-- A failure that is handed on from frame to frame is the same for all of them. -/
theorem FailedWith.handed {x₀ x : Handle} {w : World} {e₀ : EvalError} (h₀ : w.FailedWith x₀ e₀)
    (h : Relation.ReflTransGen (w.HandsOn) x₀ x) : ∃ e, w.FailedWith x e ∧ e₀.Agrees e := by
  induction h with
  | refl => exact ⟨e₀, h₀, .refl e₀⟩
  | tail _ hhands ih =>
    obtain ⟨e, hx, hagrees⟩ := ih
    obtain ⟨e', e'', hx', hp, hagrees'⟩ := hhands.agrees
    obtain rfl := hx.unique hx'
    exact ⟨e'', hp, hagrees.trans hagrees'⟩

end World

end MindScript
