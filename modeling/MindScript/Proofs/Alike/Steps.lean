import MindScript.Proofs.Alike.Updates

/-!
# Steps of frames are built alike

With them, so is everything that the engine of a larger budget does.
-/

namespace MindScript.Machine.Alike

variable {E E' : Engine} {σ : Setting}

/-! ### Tasks -/

theorem popValue (k : Continuation) : Alike E E' σ (popValue k) (popValue k) := by
  unfold Machine.popValue
  split
  · exact .pure _
  · exact nil.bind fun _ ↦ .pure _

theorem cutValues (k : Continuation) (height : Nat) :
    Alike E E' σ (cutValues k height) (cutValues k height) :=
  (releaseAll _).bind fun _ ↦ .pure _

theorem yieldValue (k : Continuation) {f g : Machine Ref} (h : Alike E E' σ f g) :
    Alike E E' σ (yieldValue k f) (yieldValue k g) := by
  refine h.attempt.bind fun r ↦ ?_
  cases r with
  | ok value => exact .pure _
  | error e => exact .pure _

theorem awaitFrame (k : Continuation) (h : Handle) :
    Alike E E' σ (awaitFrame k h) (awaitFrame k h) := by
  refine .read (fun w ↦ by simp) (fun w ↦ by simp) fun w _ ↦ ?_
  dsimp only
  split
  · exact (shareOrNil _).bind fun _ ↦ (releaseLinks _).bind fun _ ↦ .pure _
  · exact nil.bind fun _ ↦ (releaseLinks _).bind fun _ ↦ .pure _
  · exact (releaseLinks _).bind fun _ ↦ .pure _
  · exact (Alike.basic (.retainLink _)).bind fun _ ↦ .pure _
  · exact (Alike.basic (.retainLink _)).bind fun _ ↦ .pure _
  · exact (Alike.basic (.retainLink _)).bind fun _ ↦ .pure _

theorem awaitInvoked (k : Continuation) {f g : Machine Invoked} (h : Alike E E' σ f g) :
    Alike E E' σ (awaitInvoked k f) (awaitInvoked k g) := by
  refine h.attempt.bind fun r ↦ ?_
  match r with
  | .ok (.done value) => exact .pure _
  | .ok (.running h) => exact awaitFrame k h
  | .error e => exact .pure _

theorem nextClause (arena : Arena) (k : Continuation) (clauses : Span) (next : Nat)
    (otherwise : Option ExprId) :
    Alike E E' σ (nextClause arena k clauses next otherwise)
      (nextClause arena k clauses next otherwise) := by
  unfold Machine.nextClause
  split
  · exact .pure _
  · exact .pure _
  · exact nil.bind fun _ ↦ .pure _

theorem decompose (hσ : σ.scoping = true) (arena : Arena) (k : Continuation) (id : ExprId) :
    Alike E E' σ (decompose E arena k id) (decompose E' arena k id) := by
  unfold Machine.decompose
  split
  · exact .pure _
  · exact .pure _
  · split
    · exact .pure _
    · exact .pure _
  · exact .pure _
  · exact .pure _
  · exact .pure _
  · exact .pure _
  · exact .pure _
  · exact .pure _
  · exact nextClause ..
  · split
    · exact nil.bind fun _ ↦ .pure _
    · exact (Alike.basic (.pushScope hσ)).bind fun _ ↦ .pure _
  · exact .read (fun _ ↦ rfl) (fun _ ↦ rfl) fun _ _ ↦ .pure _
  · exact .pure _
  · exact .read (fun _ ↦ rfl) (fun _ ↦ rfl) fun _ _ ↦ .pure _
  · exact awaitInvoked k ((spawnGroup ..).map _)
  · exact yieldValue k (.eval id)

theorem popReceiver (k : Continuation) (hasReceiver : Bool) :
    Alike E E' σ (popReceiver k hasReceiver) (popReceiver k hasReceiver) := by
  cases hasReceiver with
  | true => exact popValue k
  | false => exact .read (fun _ ↦ rfl) (fun _ ↦ rfl) fun _ _ ↦ (share _).bind fun _ ↦ .pure _

theorem applyOp (arena : Arena) (k : Continuation) (op : Apply) :
    Alike E E' σ (applyOp E arena k op) (applyOp E' arena k op) := by
  cases op with
  | bind name =>
    exact (popValue k).bind fun (value, k) ↦ (retain value).bind fun _ ↦
      (Alike.basic (.define name value)).bind fun _ ↦ .pure _
  | assign name =>
    exact (popValue k).bind fun (value, k) ↦ yieldValue k ((retain value).bind fun _ ↦
      ((assignVariable name value).elseRelease [value]).bind fun _ ↦ .pure value)
  | binary op =>
    exact (popValue k).bind fun (r, k) ↦ (popValue k).bind fun (l, k) ↦ yieldValue k (binaryOp op l r)
  | unary op => exact (popValue k).bind fun (operand, k) ↦ yieldValue k (unaryOp op operand)
  | method hasReceiver name args qualifier =>
    exact (popReceiver _ hasReceiver).bind fun (receiver, k) ↦ yieldValue k (callMethod ..)
  | coroutine hasReceiver name args qualifier =>
    exact (popReceiver _ hasReceiver).bind fun (receiver, k) ↦ awaitInvoked k (callCoroutine ..)
  | invoke args =>
    exact (popValue _).bind fun (callee, k) ↦ (awaitInvoked k (callClosure ..)).bind fun _ ↦
      (release callee).bind fun _ ↦ .pure _
  | instantiate className args => exact yieldValue _ (instantiate ..)
  | list itemClass length => exact yieldValue _ (listNamed ..)
  | loopExit => exact (popValue k).bind fun _ ↦ .pure _

theorem popTruth (k : Continuation) : Alike E E' σ (popTruth k) (popTruth k) :=
  (popValue k).bind fun (value, _) ↦ ((expectBool value).thenRelease [value]).attempt.bind fun _ ↦ .pure _

/-- Evaluating a node and ending a block may change the scopes of the running frame; no other task does. -/
theorem runTask_of_ne {task : Task} (heval : ∀ id, task ≠ .eval id) (hpop : task ≠ .popScope) (arena : Arena)
    (k : Continuation) : Alike E E' σ (runTask E arena k task) (runTask E' arena k task) := by
  cases task with
  | eval id => exact absurd rfl (heval id)
  | discard => exact (releaseAll _).bind fun _ ↦ .pure _
  | popScope => exact absurd rfl hpop
  | apply op => exact applyOp ..
  | shortCircuit op right =>
    refine (popTruth k).bind fun (decided, k) ↦ ?_
    cases decided with
    | error e => exact .pure _
    | ok decided =>
      dsimp only
      split
      · exact (boolean decided).bind fun _ ↦ .pure _
      · exact .pure _
  | checkBool =>
    refine (popTruth k).bind fun (b, k) ↦ ?_
    cases b with
    | error e => exact .pure _
    | ok b => exact (boolean b).bind fun _ ↦ .pure _
  | cond clauses next otherwise =>
    refine (popTruth k).bind fun (b, k) ↦ ?_
    match b with
    | .error e => exact .pure _
    | .ok true => exact .pure _
    | .ok false => exact nextClause ..
  | loop body depth height => exact (cutValues k height).bind fun _ ↦ .pure _
  | guarded errorName handler depth height => exact .pure _
  | await h => exact awaitFrame k h

theorem runTask (hσ : σ.scoping = true) (arena : Arena) (k : Continuation) (task : Task) :
    Alike E E' σ (runTask E arena k task) (runTask E' arena k task) := by
  cases task with
  | eval id =>
    unfold Machine.runTask
    dsimp only
    split
    · exact decompose hσ ..
    · exact yieldValue k (.eval id)
  | popScope => exact (Alike.basic (.popScope hσ)).bind fun _ ↦ .pure _
  | _ => exact runTask_of_ne (fun _ h ↦ by cases h) (fun h ↦ by cases h) arena k

theorem unwind (hσ : σ.scoping = true) (values : Stack Ref) (e : EvalError) (tasks : List Task) :
    Alike E E' σ (unwind values e tasks) (unwind values e tasks) := by
  induction tasks with
  | nil => exact (releaseAll _).bind fun _ ↦ .pure _
  | cons task rest ih =>
    cases task with
    | popScope => exact (Alike.basic (.popScope hσ)).bind fun _ ↦ ih
    | loop body depth height =>
      unfold Machine.unwind
      dsimp only
      split
      · exact (Alike.basic (.truncateScopes hσ depth)).bind fun _ ↦ (cutValues ..).bind fun _ ↦ .pure _
      · exact ih
    | guarded errorName handler depth height =>
      unfold Machine.unwind
      dsimp only
      split
      · exact ih
      · exact (Alike.basic (.truncateScopes hσ depth)).bind fun _ ↦ (cutValues ..).bind fun _ ↦
          (Alike.basic (.pushScope hσ)).bind fun _ ↦ (string _).bind fun _ ↦
            (Alike.basic (.define ..)).bind fun _ ↦ .pure _
    | await h => exact (releaseLinks _).bind fun _ ↦ ih
    | eval id => exact ih
    | discard => exact ih
    | apply op => exact ih
    | shortCircuit op right => exact ih
    | checkBool => exact ih
    | cond clauses next otherwise => exact ih

theorem runTasks (hσ : σ.scoping = true) (arena : Arena) {n n' : Nat} (hn : Spans E E' n n') (k : Continuation) :
    Alike E E' σ (runTasks E arena n k) (runTasks E' arena n' k) := by
  induction n generalizing n' k with
  | zero =>
    refine .exhausted _ fun hb ↦ ?_
    obtain rfl := hn.same hb
    rfl
  | succ n ih =>
    obtain ⟨k', rfl, hk⟩ := hn.succ
    unfold Machine.runTasks
    split
    · exact (popValue k).bind fun (_, k) ↦ (releaseAll _).bind fun _ ↦ .pure _
    · refine (runTask hσ arena _ _).bind fun (k, progress) ↦ ?_
      cases progress with
      | running => exact ih hk k
      | suspend wake => exact .pure _
      | failed e =>
        refine (unwind hσ _ e _).bind fun (k, e?) ↦ ?_
        cases e? with
        | none => exact ih hk k
        | some e => exact .pure _

theorem runContinuation (hσ : σ.scoping = true) (hb : E.budget ≤ E'.budget) (k : Continuation) :
    Alike E E' σ (runContinuation E k) (runContinuation E' k) :=
  .read (fun _ ↦ rfl) (fun _ ↦ rfl) fun _ _ ↦ runTasks (by exact hσ) _ (.of_budget hb) k

/-! ### Groups -/

theorem startBranches {m : MindId} {id : FrameId} (hm : m.index < σ.minds)
    (hcur : σ.current = some (m, id)) (policy : Policy) (branches : List ExprId)
    (handles : Array Handle) :
    Alike E E' σ (startBranches E m id policy branches handles)
      (startBranches E' m id policy branches handles) := by
  induction branches generalizing handles σ with
  | nil => exact .pure handles
  | cons branch rest ih =>
    refine captureContext.bind fun context ↦ ?_
    refine (spawnFrame _ _ _ _ _ _ hm (fun p hp ↦ by rw [hcur, Option.some.inj hp])
      (.script context branch)).bind fun h ↦ ?_
    refine .read (fun _ ↦ by simp) (fun _ ↦ by simp) fun w hw ↦ ?_
    split
    · exact .pure _
    · refine ih ?_ ?_ _
      · exact Nat.lt_of_lt_of_le hm hw.minds
      · exact hcur

theorem branchResult (o : Outcome) : Alike E E' σ (branchResult o) (branchResult o) := by
  unfold Machine.branchResult
  split
  · exact .pure _
  · exact (shareOrNil _).bind fun _ ↦ .pure _

theorem decideGroup (m : MindId) (id : FrameId) (g : Group) :
    Alike E E' σ (decideGroup m id g) (decideGroup m id g) := by
  have hread (o : Outcome) : Machine.branchResult o.bare = Machine.branchResult o := rfl
  refine .read (fun w ↦ by simp [hread]) (fun w ↦ by simp [hread]) fun w _ ↦ ?_
  cases hp : g.policy with
  | sync =>
    dsimp only
    split
    · exact .pure _
    · split
      · exact nil.bind fun _ ↦ .pure _
      · exact .pure _
  | race =>
    dsimp only
    split
    · exact branchResult _
    · split
      · exact nil.bind fun _ ↦ .pure _
      · exact .pure _
  | any =>
    dsimp only
    split
    · exact (Alike.basic (.detachChildren m id)).bind fun _ ↦ branchResult _
    · split
      · exact nil.bind fun _ ↦ .pure _
      · exact .pure _

theorem pollGroup {m : MindId} {id : FrameId} (hcur : σ.current = some (m, id)) (g : Group)
    (updateCount : Nat) :
    Alike E E' σ (pollGroup E m id g updateCount) (pollGroup E' m id g updateCount) := by
  unfold Machine.pollGroup
  split
  · refine .read (fun _ ↦ rfl) (fun _ ↦ rfl) fun w hw ↦ ?_
    have hm := hw.rooted.current m id (hw.current.trans hcur)
    refine (startBranches ?_ ?_ ..).bind fun _ ↦ (Alike.pure _).bind fun g ↦
      (decideGroup m id g).bind fun _ ↦ .pure _
    · exact hm
    · exact hcur
  · exact (Alike.pure g).bind fun g ↦ (decideGroup m id g).bind fun _ ↦ .pure _

/-! ### Steps -/

theorem stepBody (hσ : σ.scoping = true) (hb : E.budget ≤ E'.budget) {m : MindId} {id : FrameId}
    (hcur : σ.current = some (m, id)) (frame : Frame) (delivered : Option Ref) :
    Alike E E' σ (stepBody E m id frame delivered) (stepBody E' m id frame delivered) := by
  unfold Machine.stepBody
  split
  · exact (runContinuation hσ hb _).bind fun _ ↦ (releaseAll _).bind fun _ ↦ .pure _
  · refine .read (fun _ ↦ by simp) (fun _ ↦ by simp) fun w _ ↦ ?_
    exact (pollNative hb ..).bind fun _ ↦ .pure _
  · exact (pollGroup hcur ..).bind fun _ ↦ (releaseAll _).bind fun _ ↦ .pure _

end MindScript.Machine.Alike
