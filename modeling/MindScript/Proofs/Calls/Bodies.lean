import MindScript.Proofs.Calls.Calm

/-!
# Bodies of frames raise nothing

What the body of a frame comes to is told in its step, errors among it.  An error that a task fails with unwinds the
continuation, a group reads the errors of its branches off their outcomes, and a polled coroutine hands its error over.
So the body that a step leaves is always there to be stored.
-/

namespace MindScript.Machine.Calm

theorem nil : Calm nil := share _

theorem boolean (b : Bool) : Calm (boolean b) := onHeap _

theorem string (s : String) : Calm (string s) := onHeap _

theorem popScope : Calm popScope := modify _

theorem pushScope : Calm pushScope := modify _

theorem shareOrNil (r : Option Ref) : Calm (shareOrNil r) := by
  cases r with
  | some r => exact share r
  | none => exact nil

/-! ### Tasks -/

theorem popValue (k : Continuation) : Calm (popValue k) := by
  unfold Machine.popValue
  split
  · exact pure _
  · exact nil.bind fun _ ↦ pure _

theorem cutValues (k : Continuation) (height : Nat) : Calm (cutValues k height) := (modify _).bind fun _ ↦ pure _

theorem yieldValue (k : Continuation) (f : Machine Ref) : Calm (yieldValue k f) := by
  refine (attempt f).bind fun r ↦ ?_
  cases r with
  | ok value => exact pure _
  | error e => exact pure _

theorem awaitFrame (k : Continuation) (x : Handle) : Calm (awaitFrame k x) := by
  refine read fun w ↦ ?_
  split
  · exact (shareOrNil _).bind fun _ ↦ (modify _).bind fun _ ↦ pure _
  · exact nil.bind fun _ ↦ (modify _).bind fun _ ↦ pure _
  all_goals exact (modify _).bind fun _ ↦ pure _

theorem awaitInvoked (k : Continuation) (f : Machine Invoked) : Calm (awaitInvoked k f) := by
  refine (attempt f).bind fun r ↦ ?_
  match r with
  | .ok (.done value) => exact pure _
  | .ok (.running x) => exact awaitFrame k x
  | .error e => exact pure _

theorem nextClause (arena : Arena) (k : Continuation) (clauses : Span) (next : Nat) (otherwise : Option ExprId) :
    Calm (nextClause arena k clauses next otherwise) := by
  unfold Machine.nextClause
  split
  · exact pure _
  · exact pure _
  · exact nil.bind fun _ ↦ pure _

theorem decompose (E : Engine) (arena : Arena) (k : Continuation) (id : ExprId) : Calm (decompose E arena k id) := by
  unfold Machine.decompose
  split
  · exact pure _
  · exact pure _
  · split
    · exact pure _
    · exact pure _
  · exact pure _
  · exact pure _
  · exact pure _
  · exact pure _
  · exact pure _
  · exact pure _
  · exact nextClause _ _ _ _ _
  · split
    · exact nil.bind fun _ ↦ pure _
    · exact pushScope.bind fun _ ↦ pure _
  · exact read fun _ ↦ pure _
  · exact pure _
  · exact read fun _ ↦ pure _
  · exact awaitInvoked k _
  · exact yieldValue k _

theorem popReceiver (k : Continuation) (hasReceiver : Bool) : Calm (popReceiver k hasReceiver) := by
  unfold Machine.popReceiver
  split
  · exact popValue k
  · exact read fun _ ↦ (share _).bind fun _ ↦ pure _

theorem applyOp (E : Engine) (arena : Arena) (k : Continuation) (op : Apply) : Calm (applyOp E arena k op) := by
  unfold Machine.applyOp
  cases op with
  | bind name => exact (popValue k).bind fun _ ↦ (modify _).bind fun _ ↦ (modify _).bind fun _ ↦ pure _
  | assign name => exact (popValue k).bind fun _ ↦ yieldValue _ _
  | binary op => exact (popValue k).bind fun _ ↦ (popValue _).bind fun _ ↦ yieldValue _ _
  | unary op => exact (popValue k).bind fun _ ↦ yieldValue _ _
  | method hasReceiver name args qualifier => exact (popReceiver _ hasReceiver).bind fun _ ↦ yieldValue _ _
  | coroutine hasReceiver name args qualifier => exact (popReceiver _ hasReceiver).bind fun _ ↦ awaitInvoked _ _
  | invoke args => exact (popValue _).bind fun _ ↦ (awaitInvoked _ _).bind fun _ ↦ (modify _).bind fun _ ↦ pure _
  | instantiate className args => exact yieldValue _ _
  | list itemClass length => exact yieldValue _ _
  | loopExit => exact (popValue k).bind fun _ ↦ pure _

theorem popTruth (k : Continuation) : Calm (popTruth k) :=
  (popValue k).bind fun _ ↦ (attempt _).bind fun _ ↦ pure _

theorem runTask (E : Engine) (arena : Arena) (k : Continuation) (task : Task) : Calm (runTask E arena k task) := by
  unfold Machine.runTask
  cases task with
  | eval id =>
    dsimp only
    split
    · exact decompose _ _ _ _
    · exact yieldValue _ _
  | discard => exact (modify _).bind fun _ ↦ pure _
  | popScope => exact popScope.bind fun _ ↦ pure _
  | apply op => exact applyOp _ _ _ _
  | shortCircuit op right =>
    refine (popTruth k).bind fun p ↦ ?_
    match p with
    | (.error e, k') => exact pure _
    | (.ok decided, k') =>
      dsimp only
      split
      · exact (boolean _).bind fun _ ↦ pure _
      · exact pure _
  | checkBool =>
    refine (popTruth k).bind fun p ↦ ?_
    match p with
    | (.error e, k') => exact pure _
    | (.ok b, k') => exact (boolean b).bind fun _ ↦ pure _
  | cond clauses next otherwise =>
    refine (popTruth k).bind fun p ↦ ?_
    match p with
    | (.error e, k') => exact pure _
    | (.ok true, k') => exact pure _
    | (.ok false, k') => exact nextClause _ _ _ _ _
  | loop body depth height => exact (cutValues k height).bind fun _ ↦ pure _
  | guarded errorName handler depth height => exact pure _
  | await x => exact awaitFrame k x

theorem unwind (values : Stack Ref) (e : EvalError) (tasks : List Task) : Calm (unwind values e tasks) := by
  induction tasks with
  | nil => exact (modify _).bind fun _ ↦ pure _
  | cons task rest ih =>
    unfold Machine.unwind
    cases task with
    | popScope => exact popScope.bind fun _ ↦ ih
    | loop body depth height =>
      dsimp only
      split
      · exact (modify _).bind fun _ ↦ (cutValues _ _).bind fun _ ↦ pure _
      · exact ih
    | guarded errorName handler depth height =>
      dsimp only
      split
      · exact ih
      · exact (modify _).bind fun _ ↦ (cutValues _ _).bind fun _ ↦ pushScope.bind fun _ ↦ (string _).bind fun _ ↦
          (modify _).bind fun _ ↦ pure _
    | await x => exact (modify _).bind fun _ ↦ ih
    | _ => exact ih

theorem runTasks (E : Engine) (arena : Arena) (n : Nat) (k : Continuation) : Calm (runTasks E arena n k) := by
  induction n generalizing k with
  | zero => exact exhausted
  | succ n ih =>
    unfold Machine.runTasks
    split
    · exact (popValue k).bind fun _ ↦ (modify _).bind fun _ ↦ pure _
    · refine (runTask _ _ _ _).bind fun p ↦ ?_
      match p with
      | (k', .running) => exact ih k'
      | (k', .suspend wake) => exact pure _
      | (k', .failed e) =>
        refine (unwind _ _ _).bind fun q ↦ ?_
        match q with
        | (k'', none) => exact ih k''
        | (k'', some e') => exact pure _

/-! ### Polled coroutines and groups -/

theorem pollCore (E : Engine) (code : CoreCoroutine) (info : PollInfo) (this : Ref) (args : List Ref)
    (delivered : Option Ref) (state : Option Stored) : Calm (pollCore E code info this args delivered state) := by
  unfold Machine.pollCore
  cases code with
  | wait => exact (attempt _).bind fun _ ↦ pure _
  | waitUntil => exact (attempt _).bind fun _ ↦ pure _
  | waitEvent => exact (attempt _).bind fun _ ↦ pure _
  | waitFor => exact (attempt _).bind fun _ ↦ pure _
  | each =>
    refine (attempt _).bind fun r ↦ ?_
    match r with
    | .error e => exact (modify _).bind fun _ ↦ pure _
    | .ok none => exact (modify _).bind fun _ ↦ (share _).bind fun _ ↦ pure _
    | .ok (some (item, cursor)) =>
      refine (attempt _).bind fun result ↦ ?_
      cases result with
      | error e => exact pure _
      | ok value => exact (modify _).bind fun _ ↦ pure _

theorem wakeOf (run : ProgramRun) (wait : Waiting) : Calm (wakeOf run wait) := by
  cases wait with
  | frame r =>
    refine (handleIn run r).bind fun found ↦ ?_
    cases found with
    | none => exact pure _
    | some x => exact (modify _).bind fun _ ↦ pure _
  | _ => exact pure _

theorem branchResult (outcome : Outcome) : Calm (branchResult outcome) := by
  unfold Machine.branchResult
  split
  · exact pure _
  · exact (shareOrNil _).bind fun _ ↦ pure _

theorem decideGroup (m : MindId) (id : FrameId) (g : Group) : Calm (decideGroup m id g) := by
  refine read fun w ↦ ?_
  have hdone (done : Bool) : Calm (if done = true then do return .ok (.done (← Machine.nil))
      else Pure.pure (.ok (.suspend .children)) : Machine (Except EvalError Step)) := by
    cases done with
    | true => exact nil.bind fun _ ↦ pure _
    | false => exact pure _
  cases hpolicy : g.policy with
  | sync =>
    dsimp only
    split
    · exact pure _
    · exact hdone _
  | race =>
    dsimp only
    split
    · exact branchResult _
    · exact hdone _
  | any =>
    dsimp only
    split
    · exact (modify _).bind fun _ ↦ branchResult _
    · exact hdone _

section

variable {E : Engine} (hE : ∀ m id, Calm (E.resume m id))

include hE

theorem pollHost (poll : PollInfo → Program Poll) (info : PollInfo) (this : Ref) (args : List Ref)
    (delivered : Option Ref) (state : Option Stored) : Calm (pollHost E poll info this args delivered state) := by
  refine (runProgram hE (poll info) _).bind fun p ↦ ?_
  obtain ⟨result, run⟩ := p
  match result with
  | .ok (.ready r) => exact (share _).bind fun _ ↦ (modify _).bind fun _ ↦ pure _
  | .ok (.pending wait) => exact (wakeOf run wait).bind fun _ ↦ (modify _).bind fun _ ↦ pure _
  | .error e => exact (modify _).bind fun _ ↦ pure _

theorem startBranches (m : MindId) (id : FrameId) (policy : Policy) (branches : List ExprId)
    (handles : Array Handle) : Calm (startBranches E m id policy branches handles) := by
  induction branches generalizing handles with
  | nil => exact pure _
  | cons branch rest ih =>
    have hcapture : Calm captureContext := read fun _ ↦ (onHeap _).bind fun _ ↦ (modify _).bind fun _ ↦ pure _
    refine hcapture.bind fun context ↦ Calm.bind ?_ fun x ↦ read fun w ↦ ?_
    · exact (modifyGet _).bind fun x ↦ (hE m x.frame).bind fun _ ↦ pure x
    · split
      · exact pure _
      · exact ih _

theorem pollGroup (m : MindId) (id : FrameId) (g : Group) (updateCount : Nat) :
    Calm (pollGroup E m id g updateCount) := by
  unfold Machine.pollGroup
  split
  · exact read fun _ ↦ (startBranches hE _ _ _ _ _).bind fun _ ↦ (pure _).bind fun _ ↦ (decideGroup _ _ _).bind
      fun _ ↦ pure _
  · exact (pure g).bind fun _ ↦ (decideGroup _ _ _).bind fun _ ↦ pure _

theorem stepBody (m : MindId) (id : FrameId) (frame : Frame) (delivered : Option Ref) :
    Calm (stepBody E m id frame delivered) := by
  unfold Machine.stepBody
  split
  · exact Calm.bind (read fun _ ↦ runTasks _ _ _ _) fun _ ↦ (modify _).bind fun _ ↦ pure _
  · next code args state _ =>
    refine read fun w ↦ Calm.bind ?_ fun _ ↦ pure _
    cases code with
    | core c => exact pollCore _ _ _ _ _ _ _
    | host poll => exact pollHost hE _ _ _ _ _ _
  · next g _ =>
    exact (pollGroup hE _ _ _ _).bind fun _ ↦ (modify _).bind fun _ ↦ pure _

end

end MindScript.Machine.Calm
