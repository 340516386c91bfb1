import MindScript.Machine.Programs
import MindScript.Proofs.Alike.Members

/-!
# Updates, host calls and host members are built alike
-/

namespace MindScript.Machine.Alike

variable {E E' : Engine} {σ : Setting}

/-! ### Destructors -/

theorem runDestructor (r : Ref) : Alike E E' σ (runDestructor E r) (runDestructor E' r) := by
  refine .read (fun _ ↦ by simp) (fun _ ↦ by simp) fun w _ ↦ ?_
  refine (Alike.basic (.resolve ..)).attempt.bind fun found ↦ ?_
  cases found with
  | error e => exact release r
  | ok m =>
    refine (retain r).bind fun _ ↦ (Alike.invoke r m []).attempt.bind fun result ↦ ?_
    cases result with
    | error e => exact release r
    | ok value => exact (release value).bind fun _ ↦ release r

theorem runAll (rs : List Ref) : Alike E E' σ (runAll E rs) (runAll E' rs) := by
  induction rs with
  | nil => exact .pure ()
  | cons r rest ih => exact (runDestructor r).bind fun _ ↦ ih

theorem drainDue {n n' : Nat} (hn : Spans E E' n n') (ran : Nat) :
    Alike E E' σ (drainDue E n ran) (drainDue E' n' ran) := by
  induction n generalizing n' ran with
  | zero =>
    refine .exhausted _ fun hb ↦ ?_
    obtain rfl := hn.same hb
    rfl
  | succ n ih =>
    obtain ⟨k, rfl, hk⟩ := hn.succ
    refine (Alike.basic .takeDue).bind fun due ↦ ?_
    split
    · exact .pure ran
    · exact (runAll due).bind fun _ ↦ ih hk _

theorem runDestructors (hb : E.budget ≤ E'.budget) :
    Alike E E' σ (runDestructors E) (runDestructors E') := by
  refine .read (fun _ ↦ rfl) (fun _ ↦ rfl) fun w _ ↦ ?_
  split
  · exact .pure 0
  · exact (Alike.basic (.setDraining true)).bind fun _ ↦ (drainDue (.of_budget hb) 0).bind fun ran ↦
      (Alike.basic (.setDraining false)).bind fun _ ↦ .pure ran

theorem finishHostCall {α : Type} (hb : E.budget ≤ E'.budget) (result : Except EvalError α) :
    Alike E E' σ (finishHostCall E result) (finishHostCall E' result) := by
  refine Alike.bind (.read (fun _ ↦ rfl) (fun _ ↦ rfl) fun w _ ↦ ?_) fun _ ↦ ofExcept result
  split
  · exact (runDestructors hb).bind fun _ ↦ .pure _
  · exact .pure _

/-! ### Updates -/

theorem drainReady {m : MindId} (hm : σ.pumping = some m) {n n' : Nat} (hn : Spans E E' n n') (resumed : Nat) :
    Alike E E' σ (drainReady E m n resumed) (drainReady E' m n' resumed) := by
  induction n generalizing n' resumed σ with
  | zero =>
    refine .exhausted _ fun hb ↦ ?_
    obtain rfl := hn.same hb
    rfl
  | succ n ih =>
    obtain ⟨k, rfl, hk⟩ := hn.succ
    refine (Alike.basic (.popReady hm)).bind fun id? ↦ ?_
    cases id? with
    | none => exact .pure resumed
    | some id =>
      exact .resumeDue id (·.conditionHolds m id) hm (fun _ ↦ by simp) (fun w hw ↦ by simp [World.isDue, hw])
        (ih hm hk _) (ih hm hk _)

theorem resumeEach (hb : E.budget ≤ E'.budget) {m : MindId} (hm : σ.pumping = some m) {isDue : World → FrameId → Bool}
    (hbare : ∀ w, isDue w.bare = isDue w) (hdue : ∀ w id, isDue w id = true → w.isDue m id = true) (ids : List FrameId)
    (resumed : Nat) : Alike E E' σ (Machine.resumeDue E m isDue ids resumed) (Machine.resumeDue E' m isDue ids resumed) := by
  induction ids generalizing resumed with
  | nil => exact .pure resumed
  | cons id rest ih =>
    exact .resumeDue id (isDue · id) hm (fun w ↦ by rw [hbare]) (fun w hw ↦ hdue w id hw)
      ((drainReady hm (.of_budget hb) _).bind ih) (ih resumed)

theorem drainPending (hb : E.budget ≤ E'.budget) {m : MindId} (hm : σ.pumping = some m) {n n' : Nat}
    (hn : Spans E E' n n') (resumed : Nat) :
    Alike E E' σ (drainPending E m n resumed) (drainPending E' m n' resumed) := by
  induction n generalizing n' resumed with
  | zero =>
    refine .exhausted _ fun hb ↦ ?_
    obtain rfl := hn.same hb
    rfl
  | succ n ih =>
    obtain ⟨k, rfl, hk⟩ := hn.succ
    exact .resumePending hm (.pure resumed) ((drainReady hm (.of_budget hb) _).bind fun resumed ↦ ih hk resumed)

theorem resumePhases (hb : E.budget ≤ E'.budget) {m : MindId} (hm : σ.pumping = some m) :
    Alike E E' σ (resumePhases E m) (resumePhases E' m) := by
  refine .read (fun _ ↦ rfl) (fun _ ↦ rfl) fun w _ ↦ ?_
  refine (resumeEach hb (by exact hm) (fun w ↦ by simp) (fun w id hw ↦ by simp [World.isDue, hw]) _ 0).bind fun resumed ↦ ?_
  refine (resumeEach hb (by exact hm) (fun w ↦ by simp) (fun w id hw ↦ by simp [World.isDue, hw]) _ resumed).bind fun resumed ↦ ?_
  exact (drainReady (by exact hm) (.of_budget hb) resumed).bind fun resumed ↦
    drainPending hb (by exact hm) (.of_budget hb) resumed

theorem update (hb : E.budget ≤ E'.budget) (m : MindId) (elapsed : Float) :
    Alike E E' σ (update E m elapsed) (update E' m elapsed) :=
  .whenIdle m elapsed ((resumePhases hb rfl).bind fun resumed ↦
    (Alike.basic (.endUpdate rfl)).bind fun _ ↦ (runDestructors hb).bind fun _ ↦ .pure resumed)

/-! ### Host calls -/

theorem shareArgs (rs : List Ref) : Alike E E' σ (shareArgs rs) (shareArgs rs) := by
  induction rs with
  | nil => exact .pure _
  | cons r rest ih => exact (retain r).bind fun _ ↦ ih.bind fun _ ↦ .pure _

theorem blame {α : Type} (target : Ref) (member : String) (result : Except EvalError α) :
    Alike E E' σ (blame target member result) (blame target member result) := by
  cases result with
  | ok a => exact .pure _
  | error e =>
    exact (releaseAll _).bind fun _ ↦ .read (fun _ ↦ by simp) (fun _ ↦ by simp) fun _ _ ↦ .pure _

theorem hostNew (hb : E.budget ≤ E'.budget) (c : ClassId) (args : List Ref) :
    Alike E E' σ (hostNew E c args) (hostNew E' c args) :=
  (shareArgs args).bind fun args ↦ (construct c args).attempt.bind fun result ↦ finishHostCall hb result

theorem hostEvaluate (hb : E.budget ≤ E'.budget) (arena : Arena) (root : ExprId) :
    Alike E E' σ (hostEvaluate E arena root) (hostEvaluate E' arena root) :=
  nil.bind fun _ ↦ (newContext ..).bind fun context ↦ (Alike.withContext context (.eval root)).bind fun _ ↦
    (releaseLinks _).bind fun _ ↦ (failLoopExit _).attempt.bind fun result ↦ finishHostCall hb result

theorem hostInvoke (hb : E.budget ≤ E'.budget) (target : Ref) (member : String) (args : List Ref) :
    Alike E E' σ (hostInvoke E target member args) (hostInvoke E' target member args) :=
  (shareArgs args).bind fun _ ↦ (retain target).bind fun _ ↦ (callMethod ..).attempt.bind fun result ↦
    (blame target member result).bind fun result ↦ finishHostCall hb result

theorem startMember (target : Ref) (member : String) (args : ArgValues) (mind : MindId)
    (deferred : Bool) :
    Alike E E' σ (startMember E target member args mind deferred)
      (startMember E' target member args mind deferred) :=
  ((resolveCall ..).elseRelease _).bind fun _ ↦ (retain target).bind fun _ ↦
    spawnMember _ none _ _ _ _ fun p hp ↦ absurd hp.symm (Option.some_ne_none p)

theorem hostStart (hb : E.budget ≤ E'.budget) (target : Ref) (member : String) (args : List Ref)
    (mind : MindId) (deferred : Bool) :
    Alike E E' σ (hostStart E target member args mind deferred)
      (hostStart E' target member args mind deferred) :=
  (shareArgs args).bind fun _ ↦ (startMember ..).attempt.bind fun result ↦
    (blame target member result).bind fun result ↦ (Alike.basic (.settleMind mind)).bind fun _ ↦
      finishHostCall hb result

/-! ### Host members -/

theorem literal (v : Literal) : Alike E E' σ (literal v) (literal v) := by
  cases v with
  | nil => exact nil
  | boolean b => exact boolean b
  | integer i => exact integer i
  | real x => exact real x
  | text s => exact string s
  | symbol name => exact symbol name

theorem handleIn (run : ProgramRun) (r : Reg) : Alike E E' σ (handleIn run r) (handleIn run r) := by
  refine .read (fun _ ↦ by simp) (fun _ ↦ by simp) fun w _ ↦ ?_
  split
  · exact .pure _
  · exact .pure _

theorem keepResult (run : ProgramRun) {f g : Machine Ref} (h : Alike E E' σ f g) :
    Alike E E' σ (keepResult run f) (keepResult run g) := by
  refine h.attempt.bind fun r ↦ ?_
  cases r with
  | ok value => exact .pure _
  | error e => exact .pure _

theorem startValue (hb : E.budget ≤ E'.budget) (target : Ref) (member : String) (args : List Ref)
    (mind : MindId) (deferred : Bool) :
    Alike E E' σ (startValue E target member args mind deferred)
      (startValue E' target member args mind deferred) :=
  (hostStart hb ..).bind fun h ↦ (handleValue h).bind fun value ↦ (releaseLinks _).bind fun _ ↦ .pure value

/-- The answer to a request, whichever it is. -/
theorem perform (hb : E.budget ≤ E'.budget) (run : ProgramRun) (op : Request) :
    Alike E E' σ (perform E run op) (perform E' run op) := by
  cases op with
  | literal v => exact (literal v).bind fun _ ↦ .pure _
  | inspect r => exact (payloadOf _).bind fun _ ↦ .pure _
  | journal line => exact (Alike.basic (.writeDown run line)).bind fun _ ↦ .pure _
  | defaultMind => exact .read (fun _ ↦ rfl) (fun _ ↦ rfl) fun _ _ ↦ .pure _
  | createMind name => exact (Alike.basic (.createMind name)).bind fun _ ↦ .pure _
  | classNamed name => exact .read (fun _ ↦ rfl) (fun _ ↦ rfl) fun _ _ ↦ .pure _
  | callDepth => exact .read (fun _ ↦ rfl) (fun _ ↦ rfl) fun _ _ ↦ .pure _
  | pendingDestructors => exact .read (fun _ ↦ rfl) (fun _ ↦ rfl) fun _ _ ↦ .pure _
  | collectGarbage => exact (runDestructors hb).bind fun _ ↦ .pure _
  | liveCount mind => exact .read (fun _ ↦ by simp) (fun _ ↦ by simp) fun _ _ ↦ .pure _
  | update mind elapsed => exact (update hb mind elapsed).bind fun _ ↦ .pure _
  | notify mind event payload => exact (Alike.basic (.notify mind event _)).bind fun _ ↦ .pure _
  | stop r =>
    refine (handleIn run r).bind fun h? ↦ ?_
    cases h? with
    | some h => exact (Alike.basic (.stop h)).bind fun _ ↦ .pure _
    | none => exact .pure _
  | stopAll mind => exact (Alike.basic (.stopAll mind)).bind fun _ ↦ .pure _
  | stopFor r => exact (Alike.basic (.stopAllFor _)).bind fun _ ↦ .pure _
  | suspendMind mind => exact (Alike.basic (.setSuspended mind true)).bind fun _ ↦ .pure _
  | resumeMind mind => exact (Alike.basic (.setSuspended mind false)).bind fun _ ↦ .pure _
  | setUpdateInterval r seconds =>
    refine (handleIn run r).bind fun h? ↦ ?_
    cases h? with
    | some h => exact (Alike.basic (.setUpdateInterval h seconds)).bind fun _ ↦ .pure _
    | none => exact .pure _
  | startCoroutine target member args mind deferred => exact keepResult run (startValue hb ..)
  | invokeMethod target member args => exact keepResult run (hostInvoke hb ..)
  | newInstance c args => exact keepResult run (hostNew hb ..)
  | evaluate arena root => exact keepResult run (hostEvaluate hb ..)
  | takeDelivered =>
    unfold Machine.perform
    split
    · exact .pure _
    · exact .pure _
  | takeState => exact .pure _
  | setState s => exact .pure _

theorem runProgram {α : Type} (hb : E.budget ≤ E'.budget) (program : Program α) (run : ProgramRun) :
    Alike E E' σ (runProgram E program run) (runProgram E' program run) := by
  induction program generalizing run with
  | done result => exact .pure _
  | request op next ih => exact (perform hb run op).bind fun (reply, run) ↦ ih reply run

theorem runHost (hb : E.budget ≤ E'.budget) (program : Program Reg) (this : Ref) (args : List Ref) :
    Alike E E' σ (runHost E program this args) (runHost E' program this args) := by
  refine (runProgram hb program _).bind fun (result, run) ↦ ?_
  cases result with
  | ok r => exact (share _).bind fun value ↦ (releaseAll _).bind fun _ ↦ .pure value
  | error e => exact (releaseAll _).bind fun _ ↦ .raise e

theorem wakeOf (run : ProgramRun) (wait : Waiting) : Alike E E' σ (wakeOf run wait) (wakeOf run wait) := by
  cases wait with
  | tick => exact .pure _
  | atTime t => exact .pure _
  | event name => exact .pure _
  | children => exact .pure _
  | frame r =>
    refine (handleIn run r).bind fun h? ↦ ?_
    cases h? with
    | some h => exact (Alike.basic (.retainLink _)).bind fun _ ↦ .pure _
    | none => exact .pure _

theorem pollHost (hb : E.budget ≤ E'.budget) (poll : PollInfo → Program Poll) (info : PollInfo)
    (this : Ref) (args : List Ref) (delivered : Option Ref) (state : Option Stored) :
    Alike E E' σ (pollHost E poll info this args delivered state)
      (pollHost E' poll info this args delivered state) := by
  refine (runProgram hb (poll info) _).bind fun (result, run) ↦ ?_
  match result with
  | .ok (.ready r) =>
    exact (share _).bind fun _ ↦ (Alike.pure _).bind fun _ ↦ (releaseAll _).bind fun _ ↦ .pure _
  | .ok (.pending wait) =>
    exact (wakeOf run wait).bind fun _ ↦ (Alike.pure _).bind fun _ ↦ (releaseAll _).bind fun _ ↦ .pure _
  | .error e => exact (Alike.pure _).bind fun _ ↦ (releaseAll _).bind fun _ ↦ .pure _

theorem pollNative (hb : E.budget ≤ E'.budget) (code : NativeCoroutine) (info : PollInfo) (this : Ref)
    (args : List Ref) (delivered : Option Ref) (state : Option Stored) :
    Alike E E' σ (pollNative E code info this args delivered state)
      (pollNative E' code info this args delivered state) := by
  cases code with
  | core c => exact pollCore ..
  | host poll => exact pollHost hb ..

theorem runNative (hb : E.budget ≤ E'.budget) (code : NativeMethod) (this : Ref) (args : List Ref) :
    Alike E E' σ (runNative E code this args) (runNative E' code this args) := by
  cases code with
  | core method => exact runCore ..
  | host program => exact runHost hb ..

theorem runMember (hb : E.budget ≤ E'.budget) (this : Ref) (m : Member) (args : ArgValues) :
    Alike E E' σ (runMember E this m args) (runMember E' this m args) := by
  unfold Machine.runMember
  split
  · exact (newContext ..).bind fun _ ↦ runScript ..
  · exact ((bindNative ..).elseRelease _).bind fun values ↦ (runNative hb ..).thenRelease _
  · exact (releaseAll _).bind fun _ ↦ raiseKind _

/-- Running a member as an instance. -/
theorem invokeMember (hb : E.budget ≤ E'.budget) (this : Ref) (m : Member) (args : ArgValues) :
    Alike E E' σ (invokeMember E this m args) (invokeMember E' this m args) :=
  .read (fun _ ↦ rfl) (fun _ ↦ rfl) fun _ _ ↦ .withInvocation _ _ (runMember hb this m args)

end MindScript.Machine.Alike
