import MindScript.Proofs.Alike
import MindScript.Machine.Run

/-!
# Actions that end without an error

A step of a frame takes the errors of its body as its outcome, a destructor has its errors ignored, and what goes
wrong in a request of a host member is told in the reply.  So updates and requests raise nothing.
-/

namespace MindScript.Machine

namespace Calm

variable {α : Type}

theorem modifyGet (F : World → α × World) : Calm (modifyGet F) := fun _ _ h ↦ by cases h

theorem onHeap (F : Heap → α × Heap) : Calm (onHeap F) := fun _ _ h ↦ by cases h

theorem exhausted : Calm (exhausted : Machine α) := fun _ _ h ↦ by cases h

theorem share (r : Ref) : Calm (share r) := (modify _).bind fun _ ↦ pure r

theorem literal (v : Literal) : Calm (literal v) := by
  cases v with
  | nil => exact share _
  | _ => exact onHeap _

theorem popReady (m : MindId) : Calm (popReady m) := modifyGet _

theorem popPending (m : MindId) : Calm (popPending m) := modifyGet _

theorem runDestructor (E : Engine) (r : Ref) : Calm (runDestructor E r) := by
  refine read fun w ↦ (attempt _).bind fun found ↦ ?_
  split
  · refine (modify _).bind fun _ ↦ (attempt _).bind fun result ↦ ?_
    split
    · exact (modify _).bind fun _ ↦ modify _
    · exact (pure _).bind fun _ ↦ modify _
  · exact (pure _).bind fun _ ↦ modify _

theorem runAll (E : Engine) (rs : List Ref) : Calm (runAll E rs) := by
  induction rs with
  | nil => exact pure ()
  | cons r rest ih => exact (runDestructor E r).bind fun _ ↦ ih

theorem drainDue (E : Engine) (n ran : Nat) : Calm (drainDue E n ran) := by
  induction n generalizing ran with
  | zero => exact exhausted
  | succ n ih =>
    refine (onHeap _).bind fun due ↦ ?_
    split
    · exact pure ran
    · exact (runAll E due).bind fun _ ↦ ih _

theorem runDestructors (E : Engine) : Calm (runDestructors E) := by
  refine read fun w ↦ ?_
  split
  · exact pure 0
  · exact (modify _).bind fun _ ↦ (drainDue E _ 0).bind fun ran ↦ (modify _).bind fun _ ↦ pure ran

theorem afterHostCall (E : Engine) : Calm (afterHostCall E) := by
  refine read fun w ↦ ?_
  split
  · exact (runDestructors E).bind fun _ ↦ pure _
  · exact pure _

/-- The step of a frame settles the frame with the errors of its body. -/
theorem resumeFrame (E : Engine) (m : MindId) (id : FrameId) : Calm (resumeFrame E m id) := by
  refine read fun w ↦ ?_
  split
  · exact pure ()
  · split
    · exact pure ()
    · split
      · exact pure ()
      · exact read fun w ↦ (modify _).bind fun _ ↦ (stepInvocation E m id _ _ _).bind fun _ ↦
          read fun _ ↦ (modify _).bind fun _ ↦ modify _

theorem resume_ofBudget (n : Nat) (m : MindId) (id : FrameId) : Calm ((Engine.ofBudget n).resume m id) := by
  cases n with
  | zero => exact exhausted
  | succ n => exact resumeFrame _ m id

theorem handleIn (run : ProgramRun) (r : Reg) : Calm (handleIn run r) := by
  refine read fun w ↦ ?_
  split
  · exact pure _
  · exact pure _

theorem keepResult (run : ProgramRun) (act : Machine Ref) : Calm (keepResult run act) := by
  refine (attempt act).bind fun r ↦ ?_
  cases r with
  | ok value => exact pure _
  | error e => exact pure _

section

variable {E : Engine} (hE : ∀ m id, Calm (E.resume m id))

include hE

theorem drainReady (m : MindId) (n resumed : Nat) : Calm (drainReady E m n resumed) := by
  induction n generalizing resumed with
  | zero => exact exhausted
  | succ n ih =>
    refine (popReady m).bind fun id? ↦ ?_
    cases id? with
    | none => exact pure resumed
    | some id =>
      refine read fun w ↦ ?_
      split
      · exact (hE m id).bind fun _ ↦ ih _
      · exact ih resumed

theorem resumeDue (m : MindId) (isDue : World → FrameId → Bool) (ids : List FrameId) (resumed : Nat) :
    Calm (resumeDue E m isDue ids resumed) := by
  induction ids generalizing resumed with
  | nil => exact pure resumed
  | cons id rest ih =>
    refine read fun w ↦ ?_
    split
    · exact (hE m id).bind fun _ ↦ (drainReady hE m _ _).bind fun resumed ↦ ih resumed
    · exact ih resumed

theorem drainPending (m : MindId) (n resumed : Nat) : Calm (drainPending E m n resumed) := by
  induction n generalizing resumed with
  | zero => exact exhausted
  | succ n ih =>
    refine (popPending m).bind fun id? ↦ ?_
    cases id? with
    | none => exact pure resumed
    | some id => exact (hE m id).bind fun _ ↦ (drainReady hE m _ _).bind fun resumed ↦ ih resumed

theorem resumePhases (m : MindId) : Calm (resumePhases E m) :=
  read fun _ ↦ (resumeDue hE m _ _ 0).bind fun resumed ↦ (resumeDue hE m _ _ resumed).bind fun resumed ↦
    (drainReady hE m _ resumed).bind fun resumed ↦ drainPending hE m _ resumed

theorem update (m : MindId) (elapsed : Float) : Calm (update E m elapsed) := by
  refine read fun w ↦ ?_
  split
  · exact pure 0
  · split
    · exact pure 0
    · exact (modify _).bind fun _ ↦ (resumePhases hE m).bind fun resumed ↦ (modify _).bind fun _ ↦
        (runDestructors E).bind fun _ ↦ pure resumed

/-- An error is part of the reply. -/
theorem perform (run : ProgramRun) (op : Request) : Calm (perform E run op) := by
  cases op with
  | literal v => exact (literal v).bind fun _ ↦ pure _
  | inspect r => exact Calm.bind (read fun _ ↦ pure _) fun _ ↦ pure _
  | journal line => exact (modify _).bind fun _ ↦ pure _
  | defaultMind => exact read fun _ ↦ pure _
  | createMind name => exact (modifyGet _).bind fun _ ↦ pure _
  | classNamed name => exact read fun _ ↦ pure _
  | callDepth => exact read fun _ ↦ pure _
  | pendingDestructors => exact read fun _ ↦ pure _
  | collectGarbage => exact (runDestructors E).bind fun _ ↦ pure _
  | liveCount mind => exact read fun _ ↦ pure _
  | update mind elapsed => exact (update hE mind elapsed).bind fun _ ↦ pure _
  | notify mind event payload => exact (modifyGet _).bind fun _ ↦ pure _
  | stop r =>
    refine (handleIn run r).bind fun h? ↦ ?_
    cases h? with
    | some h => exact (modify _).bind fun _ ↦ pure _
    | none => exact pure _
  | stopAll mind => exact (modify _).bind fun _ ↦ pure _
  | stopFor r => exact (modify _).bind fun _ ↦ pure _
  | suspendMind mind => exact (modify _).bind fun _ ↦ pure _
  | resumeMind mind => exact (modify _).bind fun _ ↦ pure _
  | setUpdateInterval r seconds =>
    refine (handleIn run r).bind fun h? ↦ ?_
    cases h? with
    | some h => exact (modify _).bind fun _ ↦ pure _
    | none => exact pure _
  | startCoroutine target member args mind deferred => exact keepResult run _
  | invokeMethod target member args => exact keepResult run _
  | newInstance c args => exact keepResult run _
  | evaluate arena root => exact keepResult run _
  | takeDelivered =>
    unfold Machine.perform
    split
    · exact pure _
    · exact pure _
  | takeState => exact pure _
  | setState s => exact pure _

theorem runProgram {α : Type} (program : Program α) (run : ProgramRun) : Calm (runProgram E program run) := by
  induction program generalizing run with
  | done result => exact pure _
  | request op next ih => exact (perform hE run op).bind fun (reply, run) ↦ ih reply run

end

end Calm

end MindScript.Machine
