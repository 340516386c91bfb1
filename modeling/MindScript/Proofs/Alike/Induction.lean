import MindScript.Proofs.Alike.Steps

/-!
# Induction on how actions are put together

A property of actions that holds of the basic ones, and that each way of going on keeps, holds of every
action.  Contexts, invocations, scopes and handlers are put together from fewer ways of going on, so these
are all that has to be looked at.
-/

namespace MindScript.Machine

/-- A property of actions in a setting that is kept by the ways in which actions are put together. -/
structure Composite (J : ∀ {α : Type}, Setting → Machine α → Prop) : Prop where
  unchanged : ∀ {σ : Setting} {α : Type} {f : Machine α}, (∀ w, (f w).2 = w) → J σ f
  bind : ∀ {σ : Setting} {α β : Type} {f : Machine α} {F : α → Machine β},
    J σ f → (∀ a, J σ (F a)) → J σ (f >>= F)
  read : ∀ {σ : Setting} {α : Type} {F : World → Machine α},
    (∀ w, σ.Holds w → J { σ with minds := w.minds.size } (F w)) → J σ (get >>= F)
  /-- As `read`, for actions that the setting has no part in. -/
  look : ∀ {σ : Setting} {α : Type} {F : World → Machine α}, (∀ w, J σ (F w)) → J σ (get >>= F)
  attempt : ∀ {σ : Setting} {α : Type} {f : Machine α}, J σ f → J σ (attempt f)
  /-- Scopes can be opened and closed in any setting. -/
  basic : ∀ {σ : Setting} {α : Type} {f : Machine α} {scoping : Bool},
    Basic { σ with scoping } f → J σ f
  setContext : ∀ {σ : Setting} (F : World → Context), J σ (modify fun w ↦ { w with context := F w })
  setCallStack : ∀ {σ : Setting} (F : World → CallStack), J σ (modify fun w ↦ { w with callStack := F w })
  whenIdle : ∀ {σ : Setting} {f : Machine Nat} (m : MindId) (elapsed : Float),
    J { σ with pumping := some m } f → J σ (whenIdle m (beginUpdate m elapsed >>= fun _ ↦ f))

/-- A property that a step of a frame has too, if what runs in the step has it. -/
structure Compositional (J : ∀ {α : Type}, Setting → Machine α → Prop) : Prop extends Composite J where
  step : ∀ {σ : Setting} {E : Engine} (m : MindId) (id : FrameId),
    (∀ i frame delivered, J { σ with current := some (m, id), scoping := true }
      (stepInvocation E m id i frame delivered)) → J σ (resumeFrame E m id)

namespace Composite

variable {J : ∀ {α : Type}, Setting → Machine α → Prop} (hJ : Composite J) {σ : Setting} {α : Type}

include hJ

theorem pure (a : α) : J σ (pure a) := hJ.unchanged fun _ ↦ rfl

theorem raise (e : EvalError) : J σ (raise e : Machine α) := hJ.unchanged fun _ ↦ rfl

theorem ofExcept (r : Except EvalError α) : J σ (ofExcept r) := by
  cases r with
  | ok a => exact hJ.pure a
  | error e => exact hJ.raise e

theorem withContext {f : Machine α} (hf : J σ f) (c : Context) : J σ (withContext c f) :=
  hJ.look fun _ ↦ hJ.bind (hJ.setContext fun _ ↦ c) fun _ ↦ hJ.bind (hJ.attempt hf) fun _ ↦ hJ.look fun _ ↦
    hJ.bind (hJ.setContext _) fun _ ↦ hJ.pure _

theorem withInvocation {f : Machine α} (hf : J σ f) (i : Invocation) (held : List Ref) :
    J σ (withInvocation i held f) := by
  refine hJ.look fun w ↦ ?_
  split
  · exact hJ.bind (hJ.basic (.releaseLinks (σ := σ) _)) fun _ ↦ hJ.raise _
  · refine hJ.bind (hJ.setCallStack _) fun _ ↦ hJ.bind (hJ.attempt hf) fun result ↦ hJ.look fun _ ↦
      hJ.bind (hJ.setCallStack _) fun _ ↦ ?_
    cases result with
    | ok a => exact hJ.pure a
    | error e => exact hJ.raise _

theorem inScope {f : Machine Ref} (hf : J σ f) : J σ (inScope f) :=
  hJ.bind (hJ.basic (.pushScope rfl)) fun _ ↦ hJ.bind (hJ.attempt hf) fun r ↦
    hJ.bind (hJ.basic (.popScope rfl)) fun _ ↦ hJ.ofExcept r

theorem rescue {f : Machine Ref} {F : EvalError → Machine Ref} (hf : J σ f) (hF : ∀ e, J σ (F e))
    (catches : EvalError → Bool) : J σ (rescue f catches F) := by
  refine hJ.look fun w ↦ hJ.bind (hJ.attempt hf) fun r ↦ ?_
  cases r with
  | ok value => exact hJ.pure value
  | error e =>
    dsimp only
    split
    · exact hJ.bind (hJ.basic (.truncateScopes rfl _)) fun _ ↦ hF e
    · exact hJ.raise e

theorem stepInvocation {E : Engine} {m : MindId} {id : FrameId} {frame : Frame} {delivered : Option Ref}
    (h : J σ (stepBody E m id frame delivered)) (i : Invocation) :
    J σ (stepInvocation E m id i frame delivered) := by
  refine hJ.look fun w ↦ ?_
  split
  · exact hJ.pure _
  · exact hJ.bind (hJ.setCallStack _) fun _ ↦ hJ.bind (hJ.attempt h) fun _ ↦ hJ.look fun _ ↦
      hJ.bind (hJ.setCallStack _) fun _ ↦ hJ.pure _

end Composite

end MindScript.Machine

namespace MindScript

/-- Every call of the engine has the property. -/
structure Engine.Satisfies (J : ∀ {α : Type}, Machine.Setting → Machine α → Prop) (E : Engine) : Prop where
  eval : ∀ σ id, J σ (E.eval id)
  invoke : ∀ σ this m args, J σ (E.invoke this m args)
  resume : ∀ σ m id, J σ (E.resume m id)

open Machine

variable {J : ∀ {α : Type}, Setting → Machine α → Prop}

/-- The property holds of the calls of the engine by which it runs code, and wherever it resumes a frame. -/
structure Engine.Serves (J : ∀ {α : Type}, Setting → Machine α → Prop) (E : Engine) : Prop where
  eval : ∀ σ id, J σ (E.eval id)
  invoke : ∀ σ this m args, J σ (E.invoke this m args)
  spawn : ∀ {σ : Setting} {α : Type} {F : Handle → Machine α} (m : MindId) (name : String) (owner : ClassId)
    (parent : Option FrameId) (frame : Frame), m.index < σ.minds → (∀ p, parent = some p → σ.current = some (m, p)) →
    frame.Fresh → (∀ h, J σ (F h)) →
    J σ (registerFrame m name owner parent frame >>= fun h ↦ E.resume m h.frame >>= fun _ ↦ F h)
  due : ∀ {σ : Setting} {α : Type} {F F' : Machine α} {m : MindId} (id : FrameId) (isDue : World → Bool),
    σ.pumping = some m → (∀ w, isDue w = true → w.isDue m id = true) → J σ F → J σ F' →
    J σ (get >>= fun w ↦ if isDue w then E.resume m id >>= fun _ ↦ F else F')
  pending : ∀ {σ : Setting} {α : Type} {F F' : Machine α} {m : MindId}, σ.pumping = some m → J σ F → J σ F' →
    J σ (popPending m >>= fun
      | none => F
      | some id => E.resume m id >>= fun _ ↦ F')

/-- An engine each of whose calls has the property. -/
theorem Engine.Satisfies.serves (hJ : Composite J) {E : Engine} (hE : E.Satisfies J) : E.Serves J where
  eval := hE.eval
  invoke := hE.invoke
  spawn m name owner parent frame hm hparent hfresh hF :=
    hJ.bind (hJ.basic (.register m name owner parent frame hm hparent hfresh)) fun h ↦
      hJ.bind (hE.resume _ m h.frame) fun _ ↦ hF h
  due id isDue _ _ hF hF' := by
    refine hJ.look fun w ↦ ?_
    split
    · exact hJ.bind (hE.resume _ _ id) fun _ ↦ hF
    · exact hF'
  pending hm hF hF' := by
    refine hJ.bind (hJ.basic (.popPending hm)) fun id? ↦ ?_
    cases id? with
    | none => exact hF
    | some id => exact hJ.bind (hE.resume _ _ id) fun _ ↦ hF'

/-- An action that is put together over an engine that serves the property has it too. -/
theorem Machine.Alike.served (hJ : Composite J) {E E' : Engine} (hE : E.Serves J) {σ : Setting} {α : Type}
    {f g : Machine α} (h : Alike E E' σ f g) : J σ f := by
  induction h with
  | basic hbasic => exact hJ.basic hbasic
  | pure a => exact hJ.pure a
  | raise e => exact hJ.raise e
  | exhausted g _ => exact hJ.unchanged fun _ ↦ rfl
  | bind _ _ ihf ihF => exact hJ.bind ihf ihF
  | read _ _ _ ih => exact hJ.read ih
  | attempt _ ih => exact hJ.attempt ih
  | withContext c _ ih => exact hJ.withContext ih c
  | withInvocation i held _ ih => exact hJ.withInvocation ih i held
  | inScope _ ih => exact hJ.inScope ih
  | rescue catches _ _ ihf ihF => exact hJ.rescue ihf ihF catches
  | whenIdle m elapsed _ ih => exact hJ.whenIdle m elapsed ih
  | eval id => exact hE.eval _ id
  | invoke this m args => exact hE.invoke _ this m args
  | spawn m name owner parent frame hm hparent hfresh _ ih =>
    exact hE.spawn m name owner parent frame hm hparent hfresh ih
  | resumeDue id isDue hm _ hdue _ _ ih ih' => exact hE.due id isDue hm hdue ih ih'
  | resumePending hm _ _ ih ih' => exact hE.pending hm ih ih'

theorem Machine.Alike.composite (hJ : Composite J) {E E' : Engine} (hE : E.Satisfies J) {σ : Setting} {α : Type}
    {f g : Machine α} (h : Alike E E' σ f g) : J σ f :=
  h.served hJ (hE.serves hJ)

theorem Machine.Alike.compositional (hJ : Compositional J) {E E' : Engine} (hE : E.Satisfies J) {σ : Setting}
    {α : Type} {f g : Machine α} (h : Alike E E' σ f g) : J σ f :=
  h.composite hJ.toComposite hE

/-- What runs in a step has the property. -/
theorem Machine.Composite.ofStep (hJ : Composite J) {E : Engine} (hE : E.Serves J) {σ : Setting} (m : MindId)
    (id : FrameId) (i : Invocation) (frame : Frame) (delivered : Option Ref) :
    J { σ with current := some (m, id), scoping := true } (Machine.stepInvocation E m id i frame delivered) :=
  hJ.stepInvocation ((Alike.stepBody rfl (Nat.le_refl E.budget) rfl frame delivered).served hJ hE) i

theorem Machine.Compositional.resumeFrame (hJ : Compositional J) {E : Engine} (hE : E.Satisfies J) {σ : Setting}
    (m : MindId) (id : FrameId) : J σ (Machine.resumeFrame E m id) :=
  hJ.step m id fun i frame delivered ↦ hJ.ofStep (hE.serves hJ.toComposite) m id i frame delivered

theorem Engine.satisfies_empty (hJ : Composite J) : Engine.empty.Satisfies J :=
  ⟨fun _ _ ↦ hJ.unchanged fun _ ↦ rfl, fun _ _ _ _ ↦ hJ.unchanged fun _ ↦ rfl, fun _ _ _ ↦ hJ.unchanged fun _ ↦ rfl⟩

theorem Engine.satisfies_ofBudget (hJ : Compositional J) (n : Nat) : (Engine.ofBudget n).Satisfies J := by
  induction n with
  | zero => exact satisfies_empty hJ.toComposite
  | succ n ih =>
    have hle : (Engine.ofBudget n).budget ≤ (Engine.ofBudget n).budget := Nat.le_refl _
    exact ⟨fun _ id ↦ (Alike.evalNode hle id).compositional hJ ih,
      fun _ this m args ↦ (Alike.invokeMember hle this m args).compositional hJ ih,
      fun _ m id ↦ hJ.resumeFrame ih m id⟩

end MindScript
