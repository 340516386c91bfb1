import MindScript.Machine.Run
import MindScript.Proofs.Bare

/-!
# Actions built alike over two engines

Every action of the interpreter is put together from a few basic ones, from the calls of its engine, and
from a few ways of going on.  `Alike` says this of two actions at once, each over an engine of its own.
What holds of all runs is then shown once, by induction on how an action is put together: that a run
passes through moments of the scheduler only, and that counts and budget make no difference to a run that
ends.

The relation is indexed by what an action can rely on: a new frame may become a child only of the step
under way, and may go only to a Mind that there is.  The index also says whether the action may leave the
scopes of the running frame other than it found them, as a single task of a step may.
-/

namespace MindScript

/-- The Mind of the step under way and the default Mind are Minds of the interpreter. -/
structure World.Rooted (w : World) : Prop where
  current : ∀ m id, w.current = some (m, id) → m.index < w.minds.size
  defaultMind : ∀ m, w.defaultMind = some m → m.index < w.minds.size

/-- The time that a frame sleeps until has come, or what it waits for has happened. -/
def World.isDue (w : World) (m : MindId) (id : FrameId) : Bool := w.timeWakeDue m id || w.conditionHolds m id

namespace Machine

/-! ### Running actions -/

theorem bind_of_ok {α β : Type} {f : Machine α} {F : α → Machine β} {w w' : World} {a : α}
    (h : f w = (.ok a, w')) : (f >>= F) w = F a w' := by
  simp only [bind, ExceptT.bind, ExceptT.mk, StateT.bind, h]
  rfl

theorem bind_of_error {α β : Type} {f : Machine α} {F : α → Machine β} {w w' : World} {i : Interrupt}
    (h : f w = (.error i, w')) : (f >>= F) w = (.error i, w') := by
  simp only [bind, ExceptT.bind, ExceptT.mk, StateT.bind, h]
  rfl

/-- Actions that do the same can be followed by anything. -/
theorem bind_of_eq {α β : Type} {f g : Machine α} {F : α → Machine β} {w w' : World} (h : f w = g w') :
    (f >>= F) w = (g >>= F) w' := by
  simp only [bind, ExceptT.bind, ExceptT.mk, StateT.bind, h]

theorem exists_of_bind_eq_ok {α β : Type} {f : Machine α} {F : α → Machine β} {w w' : World} {b : β}
    (h : (f >>= F) w = (.ok b, w')) : ∃ a w₀, f w = (.ok a, w₀) ∧ F a w₀ = (.ok b, w') := by
  rcases hf : f w with ⟨i | a, w₀⟩
  · rw [bind_of_error hf] at h
    cases h
  · exact ⟨a, w₀, rfl, (bind_of_ok hf).symm.trans h⟩

theorem get_bind {α : Type} (F : World → Machine α) (w : World) : (get >>= F) w = F w w := rfl

theorem modify_apply (f : World → World) (w : World) : (modify f : Machine Unit) w = (.ok (), f w) := rfl

theorem modifyGet_apply {α : Type} (f : World → α × World) (w : World) :
    (modifyGet f : Machine α) w = (.ok (f w).1, (f w).2) := rfl

theorem attempt_of_ok {α : Type} {f : Machine α} {w w' : World} {a : α} (h : f w = (.ok a, w')) :
    attempt f w = (.ok (.ok a), w') := by
  simp only [attempt, h]

theorem attempt_of_raised {α : Type} {f : Machine α} {w w' : World} {e : EvalError}
    (h : f w = (.error (.raised e), w')) : attempt f w = (.ok (.error e), w') := by
  simp only [attempt, h]

theorem attempt_of_exhausted {α : Type} {f : Machine α} {w w' : World}
    (h : f w = (.error .exhausted, w')) : attempt f w = (.error .exhausted, w') := by
  simp only [attempt, h]

theorem attempt_of_eq {α : Type} {f g : Machine α} {w w' : World} (h : f w = g w') : attempt f w = attempt g w' := by
  simp only [attempt, h]

theorem attempt_cases {α : Type} {f : Machine α} {r : Except EvalError α} {w w' : World} (h : attempt f w = (.ok r, w')) :
    (∃ a, r = .ok a ∧ f w = (.ok a, w')) ∨ ∃ e, r = .error e ∧ f w = (.error (.raised e), w') := by
  rcases hf : f w with ⟨(e | _) | a, w₀⟩
  · rw [attempt_of_raised hf] at h
    cases h
    exact .inr ⟨e, rfl, rfl⟩
  · rw [attempt_of_exhausted hf] at h
    cases h
  · rw [attempt_of_ok hf] at h
    cases h
    exact .inl ⟨a, rfl, rfl⟩

theorem exists_of_any {α : Type} {f : Machine α} {p : α → Bool} {w : World} (h : (f w).1.toOption.any p = true) :
    ∃ a w', f w = (.ok a, w') ∧ p a = true := by
  rcases hf : f w with ⟨_ | a, w'⟩ <;> rw [hf] at h
  · cases h
  · exact ⟨a, w', rfl, h⟩

theorem exists_of_isSome {α : Type} {f : Machine α} {w : World} (h : (f w).1.toOption.isSome = true) :
    ∃ a w', f w = (.ok a, w') := by
  rcases hf : f w with ⟨_ | a, w'⟩
  · rw [hf] at h
    cases h
  · exact ⟨a, w', rfl⟩

theorem eq_ok_of_toOption {α : Type} {f : Machine α} {w : World} {a : α} (h : (f w).1.toOption = some a) :
    f w = (.ok a, (f w).2) := by
  obtain ⟨b, w', hrun⟩ := exists_of_isSome (Option.isSome_of_eq_some h)
  rw [hrun] at h ⊢
  rw [Option.some.inj h]

theorem ne_exhausted_of_isSome {α : Type} {f : Machine α} {w : World} (h : (f w).1.toOption.isSome = true) :
    (f w).1 ≠ .error .exhausted := by
  obtain ⟨a, w', hrun⟩ := exists_of_isSome h
  rw [hrun]
  exact nofun

theorem ok_of_attempt {α : Type} {f : Machine α} {w w' : World} {a : α} (h : attempt f w = (.ok (.ok a), w')) :
    f w = (.ok a, w') := by
  rcases attempt_cases h with ⟨b, hb, hf⟩ | ⟨e, he, -⟩
  · cases hb
    exact hf
  · cases he

theorem elseRelease_of_ok {α : Type} {f : Machine α} {held : List Ref} {w w' : World} {a : α}
    (h : f w = (.ok a, w')) : elseRelease f held w = (.ok a, w') := by
  simp only [elseRelease, h]

theorem ok_of_elseRelease {α : Type} {f : Machine α} {held : List Ref} {w w' : World} {a : α}
    (h : elseRelease f held w = (.ok a, w')) : f w = (.ok a, w') := by
  rcases hf : f w with ⟨result, w₀⟩
  simp only [elseRelease, hf] at h
  match result with
  | .ok b => exact h
  | .error (.raised e) => cases h
  | .error .exhausted => cases h

/-- An action that does not end with an error. -/
def Calm {α : Type} (f : Machine α) : Prop := ∀ w e, (f w).1 ≠ .error (.raised e)

namespace Calm

variable {α β : Type} {f : Machine α}

theorem pure (a : α) : Calm (pure a) := fun _ _ h ↦ by cases h

theorem modify (F : World → World) : Calm (modify F) := fun _ _ h ↦ by cases h

theorem attempt (f : Machine α) : Calm (attempt f) := by
  intro w e
  rcases hf : f w with ⟨result, w'⟩
  match result with
  | .ok a => simp [attempt_of_ok hf]
  | .error (.raised e) => simp [attempt_of_raised hf]
  | .error .exhausted => simp [attempt_of_exhausted hf]

theorem bind {F : α → Machine β} (hf : Calm f) (hF : ∀ a, Calm (F a)) : Calm (f >>= F) := by
  intro w e
  rcases hfw : f w with ⟨_ | a, w'⟩
  · rename_i i
    rw [bind_of_error hfw]
    intro h
    have hi : i = .raised e := Except.error.inj h
    exact hf w e (by rw [hfw, hi])
  · rw [bind_of_ok hfw]
    exact hF a w' e

theorem read {F : World → Machine α} (hF : ∀ w, Calm (F w)) : Calm (get >>= F) := fun w ↦ hF w w

theorem stepInvocation (E : Engine) (m : MindId) (id : FrameId) (i : Invocation) (frame : Frame)
    (delivered : Option Ref) : Calm (stepInvocation E m id i frame delivered) := by
  refine read fun w ↦ ?_
  split
  · exact pure _
  · exact (modify _).bind fun _ ↦ (attempt _).bind fun _ ↦ read fun _ ↦ (modify _).bind fun _ ↦ pure _

end Calm

/-- Where the first action raises no error, the second one takes over. -/
theorem bind_calm {α β : Type} {f : Machine α} (hf : Calm f) {F : α → Machine β} {w w' : World}
    {r : Except Interrupt β} (h : (f >>= F) w = (r, w')) (hne : r ≠ .error .exhausted) :
    ∃ a w₀, f w = (.ok a, w₀) ∧ F a w₀ = (r, w') := by
  rcases hrun : f w with ⟨result, w₀⟩
  match result with
  | .ok a => exact ⟨a, w₀, rfl, (bind_of_ok hrun).symm.trans h⟩
  | .error (.raised e) => exact absurd (congrArg Prod.fst hrun) (hf w e)
  | .error .exhausted =>
    rw [bind_of_error hrun] at h
    exact absurd (Prod.mk.inj h).1.symm hne

/-! ### Running frames -/

section

variable {E : Engine} {m : MindId} {id : FrameId} {entry : FrameEntry} {frame : Frame} {w w₁ : World}

theorem runFrame_apply (E : Engine) (m : MindId) (id : FrameId) (entry : FrameEntry) (frame : Frame) (w : World) :
    runFrame E m id entry frame w =
      (stepInvocation E m id ⟨w.classes.nameOf entry.owner, entry.handle.name⟩ frame entry.delivered >>=
        fun (body, step, unused) ↦ do
          let context := (← get).context
          let frame := { frame with context, body, updateCount := frame.updateCount + 1 }
          modify fun v ↦ (v.enter w.context w.current).returnFrame m id frame step
          releaseAll unused) (w.takeFrame m id entry frame) := rfl

theorem runFrame_of_error {i : Invocation} {interrupt : Interrupt}
    (hi : i = ⟨w.classes.nameOf entry.owner, entry.handle.name⟩)
    (h : stepInvocation E m id i frame entry.delivered (w.takeFrame m id entry frame) =
      (.error interrupt, w₁)) : runFrame E m id entry frame w = (.error interrupt, w₁) := by
  subst hi
  rw [runFrame_apply, bind_of_error h]

theorem runFrame_of_ok {i : Invocation} {body : FrameBody} {step : Except EvalError Step} {unused : List Ref}
    (hi : i = ⟨w.classes.nameOf entry.owner, entry.handle.name⟩)
    (h : stepInvocation E m id i frame entry.delivered (w.takeFrame m id entry frame) =
      (.ok (body, step, unused), w₁)) :
    runFrame E m id entry frame w =
      (.ok (), ((w₁.enter w.context w.current).returnFrame m id
        { frame with context := w₁.context, body, updateCount := frame.updateCount + 1 } step).release
          (unused.map .object)) := by
  subst hi
  rw [runFrame_apply, bind_of_ok h]
  rfl

theorem resumeFrame_of_stored (he : w.entryAt m id = some entry) (hu : w.isFinished entry.handle = false)
    (hframe : entry.frame = some frame) : resumeFrame E m id w = runFrame E m id entry frame w := by
  rw [resumeFrame, get_bind]
  simp only [he, hu, hframe, Bool.false_eq_true, if_false]

/-- Resuming a frame that cannot run changes nothing. -/
theorem resumeFrame_cases (m : MindId) (id : FrameId) (w : World) :
    (∀ E, resumeFrame E m id w = (.ok (), w)) ∨ ∃ entry frame, w.entryAt m id = some entry ∧
      w.isFinished entry.handle = false ∧ entry.frame = some frame := by
  simp only [resumeFrame, get_bind]
  cases he : w.entryAt m id with
  | none => exact .inl fun _ ↦ rfl
  | some entry =>
    dsimp only
    cases hu : w.isFinished entry.handle with
    | true => exact .inl fun _ ↦ rfl
    | false =>
      cases hframe : entry.frame with
      | none => exact .inl fun _ ↦ rfl
      | some frame => exact .inr ⟨entry, frame, rfl, hu, hframe⟩

end

/-! ### Settings -/

/-- What an action can rely on in the worlds that it runs in: the step under way, and how many Minds there
are at least. -/
structure Setting where
  current : Option (MindId × FrameId)
  minds : Nat
  /-- Whether the action may open scopes for others to close, and close those of others. -/
  scoping : Bool
  /-- The Mind whose update the action is part of. -/
  pumping : Option MindId

structure Setting.Holds (σ : Setting) (w : World) : Prop where
  current : w.current = σ.current
  minds : σ.minds ≤ w.minds.size
  rooted : w.Rooted

/-- Register a frame and leave its first step to the next update of its Mind. -/
def deferFrame (m : MindId) (name : String) (owner : ClassId) (parent : Option FrameId) (frame : Frame) :
    Machine Handle := do
  let handle ← registerFrame m name owner parent frame
  defer m handle.frame
  return handle

/-- The actions that all others are put together from. -/
inductive Basic (σ : Setting) : {α : Type} → Machine α → Prop where
  | retainLink (l : Link) : Basic σ (retainLink l)
  | releaseLinks (ls : List Link) : Basic σ (releaseLinks ls)
  | newValue (c : ClassId) (p : Payload) : Basic σ (newValue c p)
  | allocate (c : ClassId) (slots : List Ref) : Basic σ (allocate c slots)
  | disarm (r : Ref) : Basic σ (disarm r)
  | newScope : Basic σ (onHeap Environment.new)
  | chainedScope (s : ScopeId) : Basic σ (onHeap fun h ↦ Environment.chained h s)
  | pushScope (hσ : σ.scoping = true) : Basic σ pushScope
  | popScope (hσ : σ.scoping = true) : Basic σ popScope
  | truncateScopes (hσ : σ.scoping = true) (depth : Nat) : Basic σ (truncateScopes depth)
  | define (name : String) (value : Ref) : Basic σ (define name value)
  | store (name : String) (value : Ref) (place : Place) : Basic σ (store name value place)
  | setItems (r : Ref) (s : Sequence) : Basic σ (setItems r s)
  | modifyItems (r : Ref) (f : Sequence → Sequence) : Basic σ (modifyItems r f)
  | findMember (c : ClassId) (name : String) : Basic σ (findMember c name)
  | resolve (c : ClassId) (name : String) (qualifier : Option ClassId) :
      Basic σ (onClasses (Registry.resolve c name qualifier))
  | register (m : MindId) (name : String) (owner : ClassId) (parent : Option FrameId) (frame : Frame)
      (hm : m.index < σ.minds) (hparent : ∀ p, parent = some p → σ.current = some (m, p)) (hfresh : frame.Fresh) :
      Basic σ (registerFrame m name owner parent frame)
  | deferFrame (m : MindId) (name : String) (owner : ClassId) (parent : Option FrameId) (frame : Frame)
      (hm : m.index < σ.minds) (hparent : ∀ p, parent = some p → σ.current = some (m, p)) (hfresh : frame.Fresh) :
      Basic σ (deferFrame m name owner parent frame)
  | settleMind (m : MindId) : Basic σ (modify fun w ↦ w.settleMind m)
  | stop (h : Handle) : Basic σ (modify fun w ↦ w.stop h)
  | stopAll (m : MindId) : Basic σ (modify fun w ↦ w.stopAll m)
  | stopAllFor (r : Ref) : Basic σ (modify fun w ↦ w.stopAllFor r)
  | detachChildren (m : MindId) (id : FrameId) : Basic σ (modify fun w ↦ w.detachChildren m id)
  | notify (m : MindId) (event : String) (payload : Ref) :
      Basic σ (modifyGet fun w ↦ w.notify m event payload)
  | createMind (name : String) : Basic σ (modifyGet fun w ↦ w.createMind name)
  | setSuspended (m : MindId) (suspended : Bool) :
      Basic σ (modify fun w ↦ w.setSuspended m suspended)
  | setUpdateInterval (h : Handle) (seconds : Float) :
      Basic σ (modify fun w ↦ w.setUpdateInterval h seconds)
  | popReady {m : MindId} (hm : σ.pumping = some m) : Basic σ (popReady m)
  | popPending {m : MindId} (hm : σ.pumping = some m) : Basic σ (popPending m)
  | beginUpdate {m : MindId} (hm : σ.pumping = some m) (elapsed : Float) : Basic σ (beginUpdate m elapsed)
  | endUpdate {m : MindId} (hm : σ.pumping = some m) : Basic σ (endUpdate m)
  | takeDue : Basic σ (onHeap Heap.takeDue)
  | setDraining (draining : Bool) : Basic σ (setDraining draining)
  | writeDown (run : ProgramRun) (line : Line Reg) : Basic σ (writeDown run line)

/-- An update of a Mind that is neither suspended nor being updated. -/
def whenIdle (m : MindId) (f : Machine Nat) : Machine Nat := do
  match (← get).mind? m with
  | none => return 0
  | some mind => if mind.suspended || mind.updating then return 0 else f

/-- A loop may go fewer rounds over the first engine than over the second one only if its budget is another. -/
structure Spans (E E' : Engine) (n n' : Nat) : Prop where
  le : n ≤ n'
  same : E.budget = E'.budget → n = n'

namespace Spans

variable {E E' : Engine} {n n' : Nat}

theorem of_budget (h : E.budget ≤ E'.budget) : Spans E E' E.budget E'.budget := ⟨h, id⟩

theorem succ (h : Spans E E' (n + 1) n') : ∃ k, n' = k + 1 ∧ Spans E E' n k := by
  obtain ⟨k, rfl⟩ := Nat.exists_eq_succ_of_ne_zero (Nat.ne_zero_of_lt h.le)
  exact ⟨k, rfl, Nat.le_of_succ_le_succ h.le, fun hb ↦ Nat.succ.inj (h.same hb)⟩

end Spans

/-- Two actions that are put together in the same way, one over each engine.  With a smaller budget the first
may give up where the second goes on. -/
inductive Alike (E E' : Engine) : Setting → {α : Type} → Machine α → Machine α → Prop where
  | basic {σ : Setting} {α : Type} {a : Machine α} : Basic σ a → Alike E E' σ a a
  | pure {σ : Setting} {α : Type} (a : α) : Alike E E' σ (pure a) (pure a)
  | raise {σ : Setting} {α : Type} (e : EvalError) : Alike E E' σ (raise e : Machine α) (raise e)
  | exhausted {σ : Setting} {α : Type} (g : Machine α) : (E.budget = E'.budget → g = exhausted) →
      Alike E E' σ exhausted g
  | bind {σ : Setting} {α β : Type} {f g : Machine α} {F G : α → Machine β} :
      Alike E E' σ f g → (∀ a, Alike E E' σ (F a) (G a)) → Alike E E' σ (f >>= F) (g >>= G)
  /-- What is read off the world must not depend on counts. -/
  | read {σ : Setting} {α : Type} {F G : World → Machine α} :
      (∀ w, F w.bare = F w) → (∀ w, G w.bare = G w) →
      (∀ w, σ.Holds w → Alike E E' { σ with minds := w.minds.size } (F w) (G w)) →
      Alike E E' σ (get >>= F) (get >>= G)
  | attempt {σ : Setting} {α : Type} {f g : Machine α} :
      Alike E E' σ f g → Alike E E' σ (attempt f) (attempt g)
  | withContext {σ : Setting} {α : Type} {f g : Machine α} (c : Context) :
      Alike E E' σ f g → Alike E E' σ (withContext c f) (withContext c g)
  | withInvocation {σ : Setting} {α : Type} {f g : Machine α} (i : Invocation) (held : List Ref) :
      Alike E E' σ f g → Alike E E' σ (withInvocation i held f) (withInvocation i held g)
  | inScope {σ : Setting} {f g : Machine Ref} :
      Alike E E' σ f g → Alike E E' σ (inScope f) (inScope g)
  | rescue {σ : Setting} {f g : Machine Ref} {F G : EvalError → Machine Ref} (catches : EvalError → Bool) :
      Alike E E' σ f g → (∀ e, Alike E E' σ (F e) (G e)) →
      Alike E E' σ (rescue f catches F) (rescue g catches G)
  /-- An update sets off by advancing the clock and the tick. -/
  | whenIdle {σ : Setting} {f g : Machine Nat} (m : MindId) (elapsed : Float) :
      Alike E E' { σ with pumping := some m } f g →
      Alike E E' σ (whenIdle m (beginUpdate m elapsed >>= fun _ ↦ f)) (whenIdle m (beginUpdate m elapsed >>= fun _ ↦ g))
  | eval {σ : Setting} (id : ExprId) : Alike E E' σ (E.eval id) (E'.eval id)
  | invoke {σ : Setting} (this : Ref) (m : Member) (args : ArgValues) :
      Alike E E' σ (E.invoke this m args) (E'.invoke this m args)
  /-- A frame makes its first step right after it was registered. -/
  | spawn {σ : Setting} {α : Type} {F G : Handle → Machine α} (m : MindId) (name : String) (owner : ClassId)
      (parent : Option FrameId) (frame : Frame) :
      m.index < σ.minds → (∀ p, parent = some p → σ.current = some (m, p)) → frame.Fresh →
      (∀ h, Alike E E' σ (F h) (G h)) →
      Alike E E' σ (registerFrame m name owner parent frame >>= fun h ↦ E.resume m h.frame >>= fun _ ↦ F h)
        (registerFrame m name owner parent frame >>= fun h ↦ E'.resume m h.frame >>= fun _ ↦ G h)
  /-- In an update, a sleeping frame makes a step if what it waits for has happened. -/
  | resumeDue {σ : Setting} {α : Type} {F G F' G' : Machine α} {m : MindId} (id : FrameId) (isDue : World → Bool) :
      σ.pumping = some m → (∀ w, isDue w.bare = isDue w) → (∀ w, isDue w = true → w.isDue m id = true) →
      Alike E E' σ F G → Alike E E' σ F' G' →
      Alike E E' σ (get >>= fun w ↦ if isDue w then E.resume m id >>= fun _ ↦ F else F')
        (get >>= fun w ↦ if isDue w then E'.resume m id >>= fun _ ↦ G else G')
  /-- The first deferred frame makes its first step. -/
  | resumePending {σ : Setting} {α : Type} {F G F' G' : Machine α} {m : MindId} :
      σ.pumping = some m → Alike E E' σ F G → Alike E E' σ F' G' →
      Alike E E' σ (popPending m >>= fun
          | none => F
          | some id => E.resume m id >>= fun _ ↦ F')
        (popPending m >>= fun
          | none => G
          | some id => E'.resume m id >>= fun _ ↦ G')

namespace Alike

variable {E E' : Engine} {σ : Setting} {α β : Type} {f g : Machine α}

/-! ### Derived ways of going on -/

theorem map (F : α → β) (h : Alike E E' σ f g) : Alike E E' σ (F <$> f) (F <$> g) := by
  rw [← bind_pure_comp, ← bind_pure_comp]
  exact h.bind fun a ↦ .pure (F a)

theorem raiseKind (k : ErrorKind) : Alike E E' σ (raiseKind k : Machine α) (raiseKind k) :=
  .raise (.ofKind k)

theorem ofExcept (r : Except EvalError α) : Alike E E' σ (ofExcept r) (ofExcept r) := by
  cases r with
  | ok a => exact .pure a
  | error e => exact .raise e

theorem releaseLinks (ls : List Link) : Alike E E' σ (releaseLinks ls) (releaseLinks ls) :=
  .basic (.releaseLinks ls)

theorem releaseAll (rs : List Ref) : Alike E E' σ (releaseAll rs) (releaseAll rs) :=
  .releaseLinks _

theorem release (r : Ref) : Alike E E' σ (release r) (release r) :=
  .releaseLinks _

theorem retain (r : Ref) : Alike E E' σ (retain r) (retain r) :=
  .basic (.retainLink _)

theorem share (r : Ref) : Alike E E' σ (share r) (share r) :=
  (retain r).bind fun _ ↦ .pure r

end Alike

theorem elseRelease_eq {α : Type} (act : Machine α) (held : List Ref) :
    elseRelease act held = attempt act >>= fun
      | .ok a => pure a
      | .error e => releaseAll held >>= fun _ ↦ raise e := by
  funext w
  simp only [elseRelease, attempt, bind, ExceptT.bind, ExceptT.mk, StateT.bind, ExceptT.bindCont]
  rcases act w with ⟨_ | _, w'⟩
  · rename_i i
    cases i <;> rfl
  · rfl

theorem thenRelease_eq {α : Type} (act : Machine α) (held : List Ref) :
    thenRelease act held = attempt act >>= fun r ↦ releaseAll held >>= fun _ ↦ ofExcept r := by
  funext w
  simp only [thenRelease, attempt, bind, ExceptT.bind, ExceptT.mk, StateT.bind, ExceptT.bindCont]
  rcases act w with ⟨_ | _, w'⟩
  · rename_i i
    cases i <;> rfl
  · rfl

namespace Alike

variable {E E' : Engine} {σ : Setting} {α β : Type} {f g : Machine α}

theorem elseRelease (h : Alike E E' σ f g) (held : List Ref) :
    Alike E E' σ (elseRelease f held) (elseRelease g held) := by
  rw [elseRelease_eq, elseRelease_eq]
  refine h.attempt.bind fun r ↦ ?_
  cases r with
  | ok a => exact .pure a
  | error e => exact (releaseAll held).bind fun _ ↦ .raise e

theorem thenRelease (h : Alike E E' σ f g) (held : List Ref) :
    Alike E E' σ (thenRelease f held) (thenRelease g held) := by
  rw [thenRelease_eq, thenRelease_eq]
  exact h.attempt.bind fun r ↦ (releaseAll held).bind fun _ ↦ ofExcept r

end Alike

end Machine

end MindScript
