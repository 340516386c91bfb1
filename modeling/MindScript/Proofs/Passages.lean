import MindScript.Proofs.Scheduler.Runs

/-!
# What an action passes on its way

An action changes the world one basic action at a time.  The worlds that it passes are those between two of
them, inside of members, closures and steps and at every depth.  It also passes the moments at which a frame
is about to be resumed.  What holds of all of these is shown once, by induction on the way that the action
has taken.
-/

namespace MindScript.Machine

/-- The parts that actions over the engine of a budget are put together from. -/
abbrev Piece (n : Nat) (σ : Setting) {α : Type} (f : Machine α) : Prop := Alike (.ofBudget n) (.ofBudget n) σ f f

/-- An action over the engine of a budget begins in the first world and passes the second one; a frame is
about to be resumed there if one is named. -/
inductive Passes :
    Nat → Setting → {α : Type} → Machine α → World → Option FrameKey → World → Prop where
  | here {n : Nat} {σ : Setting} {α : Type} (f : Machine α) (w : World) : Passes n σ f w none w
  | after {n : Nat} {σ : Setting} {α : Type} {f : Machine α} {w : World} : Piece n σ f →
      (f w).1 ≠ .error .exhausted → Passes n σ f w none (f w).2
  | first {n : Nat} {σ : Setting} {α β : Type} {f : Machine α} {F : α → Machine β} {w v : World}
      {k : Option FrameKey} : Passes n σ f w k v → Passes n σ (f >>= F) w k v
  | next {n : Nat} {σ : Setting} {α β : Type} {f : Machine α} {F : α → Machine β} {w w' v : World} {a : α}
      {k : Option FrameKey} : Piece n σ f → f w = (.ok a, w') → Passes n σ (F a) w' k v →
      Passes n σ (f >>= F) w k v
  | read {n : Nat} {σ : Setting} {α : Type} {F : World → Machine α} {w v : World} {k : Option FrameKey} :
      Passes n { σ with minds := w.minds.size } (F w) w k v → Passes n σ (get >>= F) w k v
  | attempt {n : Nat} {σ : Setting} {α : Type} {f : Machine α} {w v : World} {k : Option FrameKey} :
      Passes n σ f w k v → Passes n σ (attempt f) w k v
  | withContext {n : Nat} {σ : Setting} {α : Type} {f : Machine α} {w v : World} {k : Option FrameKey}
      (context : Context) : Passes n σ f { w with context } k v → Passes n σ (withContext context f) w k v
  | withInvocation {n : Nat} {σ : Setting} {α : Type} {f : Machine α} {w v : World} {k : Option FrameKey}
      {i : Invocation} {callStack : CallStack} (held : List Ref) : w.callStack.push i = .ok callStack →
      Passes n σ f { w with callStack } k v → Passes n σ (withInvocation i held f) w k v
  | inScope {n : Nat} {σ : Setting} {f : Machine Ref} {w v : World} {k : Option FrameKey} :
      Passes n σ f (pushScope w).2 k v → Passes n σ (inScope f) w k v
  | guarded {n : Nat} {σ : Setting} {f : Machine Ref} {w v : World} {k : Option FrameKey}
      (catches : EvalError → Bool) (F : EvalError → Machine Ref) :
      Passes n σ f w k v → Passes n σ (rescue f catches F) w k v
  | handled {n : Nat} {σ : Setting} {f : Machine Ref} {F : EvalError → Machine Ref} {w w' v : World} {e : EvalError}
      {k : Option FrameKey} (catches : EvalError → Bool) : Piece n σ f →
      f w = (.error (.raised e), w') → Passes n σ (F e) (truncateScopes w.context.env.depth w').2 k v →
      Passes n σ (rescue f catches F) w k v
  | whenIdle {n : Nat} {σ : Setting} {f : Machine Nat} {w v : World} {k : Option FrameKey} {m : MindId}
      {mind : Mind} : w.mind? m = some mind → (mind.suspended || mind.updating) = false →
      Passes n { σ with pumping := some m } f w k v → Passes n σ (whenIdle m f) w k v
  | eval {n : Nat} {σ : Setting} {w v : World} {k : Option FrameKey} (id : ExprId) :
      Passes n σ (evalNode (.ofBudget n) id) w k v → Passes (n + 1) σ ((Engine.ofBudget (n + 1)).eval id) w k v
  | invoke {n : Nat} {σ : Setting} {w v : World} {k : Option FrameKey} (this : Ref) (m : Member)
      (args : ArgValues) : Passes n σ (invokeMember (.ofBudget n) this m args) w k v →
      Passes (n + 1) σ ((Engine.ofBudget (n + 1)).invoke this m args) w k v
  | step {n : Nat} {σ : Setting} {w v : World} {k : Option FrameKey} {m : MindId} {id : FrameId}
      {entry : FrameEntry} {frame : Frame} {i : Invocation} {callStack : CallStack} :
      w.entryAt m id = some entry → w.isFinished entry.handle = false → entry.frame = some frame →
      w.callStack.push i = .ok callStack →
      Passes n { σ with current := some (m, id), scoping := true, pumping := none }
        (stepBody (.ofBudget n) m id frame entry.delivered) { w.takeFrame m id entry frame with callStack } k v →
      Passes (n + 1) σ ((Engine.ofBudget (n + 1)).resume m id) w k v
  /-- A frame that was registered is about to make its first step. -/
  | spawns {n : Nat} {σ : Setting} {α : Type} {F : Handle → Machine α} {w w' : World} {h : Handle} (m : MindId)
      (name : String) (owner : ClassId) (parent : Option FrameId) (frame : Frame) : m.index < σ.minds →
      (∀ p, parent = some p → σ.current = some (m, p)) → frame.Fresh → registerFrame m name owner parent frame w = (.ok h, w') →
      Passes n σ (registerFrame m name owner parent frame >>= fun h ↦
        (Engine.ofBudget n).resume m h.frame >>= fun _ ↦ F h) w (some (m, h.frame)) w'
  /-- A sleeping frame is about to be resumed. -/
  | wakes {n : Nat} {σ : Setting} {α : Type} {F F' : Machine α} {w : World} {m : MindId} (id : FrameId)
      (isDue : World → Bool) : σ.pumping = some m → (∀ w, isDue w = true → w.isDue m id = true) → isDue w = true →
      Passes n σ (get >>= fun w ↦ if isDue w then (Engine.ofBudget n).resume m id >>= fun _ ↦ F else F') w
        (some (m, id)) w
  /-- A deferred frame is about to make its first step. -/
  | starts {n : Nat} {σ : Setting} {α : Type} {F F' : Machine α} {w w' : World} {m : MindId} {id : FrameId} :
      σ.pumping = some m → popPending m w = (.ok (some id), w') →
      Passes n σ (popPending m >>= fun
          | none => F
          | some id => (Engine.ofBudget n).resume m id >>= fun _ ↦ F') w (some (m, id)) w'

/-- What holds of all that an action passes, as far as each way of going on is concerned. -/
structure Passing (P : Setting → World → Option FrameKey → World → Prop) : Prop where
  here : ∀ σ w, P σ w none w
  next : ∀ {n σ k} {α : Type} {f : Machine α} {w v : World}, Piece n σ f → (f w).1 ≠ .error .exhausted →
    P σ (f w).2 k v → P σ w k v
  read : ∀ {σ k w v}, P { σ with minds := w.minds.size } w k v → P σ w k v
  /-- Scopes can be opened and closed in any setting. -/
  basic : ∀ {σ k} {α : Type} {f : Machine α} {w v : World} {scoping : Bool}, Basic { σ with scoping } f →
    P σ (f w).2 k v → P σ w k v
  setContext : ∀ {σ k} {w v : World} {context : Context}, P σ { w with context } k v → P σ w k v
  push : ∀ {σ k} {w v : World} {i : Invocation} {callStack : CallStack}, w.callStack.push i = .ok callStack →
    P σ { w with callStack } k v → P σ w k v
  whenIdle : ∀ {σ k} {w v : World} {m : MindId}, w.isUpdating m = false → P { σ with pumping := some m } w k v →
    P σ w k v
  take : ∀ {σ k} {w v : World} {m : MindId} {id : FrameId} {entry : FrameEntry} {frame : Frame},
    w.entryAt m id = some entry → w.isFinished entry.handle = false → entry.frame = some frame →
    P { σ with current := some (m, id), scoping := true, pumping := none } (w.takeFrame m id entry frame) k v → P σ w k v
  spawns : ∀ {σ} {w : World} (m : MindId) (name : String) (owner : ClassId) (parent : Option FrameId) (frame : Frame),
    m.index < σ.minds → (∀ p, parent = some p → σ.current = some (m, p)) → frame.Fresh →
    P σ w (some (m, (w.register m name owner parent frame).1.frame)) (w.register m name owner parent frame).2
  wakes : ∀ {σ} {w : World} {m : MindId} {id : FrameId}, σ.pumping = some m → w.isDue m id = true →
    P σ w (some (m, id)) w
  starts : ∀ {σ} {w w' : World} {m : MindId} {id : FrameId}, σ.pumping = some m →
    popPending m w = (.ok (some id), w') → P σ w (some (m, id)) w'

theorem Passes.satisfies {P : Setting → World → Option FrameKey → World → Prop} (hP : Passing P) {n : Nat}
    {σ : Setting} {α : Type} {f : Machine α} {w v : World} {k : Option FrameKey} (h : Passes n σ f w k v) :
    P σ w k v := by
  induction h with
  | here f w => exact hP.here _ w
  | after hf hne => exact hP.next hf hne (hP.here _ _)
  | first _ ih => exact ih
  | next hf hrun _ ih => exact hP.next hf (by simp [hrun]) (by rwa [hrun])
  | read _ ih => exact hP.read ih
  | attempt _ ih => exact ih
  | withContext c _ ih => exact hP.setContext ih
  | withInvocation held hpush _ ih => exact hP.push hpush ih
  | inScope _ ih => exact hP.basic (.pushScope rfl) ih
  | guarded catches F _ ih => exact ih
  | handled catches hf hrun _ ih =>
    exact hP.next hf (by simp [hrun]) (by rw [hrun]; exact hP.basic (.truncateScopes rfl _) ih)
  | whenIdle hmind hidle _ ih =>
    refine hP.whenIdle ?_ ih
    rw [World.isUpdating, hmind]
    exact (Bool.or_eq_false_iff.mp hidle).2
  | eval id _ ih => exact ih
  | invoke this m args _ ih => exact ih
  | step he hu hframe hpush _ ih => exact hP.take he hu hframe (hP.push hpush ih)
  | spawns m name owner parent frame hm hparent hfresh hrun =>
    cases hrun
    exact hP.spawns m name owner parent frame hm hparent hfresh
  | wakes id isDue hm hdue h => exact hP.wakes hm (hdue _ h)
  | starts hm hrun => exact hP.starts hm hrun

end MindScript.Machine
