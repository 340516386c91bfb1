import MindScript.Proofs.Continuation.Nodes

/-!
# Scopes, loops and guards as tasks

A block, a loop and a guarded body leave a task behind that closes or handles what they opened.  While the
tasks above it run the scopes are other ones, so that what is enacted there is enacted in every environment;
when they fail, unwinding meets the task and does what the evaluator does with the error.
-/

namespace MindScript.Machine

/-! ### Actions that catch errors -/

section rescue

variable {act act' : Machine Ref} {catches : EvalError → Bool} {handler : EvalError → Machine Ref}
  {w w' w₀ : World}

theorem attempt_inScope {r : Except EvalError Ref} (h : attempt (inScope act) w = (.ok r, w')) :
    ∃ w₁, attempt act (pushScope w).2 = (.ok r, w₁) ∧ w' = (popScope w₁).2 := by
  rcases hact : act (pushScope w).2 with ⟨result, w₁⟩
  match result with
  | .ok v =>
    have hscope : inScope act w = (.ok v, (popScope w₁).2) :=
      bind_of_ok (f := attempt act) (attempt_of_ok hact)
    rw [attempt_of_ok hscope] at h
    cases h
    exact ⟨w₁, attempt_of_ok hact, rfl⟩
  | .error (.raised e) =>
    have hscope : inScope act w = (.error (.raised e), (popScope w₁).2) :=
      bind_of_ok (f := attempt act) (attempt_of_raised hact)
    rw [attempt_of_raised hscope] at h
    cases h
    exact ⟨w₁, attempt_of_raised hact, rfl⟩
  | .error .exhausted =>
    have hscope : inScope act w = (.error .exhausted, w₁) :=
      bind_of_error (f := attempt act) (attempt_of_exhausted hact)
    rw [attempt_of_exhausted hscope] at h
    cases h

theorem rescue_of_ok {v : Ref} (h : act w = (.ok v, w₀)) : rescue act catches handler w = (.ok v, w₀) :=
  bind_of_ok (f := attempt act) (attempt_of_ok h)

theorem rescue_of_raised {e : EvalError} (h : act w = (.error (.raised e), w₀)) :
    rescue act catches handler w = if catches e then handler e (truncateScopes w.context.env.depth w₀).2
      else (.error (.raised e), w₀) := by
  refine (bind_of_ok (f := attempt act) (attempt_of_raised h)).trans ?_
  dsimp only
  split <;> rfl

theorem rescue_of_exhausted (h : act w = (.error .exhausted, w₀)) :
    rescue act catches handler w = (.error .exhausted, w₀) :=
  bind_of_error (f := attempt act) (attempt_of_exhausted h)

/-- Catching looks at the action's end and at the scopes it started in. -/
theorem rescue_congr (h : act w = act' w') (hcontext : w.context = w'.context) :
    rescue act catches handler w = rescue act' catches handler w' := by
  rw [rescue, rescue, get_bind, get_bind, hcontext]
  exact bind_of_eq (attempt_of_eq h)

end rescue

theorem cutValues_pushAll (rest : List Task) (values : Stack Ref) (extra : List Ref) :
    cutValues ⟨rest, values.pushAll extra⟩ values.height = releaseAll extra >>= fun _ ↦ pure ⟨rest, values⟩ := by
  have hextra : values.height + extra.length - values.height = extra.length := by omega
  simp only [cutValues, Continuation.height, Stack.height_pushAll, hextra, Stack.topmost_pushAll,
    Stack.drop_pushAll]

/-! ### Tasks that stay behind -/

section unwind

variable (E : Engine) (arena : Arena) (i : Nat) (rest : List Task) (values : Stack Ref)

/-- The next round: the value of the last one is given up. -/
theorem proceed_loop (body : ExprId) (depth : Nat) (v : Ref) (w : World) :
    proceed E arena (i + 1) (⟨.loop body depth values.height :: rest, values.pushAll [v]⟩, .running) w =
      proceed E arena i (⟨.eval body :: .loop body depth values.height :: rest, values⟩, .running)
        (w.release [.object v]) := by
  show (runTask E arena ⟨rest, values.pushAll [v]⟩ (.loop body depth values.height) >>= proceed E arena i) w = _
  rw [runTask, cutValues_pushAll]
  rfl

/-- A loop exit ends the innermost loop: everything above its task is given up. -/
theorem recover_loop_exit {e : EvalError} {value : Ref} (he : e.exit = some value) (body : ExprId) (depth : Nat)
    (extra : List Ref) (w : World) :
    recover E arena i ⟨.loop body depth values.height :: rest, values.pushAll extra⟩ e w =
      proceed E arena i (⟨rest, values.push value⟩, .running)
        ((truncateScopes depth w).2.release (extra.map .object)) := by
  simp only [recover, unwind, he, cutValues_pushAll]
  rfl

theorem recover_loop_failure {e : EvalError} (he : e.exit = none) (body : ExprId) (depth height : Nat)
    (vs : Stack Ref) (w : World) :
    recover E arena i ⟨.loop body depth height :: rest, vs⟩ e w = recover E arena i ⟨rest, vs⟩ e w := by
  simp only [recover, unwind, he]

theorem recover_guarded_exit {e : EvalError} (he : e.isLoopExit = true) (errorName : String) (handler : ExprId)
    (depth height : Nat) (vs : Stack Ref) (w : World) :
    recover E arena i ⟨.guarded errorName handler depth height :: rest, vs⟩ e w =
      recover E arena i ⟨rest, vs⟩ e w := by
  simp only [recover, unwind, he, if_true]

/-- The handler starts in a scope of its own, where the message is bound. -/
def handling (errorName : String) (handler : ExprId) (e : EvalError) : Start := fun _ rest values ↦
  string e.message >>= fun message ↦ define errorName message >>= fun _ ↦
    pure (⟨.eval handler :: rest, values⟩, .running)

theorem recover_guarded_failure {e : EvalError} (he : e.isLoopExit = false) (errorName : String) (handler : ExprId)
    (depth : Nat) (extra : List Ref) (w : World) :
    recover E arena i ⟨.guarded errorName handler depth values.height :: rest, values.pushAll extra⟩ e w =
      ((pushScope >>= fun _ ↦ handling errorName handler e E (.popScope :: rest) values) >>= proceed E arena i)
        ((truncateScopes depth w).2.release (extra.map .object)) := by
  simp only [recover, unwind, he, cutValues_pushAll]
  rfl

end unwind

namespace At

variable {c : Context} {w : World}

theorem pushScope (hw : At c w) : At { c with env := (c.env.push w.heap).1 } (Machine.pushScope w).2 := by
  refine ⟨?_, ⟨hw.rooted.1, hw.rooted.2⟩, (Refines.same_pushScope (.refl hw.inert)).inert⟩
  show { w.context with env := (w.context.env.push w.heap).1 } = _
  rw [hw.context]

theorem popScope {h : Heap} (hw : At { c with env := (c.env.push h).1 } w) :
    At c (Machine.popScope w).2 := by
  refine ⟨?_, ⟨hw.rooted.1, hw.rooted.2⟩, (Refines.same_popScope (.refl hw.inert)).inert⟩
  show { w.context with env := (w.context.env.pop w.heap).1 } = c
  rw [hw.context]
  exact congrArg (fun env ↦ { c with env }) (Environment.pop_push c.env h w.heap)

/-- Closing the scopes opened since closes none where all are as they were. -/
theorem same_truncateScopes (hw : At c w) : w.Same (truncateScopes c.env.depth w).2 := by
  obtain rfl := hw.context
  have hextra : w.context.env.depth - max w.context.env.depth 1 = 0 := by omega
  have hscopes : (truncateScopes w.context.env.depth w).2 = w.release [] := by
    show ({ w with
        heap := (w.context.env.truncate w.heap w.context.env.depth).2
        context := { w.context with env := (w.context.env.truncate w.heap w.context.env.depth).1 } } : World) = _
    simp only [Environment.truncate, hextra]
    rfl
  rw [hscopes]
  exact .release_right (.refl hw.inert) []

end At

namespace Enacts

variable {n : Nat} {c : Context} {start : Start} {f : Machine Ref}

/-- What runs in a scope of its own. -/
theorem inScope (h : ∀ env, Enacts n { c with env } start f single) :
    Enacts n c (fun E rest values ↦ pushScope >>= fun _ ↦ start E (.popScope :: rest) values) (Machine.inScope f)
      single := by
  intro w r w' hw hrun
  obtain ⟨w₁, hf, rfl⟩ := attempt_inScope hrun
  obtain ⟨hw₁, j, hj⟩ := h _ hw.pushScope hf
  refine ⟨hw₁.popScope, ?_⟩
  cases r with
  | ok a =>
    refine ⟨j + 1, fun m hm v hs rest values ↦ ?_⟩
    obtain ⟨_, v₁, rfl, hs₁, hrun₁⟩ := hj m hm _ (Refines.same_pushScope hs) (.popScope :: rest) values
    refine ⟨_, (popScope v₁).2, rfl, Refines.same_popScope hs₁, fun i ↦ ?_⟩
    rw [← Nat.add_assoc, Nat.add_right_comm]
    exact hrun₁ (i + 1)
  | error e =>
    refine ⟨j, fun m hm v hs rest values ↦ ?_⟩
    obtain ⟨_, v₁, ⟨extra, rfl⟩, hs₁, hrun₁⟩ := hj m hm _ (Refines.same_pushScope hs) (.popScope :: rest) values
    exact ⟨_, (popScope v₁).2, ⟨extra, rfl⟩, Refines.same_popScope hs₁, fun i ↦ hrun₁ i⟩

/-- What a loop comes to with the error that ends its rounds. -/
def exitValue (e : EvalError) : Machine Ref :=
  match e.exit with
  | some value => Pure.pure value
  | none => Machine.raise e

/-- Rounds of a loop, with its task below. -/
theorem rounds {S : Engine} {body : ExprId} (h : Enacts n c (doing [] [.eval body]) (S.eval body) single) (k : Nat) :
    Enacts n c (fun _ rest values ↦
        Pure.pure (⟨.eval body :: .loop body c.env.depth values.height :: rest, values⟩, .running))
      (rescue (evalRounds S body k) (fun _ ↦ true) exitValue) single := by
  induction k with
  | zero =>
    intro w r w' _ hrun
    have hzero : evalRounds S body 0 w = (.error .exhausted, w) := rfl
    rw [attempt_of_exhausted (rescue_of_exhausted hzero)] at hrun
    cases hrun
  | succ k ih =>
    intro w r w' hw hrun
    rcases hbody : S.eval body w with ⟨result, w₀⟩
    match result with
    | .ok v =>
      -- The value of a round is given up, and the next round starts where this one did.
      obtain ⟨hw₀, j, hj⟩ := h hw (attempt_of_ok hbody)
      have hw₁ : At c (w₀.release [.object v]) := hw₀.same (.release_right (.refl hw₀.inert) _)
      have hround : evalRounds S body (k + 1) w = evalRounds S body k (w₀.release [.object v]) :=
        bind_of_ok hbody
      have hnext : rescue (evalRounds S body (k + 1)) (fun _ ↦ true) exitValue w =
          rescue (evalRounds S body k) (fun _ ↦ true) exitValue (w₀.release [.object v]) :=
        rescue_congr hround (hw.context.trans hw₁.context.symm)
      simp only [attempt, hnext] at hrun
      obtain ⟨hw', j', hj'⟩ := ih hw₁ hrun
      refine ⟨hw', j' + (1 + j), fun m hm v₁ hs rest values ↦ ?_⟩
      obtain ⟨_, v₂, rfl, hs₂, hfirst⟩ := hj m hm v₁ hs (.loop body c.env.depth values.height :: rest) values
      obtain ⟨s, v₃, hends, hs₃, hsecond⟩ := hj' m hm _ (hs₂.release [.object v] [.object v]) rest values
      refine ⟨s, v₃, hends, hs₃, fun i ↦ ?_⟩
      rw [← hsecond i, show i + (j' + (1 + j)) = i + j' + 1 + j by omega]
      exact (hfirst (i + j' + 1)).trans (proceed_loop _ _ _ _ _ _ _ _ _)
    | .error (.raised e) =>
      obtain ⟨hw₀, j, hj⟩ := h hw (attempt_of_raised hbody)
      have hround : evalRounds S body (k + 1) w = (.error (.raised e), w₀) := bind_of_error hbody
      have hcut := hw₀.same_truncateScopes
      simp only [attempt, rescue_of_raised hround, if_true, hw.context] at hrun
      cases hexit : e.exit with
      | some value =>
        simp only [exitValue, hexit] at hrun
        cases hrun
        refine ⟨hw₀.same hcut, j, fun m hm v₁ hs rest values ↦ ?_⟩
        obtain ⟨_, v₂, ⟨extra, rfl⟩, hs₂, hfirst⟩ := hj m hm v₁ hs (.loop body c.env.depth values.height :: rest) values
        refine ⟨_, _, rfl, (Refines.same_truncateScopes hs₂ c.env.depth).release_right (extra.map .object),
          fun i ↦ ?_⟩
        exact (hfirst i).trans (recover_loop_exit _ _ _ _ _ hexit _ _ _ _)
      | none =>
        simp only [exitValue, hexit] at hrun
        cases hrun
        refine ⟨hw₀.same hcut, j, fun m hm v₁ hs rest values ↦ ?_⟩
        obtain ⟨_, v₂, ⟨extra, rfl⟩, hs₂, hfirst⟩ := hj m hm v₁ hs (.loop body c.env.depth values.height :: rest) values
        refine ⟨_, v₂, ⟨extra, rfl⟩, hcut.symm.trans hs₂, fun i ↦ ?_⟩
        exact (hfirst i).trans (recover_loop_failure _ _ _ _ hexit _ _ _ _ _)
    | .error .exhausted =>
      have hround : evalRounds S body (k + 1) w = (.error .exhausted, w₀) := bind_of_error hbody
      rw [attempt_of_exhausted (rescue_of_exhausted hround)] at hrun
      cases hrun

/-- A guarded body with its task below. -/
theorem guarded {S : Engine} (h : ∀ env, Enacted n S { c with env })
    (body : ExprId) (errorName : String) (handler : ExprId) :
    Enacts n c (fun _ rest values ↦
        Pure.pure (⟨.eval body :: .guarded errorName handler c.env.depth values.height :: rest, values⟩, .running))
      (evalGuarded S body errorName handler) single := by
  intro w r w' hw hrun
  rcases hbody : S.eval body w with ⟨result, w₀⟩
  match result with
  | .ok v =>
    obtain ⟨hw₀, j, hj⟩ := (h c.env).eval body hw (attempt_of_ok hbody)
    rw [evalGuarded, attempt_of_ok (rescue_of_ok hbody)] at hrun
    cases hrun
    refine ⟨hw₀, j + 1, fun m hm v₁ hs rest values ↦ ?_⟩
    obtain ⟨_, v₂, rfl, hs₂, hfirst⟩ :=
      hj m hm v₁ hs (.guarded errorName handler c.env.depth values.height :: rest) values
    refine ⟨_, v₂, rfl, hs₂, fun i ↦ ?_⟩
    rw [← Nat.add_assoc, Nat.add_right_comm]
    exact hfirst (i + 1)
  | .error (.raised e) =>
    obtain ⟨hw₀, j, hj⟩ := (h c.env).eval body hw (attempt_of_raised hbody)
    cases hexit : e.isLoopExit with
    | true =>
      simp only [evalGuarded, attempt, rescue_of_raised hbody, hexit] at hrun
      cases hrun
      refine ⟨hw₀, j, fun m hm v₁ hs rest values ↦ ?_⟩
      obtain ⟨_, v₂, ⟨extra, rfl⟩, hs₂, hfirst⟩ :=
        hj m hm v₁ hs (.guarded errorName handler c.env.depth values.height :: rest) values
      refine ⟨_, v₂, ⟨extra, rfl⟩, hs₂, fun i ↦ ?_⟩
      exact (hfirst i).trans (recover_guarded_exit _ _ _ _ hexit _ _ _ _ _ _)
    | false =>
      have hcut := hw₀.same_truncateScopes
      have hhandler : Enacts n c (fun E rest values ↦ pushScope >>= fun _ ↦
          handling errorName handler e E (.popScope :: rest) values)
          (Machine.inScope (string e.message >>= fun message ↦ define errorName message >>= fun _ ↦ S.eval handler))
          single := by
        refine .inScope fun env ↦ ?_
        have hin := h env
        refine .calmly (g := fun _ ↦ string e.message) (fun _ _ h ↦ by cases h)
          (hin.alike fun _ _ _ ↦ .string e.message) fun message ↦ ?_
        exact .calmly (g := fun _ ↦ define errorName message) (Calm.modify _)
          (hin.alike fun _ _ _ ↦ .basic (.define errorName message)) fun _ ↦ hin.eval handler
      simp only [evalGuarded, attempt, rescue_of_raised hbody, hexit, hw.context] at hrun
      obtain ⟨hw', j', hj'⟩ := hhandler (hw₀.same hcut) hrun
      refine ⟨hw', j' + j, fun m hm v₁ hs rest values ↦ ?_⟩
      obtain ⟨_, v₂, ⟨extra, rfl⟩, hs₂, hfirst⟩ :=
        hj m hm v₁ hs (.guarded errorName handler c.env.depth values.height :: rest) values
      obtain ⟨s, v₃, hends, hs₃, hsecond⟩ :=
        hj' m hm _ ((Refines.same_truncateScopes hs₂ c.env.depth).release_right (extra.map .object)) rest values
      refine ⟨s, v₃, hends, hs₃, fun i ↦ ?_⟩
      rw [← hsecond i, ← Nat.add_assoc]
      exact (hfirst (i + j')).trans (recover_guarded_failure _ _ _ _ _ hexit _ _ _ _ _)
  | .error .exhausted =>
    rw [evalGuarded, attempt_of_exhausted (rescue_of_exhausted hbody)] at hrun
    cases hrun

end Enacts

/-! ### Blocks -/

namespace Enacted

variable {n : Nat} {S : Engine} {c : Context}

theorem isPlain_blockTasks (items : List ExprId) : (blockTasks items).all Task.IsPlain := by
  induction items with
  | nil => rfl
  | cons e rest ih =>
    cases rest with
    | nil => rfl
    | cons e' rest => simpa [blockTasks, Task.IsPlain] using ih

/-- A value that is given up before the other tasks. -/
theorem discard {tasks : List Task} {f : Machine Ref} (h : Enacts n c (doing [] tasks) f single) (v : Ref) :
    Enacts n c (doing [v] (.discard :: tasks)) f single := by
  intro w r w' hw hrun
  obtain ⟨hw', j, hj⟩ := h hw hrun
  refine ⟨hw', j + 1, fun m hm w₁ hs rest values ↦ ?_⟩
  obtain ⟨s, w₂, hends, hs₂, hrest⟩ := hj m hm _ (hs.release_right [.object v]) rest values
  exact ⟨s, w₂, hends, hs₂, hrest⟩

/-- The expressions of a block.  The evaluator gives the value of one up when it has that of the next. -/
theorem sequence (h : Enacted n S c) (last : Ref) (e : ExprId) (rest : List ExprId) :
    Enacts n c (doing [] (blockTasks (e :: rest))) (evalSequence S last (e :: rest)) single := by
  induction rest generalizing last e with
  | nil =>
    refine Enacts.cons rfl (h.operand [] e [last]) fun v ↦ .release_bind ?_ [.object last]
    exact .pure (p := single) v
  | cons e' rest ih =>
    show Enacts n c (doing [] (.eval e :: .discard :: blockTasks (e' :: rest))) _ single
    refine Enacts.cons ?_ (h.operand [] e [last]) fun v ↦ .release_bind (discard (ih v e') v) [.object last]
    exact isPlain_blockTasks (e' :: rest)

theorem block (h : ∀ env, Enacted n S { c with env }) (items : List ExprId) :
    Enacts n c (fun _ rest values ↦
        if items.isEmpty then nil >>= fun v ↦ pure (⟨rest, values.push v⟩, .running)
        else pushScope >>= fun _ ↦ pure (⟨blockTasks items ++ .popScope :: rest, values⟩, .running))
      (evalBlock S items) single := by
  cases items with
  | nil => exact (h c.env).pushNil
  | cons e rest =>
    exact .inScope fun env ↦ .share_bind (F := fun last ↦ evalSequence S last (e :: rest))
      ((h env).sequence .nil e rest)

end Enacted

end MindScript.Machine
