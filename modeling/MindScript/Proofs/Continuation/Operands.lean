import MindScript.Proofs.Continuation.Unwinding

/-!
# Tasks on top of others

A task that finds its operands on the stack comes to the same whatever lies below them: the tasks and values below are
neither looked at nor changed.  Only the heights that handlers note down are counted from the bottom of the whole stack, so that
they are raised where a continuation is put on top of others.
-/

namespace MindScript

open Machine

/-! ### Continuations on top of others -/

namespace Stack

variable {α : Type} {s : Stack α} {n : ℕ}

/-- The stack with another one below it. -/
def onTop (s below : Stack α) : Stack α :=
  ⟨s.items ++ below.items, below.height + s.height, by simp [s.height_eq, below.height_eq, Nat.add_comm]⟩

theorem exists_push (h : 0 < s.height) : ∃ t a, s = push t a := by
  obtain ⟨items, height, rfl⟩ := s
  cases items with
  | nil => exact absurd h (Nat.lt_irrefl 0)
  | cons a rest => exact ⟨ofList rest, a, rfl⟩

theorem drop_onTop (h : n ≤ s.height) (below : Stack α) : (s.onTop below).drop n = (s.drop n).onTop below :=
  ext_items (List.drop_append_of_le_length (s.height_eq ▸ h))

theorem topmost_onTop (h : n ≤ s.height) (below : Stack α) : (s.onTop below).topmost n = s.topmost n :=
  congrArg List.reverse (List.take_append_of_le_length (s.height_eq ▸ h))

end Stack

namespace Task

/-- The task, put on top of so many values. -/
def raise (n : ℕ) : Task → Task
  | .loop body depth height => .loop body depth (n + height)
  | .guarded errorName handler depth height => .guarded errorName handler depth (n + height)
  | t => t

/-- The values that the task takes off the stack. -/
def operands (a : Arena) : Task → ℕ
  | .eval _ | .await _ | .popScope | .guarded _ _ _ _ => 0
  | .apply op => op.operands a
  | .discard | .shortCircuit _ _ | .checkBool | .cond _ _ _ | .loop _ _ _ => 1

@[simp] theorem catches_raise (e : EvalError) (n : ℕ) (t : Task) : (t.raise n).catches e = t.catches e := by
  cases t <;> rfl

end Task

namespace Continuation

variable {k : Continuation} {outer : List Task} {below : Stack Ref}

/-- The continuation on top of other tasks and values. -/
def onTop (k : Continuation) (outer : List Task) (below : Stack Ref) : Continuation :=
  ⟨k.tasks.map (Task.raise below.height) ++ outer, k.values.onTop below⟩

theorem todo_onTop {tasks : List Task} (h : tasks.map (Task.raise below.height) = tasks) :
    (k.onTop outer below).todo tasks = (k.todo tasks).onTop outer below := by
  simp only [todo, onTop, List.map_append, h, List.append_assoc]

end Continuation

namespace Machine

variable {outer : List Task} {below : Stack Ref}

/-- The second action does what the first one does, on top of other tasks and values. -/
def Lifts (outer : List Task) (below : Stack Ref) (f g : Machine (Continuation × Progress)) : Prop :=
  g = (fun s ↦ (s.1.onTop outer below, s.2)) <$> f

namespace Lifts

theorem pure (k : Continuation) (p : Progress) : Lifts outer below (pure (k, p)) (pure (k.onTop outer below, p)) := rfl

theorem bind {α : Type} {f : Machine α} {F G : α → Machine (Continuation × Progress)} (h : ∀ a, Lifts outer below (F a) (G a)) :
    Lifts outer below (f >>= F) (f >>= G) := by
  obtain rfl := funext h
  exact (map_bind _ _ _).symm

theorem andThen {f g : Machine (Continuation × Progress)} (h : Lifts outer below f g) (x : Machine PUnit) :
    Lifts outer below (f >>= fun s ↦ x >>= fun _ ↦ Pure.pure s) (g >>= fun s ↦ x >>= fun _ ↦ Pure.pure s) := by
  rw [h, bind_map_left]
  exact .bind fun s ↦ .bind fun _ ↦ .pure s.1 s.2

variable {E : Engine} {a : Arena} {k : Continuation}

/-- What an action on top of others comes to, it comes to by itself. -/
theorem exists_of_ok {f g : Machine (Continuation × Progress)} {w w' : World} {k' : Continuation} {p : Progress}
    (h : Lifts outer below f g) (hrun : g w = (.ok (k', p), w')) : ∃ k, f w = (.ok (k, p), w') ∧ k' = k.onTop outer below := by
  rw [h, map_eq_pure_bind] at hrun
  obtain ⟨⟨k, p⟩, w₁, hf, hrun⟩ := exists_of_bind_eq_ok hrun
  cases hrun
  exact ⟨k, hf, rfl⟩

/-! ### How tasks end -/

theorem yieldValue (f : Machine Ref) : Lifts outer below (yieldValue k f) (yieldValue (k.onTop outer below) f) :=
  .bind fun r ↦ by
    cases r with
    | ok value => exact .pure (k.push value) _
    | error e => exact .pure k _

theorem awaitFrame (h : Handle) : Lifts outer below (awaitFrame k h) (awaitFrame (k.onTop outer below) h) := by
  refine .bind fun w ↦ ?_
  split
  · exact .bind fun value ↦ .bind fun _ ↦ .pure (k.push value) _
  · exact .bind fun value ↦ .bind fun _ ↦ .pure (k.push value) _
  · exact .bind fun _ ↦ .pure k _
  all_goals exact .bind fun _ ↦ .pure (k.todo [.await h]) _

theorem awaitInvoked (f : Machine Invoked) : Lifts outer below (awaitInvoked k f) (awaitInvoked (k.onTop outer below) f) :=
  .bind fun r ↦ by
    match r with
    | .ok (.done value) => exact .pure (k.push value) _
    | .ok (.running h) => exact awaitFrame h
    | .error e => exact .pure k _

theorem nextClause (clauses : Span) (next : ℕ) (otherwise : Option ExprId) :
    Lifts outer below (nextClause a k clauses next otherwise) (nextClause a (k.onTop outer below) clauses next otherwise) := by
  unfold Machine.nextClause
  cases (a.clausesAt clauses)[next]? with
  | some clause => exact .pure (k.todo [.eval clause.test, .cond clauses next otherwise]) _
  | none =>
    cases otherwise with
    | some e => exact .pure (k.todo [.eval e]) _
    | none => exact .bind fun value ↦ .pure (k.push value) _

/-! ### Operands -/

/-- Where there is a value, it is taken off, and what lies below does not matter. -/
theorem popValue {F G : Ref × Continuation → Machine (Continuation × Progress)} (hk : 0 < k.height)
    (h : ∀ value k', k'.height + 1 = k.height → Lifts outer below (F (value, k')) (G (value, k'.onTop outer below))) :
    Lifts outer below (popValue k >>= F) (popValue (k.onTop outer below) >>= G) := by
  obtain ⟨tasks, values⟩ := k
  obtain ⟨values, value, rfl⟩ := Stack.exists_push hk
  exact h value ⟨tasks, values⟩ rfl

theorem popReceiver {F G : Ref × Continuation → Machine (Continuation × Progress)} (hasReceiver : Bool)
    (hk : hasReceiver.toNat ≤ k.height) (h : ∀ value k', Lifts outer below (F (value, k')) (G (value, k'.onTop outer below))) :
    Lifts outer below (popReceiver k hasReceiver >>= F) (popReceiver (k.onTop outer below) hasReceiver >>= G) := by
  cases hasReceiver with
  | true => exact popValue hk fun value k' _ ↦ h value k'
  | false =>
    simp only [Machine.popReceiver, Bool.false_eq_true, if_false, bind_assoc, pure_bind]
    exact .bind fun _ ↦ .bind fun value ↦ h value k

theorem popTruth {F G : Except EvalError Bool × Continuation → Machine (Continuation × Progress)} (hk : 0 < k.height)
    (h : ∀ r k', Lifts outer below (F (r, k')) (G (r, k'.onTop outer below))) :
    Lifts outer below (popTruth k >>= F) (popTruth (k.onTop outer below) >>= G) := by
  simp only [Machine.popTruth, bind_assoc, pure_bind]
  exact popValue hk fun _ k' _ ↦ .bind fun r ↦ h r k'

end Lifts

theorem popValues_onTop {k : Continuation} {n : ℕ} (h : n ≤ k.height) :
    popValues (k.onTop outer below) n = ((popValues k n).1, (popValues k n).2.onTop outer below) :=
  Prod.ext (Stack.topmost_onTop h below) (congrArg (Continuation.mk _) (Stack.drop_onTop h below))

theorem popArgs_onTop {k : Continuation} {args : List CallArg} (h : args.length ≤ k.height) :
    popArgs (k.onTop outer below) args = ((popArgs k args).1, (popArgs k args).2.onTop outer below) := by
  simp only [popArgs, popValues_onTop h]

theorem map_raise_blockTasks (n : ℕ) (items : List ExprId) : (blockTasks items).map (Task.raise n) = blockTasks items := by
  fun_induction blockTasks items with
  | case1 => rfl
  | case2 e => rfl
  | case3 e rest _ ih => exact congrArg (Task.eval e :: Task.discard :: ·) ih

theorem cutValues_onTop (k : Continuation) (height : ℕ) :
    cutValues (k.onTop outer below) (below.height + height) = (·.onTop outer below) <$> cutValues k height := by
  have hextra : (k.onTop outer below).height - (below.height + height) = k.height - height :=
    Nat.add_sub_add_left below.height k.height height
  have hle : k.height - height ≤ k.values.height := Nat.sub_le _ _
  simp only [cutValues, hextra, map_bind, map_pure]
  rw [show (k.onTop outer below).values = k.values.onTop below from rfl, Stack.topmost_onTop hle, Stack.drop_onTop hle]
  rfl

namespace Lifts

variable {E : Engine} {a : Arena} {k : Continuation}

theorem decompose (id : ExprId) : Lifts outer below (decompose E a k id) (decompose E a (k.onTop outer below) id) := by
  have htodo {tasks : List Task} (h : tasks.map (Task.raise below.height) = tasks) :
      Lifts outer below (Pure.pure (k.todo tasks, .running)) (Pure.pure ((k.onTop outer below).todo tasks, .running)) := by
    rw [Continuation.todo_onTop h]
    exact .pure _ _
  have hcall (receiver : Option ExprId) (args : List CallArg) (op : Apply) :
      (receiverTasks receiver ++ argTasks args ++ [Task.apply op]).map (Task.raise below.height) =
        receiverTasks receiver ++ argTasks args ++ [.apply op] := by
    simp [receiverTasks, argTasks, Task.raise, Function.comp_def]
  unfold Machine.decompose
  cases a.node id with
  | binary op left right =>
    dsimp only
    split
    · exact htodo rfl
    · exact htodo rfl
  | methodCall receiver method args qualifier => exact htodo (hcall receiver _ _)
  | coroutineCall receiver coroutine args qualifier => exact htodo (hcall receiver _ _)
  | invoke callee args => exact htodo (congrArg (Task.eval callee :: ·) (hcall none _ _))
  | instantiate className args => exact htodo (hcall none _ _)
  | list itemClass items => exact htodo (by simp [Task.raise, Function.comp_def])
  | conditional clauses otherwise => exact nextClause _ _ _
  | block items =>
    dsimp only
    split
    · exact .bind fun value ↦ .pure (k.push value) _
    · exact .bind fun _ ↦ htodo (by simp [map_raise_blockTasks, Task.raise])
  | loop body => exact .bind fun w ↦ .pure (k.todo [.eval body, .loop body w.context.env.depth k.height]) _
  | guarded body errorName handler =>
    exact .bind fun w ↦ .pure (k.todo [.eval body, .guarded errorName handler w.context.env.depth k.height]) _
  | loopExit value =>
    cases value with
    | some value => exact htodo rfl
    | none => exact yieldValue _
  | concurrent policy branches => exact awaitInvoked _
  | bind _ _ | assign _ _ | unary _ _ => exact htodo rfl
  | _ => exact yieldValue _

/-- An operation that finds its operands comes to the same on top of others. -/
theorem applyOp {op : Apply} (hk : op.operands a ≤ k.height) :
    Lifts outer below (applyOp E a k op) (applyOp E a (k.onTop outer below) op) := by
  unfold Machine.applyOp
  cases op with
  | bind name => exact popValue hk fun value k' _ ↦ .bind fun _ ↦ .bind fun _ ↦ .pure (k'.push value) _
  | assign name => exact popValue hk fun _ _ _ ↦ yieldValue _
  | binary op =>
    have htwo : 2 ≤ k.height := hk
    exact popValue (by omega) fun _ k' hk' ↦ popValue (by omega) fun _ _ _ ↦ yieldValue _
  | unary op => exact popValue hk fun _ _ _ ↦ yieldValue _
  | method hasReceiver name args qualifier =>
    have hargs : (a.argsAt args).length ≤ k.height := Nat.le_of_add_right_le hk
    simp only [popArgs_onTop hargs]
    exact popReceiver hasReceiver (Nat.le_sub_of_add_le' hk) fun _ _ ↦ yieldValue _
  | coroutine hasReceiver name args qualifier =>
    have hargs : (a.argsAt args).length ≤ k.height := Nat.le_of_add_right_le hk
    simp only [popArgs_onTop hargs]
    exact popReceiver hasReceiver (Nat.le_sub_of_add_le' hk) fun _ _ ↦ awaitInvoked _
  | invoke args =>
    have hargs : (a.argsAt args).length ≤ k.height := Nat.le_of_add_right_le hk
    simp only [popArgs_onTop hargs]
    exact popValue (Nat.le_sub_of_add_le' hk) fun callee _ _ ↦ (awaitInvoked _).andThen (release callee)
  | instantiate className args =>
    simp only [popArgs_onTop hk]
    exact yieldValue _
  | list itemClass length =>
    have hitems : length ≤ k.height := hk
    simp only [popValues_onTop hitems]
    exact yieldValue _
  | loopExit => exact popValue hk fun _ k' _ ↦ .pure k' _

/-- A task that finds its operands comes to the same on top of others. -/
theorem runTask {task : Task} (hk : task.operands a ≤ k.height) :
    Lifts outer below (runTask E a k task) (runTask E a (k.onTop outer below) (task.raise below.height)) := by
  cases task with
  | eval id =>
    unfold Machine.runTask
    dsimp only [Task.raise]
    split
    · exact decompose id
    · exact yieldValue _
  | discard =>
    obtain ⟨tasks, values⟩ := k
    obtain ⟨values, value, rfl⟩ := Stack.exists_push (s := values) hk
    exact .bind fun _ ↦ .pure ⟨tasks, values⟩ _
  | popScope => exact .bind fun _ ↦ .pure k _
  | apply op => exact applyOp hk
  | shortCircuit op right =>
    refine popTruth hk fun r k' ↦ ?_
    cases r with
    | error e => exact .pure k' _
    | ok decided =>
      dsimp only
      split
      · exact .bind fun value ↦ .pure (k'.push value) _
      · exact .pure (k'.todo [.eval right, .checkBool]) _
  | checkBool =>
    refine popTruth hk fun r k' ↦ ?_
    cases r with
    | error e => exact .pure k' _
    | ok b => exact .bind fun value ↦ .pure (k'.push value) _
  | cond clauses next otherwise =>
    refine popTruth hk fun r k' ↦ ?_
    rcases r with e | (_ | _)
    · exact .pure k' _
    · exact nextClause _ _ _
    · dsimp only
      rw [Continuation.todo_onTop (by simp [Task.raise, Function.comp_def])]
      exact .pure _ _
  | loop body depth height =>
    unfold Machine.runTask
    dsimp only [Task.raise]
    rw [cutValues_onTop, bind_map_left]
    exact .bind fun k' ↦ .pure (k'.todo [.eval body, .loop body depth height]) _
  | guarded errorName handler depth height => exact .pure k _
  | await h => exact awaitFrame h

end Lifts

/-- An error that a task on top catches is caught there, whatever lies below. -/
theorem unwind_onTop {values : Stack Ref} {e : EvalError} {tasks : List Task} {k : Continuation} {w w' : World}
    (hrun : unwind values e tasks w = (.ok (k, none), w')) :
    unwind (values.onTop below) e (tasks.map (Task.raise below.height) ++ outer) w = (.ok (k.onTop outer below, none), w') := by
  induction tasks generalizing w with
  | nil => cases hrun
  | cons task rest ih =>
    have hcut (height : ℕ) :
        cutValues ⟨rest.map (Task.raise below.height) ++ outer, values.onTop below⟩ (below.height + height) =
          (·.onTop outer below) <$> cutValues ⟨rest, values⟩ height := cutValues_onTop ⟨rest, values⟩ height
    rw [List.map_cons, List.cons_append]
    unfold unwind at hrun ⊢
    cases task with
    | loop body depth height =>
      dsimp only [Task.raise] at hrun ⊢
      cases hexit : e.exit with
      | none =>
        rw [hexit] at hrun
        exact ih hrun
      | some value =>
        rw [hexit] at hrun
        rw [hcut]
        cases hrun
        rfl
    | guarded errorName handler depth height =>
      dsimp only [Task.raise] at hrun ⊢
      split at hrun
      · next hexit =>
        rw [if_pos hexit]
        exact ih hrun
      · next hexit =>
        rw [if_neg hexit, hcut]
        cases hrun
        rfl
    | popScope => exact ih (w := (popScope w).2) hrun
    | await x => exact ih (w := w.release [.outcome x.outcome]) hrun
    | _ => exact ih hrun

end Machine

end MindScript
