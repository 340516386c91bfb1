import MindScript.Proofs.Balance
import MindScript.Proofs.Continuation.Agreement

/-!
# The tasks of a body fit its values

Each task of a continuation finds the values that it takes above a base, and leaves what lies below alone.  The base of the
tasks above a handler is the value stack as it was when the handler was left behind, and the scopes that these tasks open they
close again before the handler is met.  So what a handler notes down stays true, whatever tasks run in between and however
often the body sleeps.
-/

namespace MindScript

open Machine

/-! ### What tasks take -/

/-- The values that an operation takes off the stack. -/
def Apply.operands (a : Arena) : Apply → ℕ
  | .bind _ | .assign _ | .unary _ | .loopExit => 1
  | .binary _ => 2
  | .method hasReceiver _ args _ | .coroutine hasReceiver _ args _ => (a.argsAt args).length + hasReceiver.toNat
  | .invoke args => (a.argsAt args).length + 1
  | .instantiate _ args => (a.argsAt args).length
  | .list _ length => length

/-- A task that comes to one value, and the values that it takes off the stack for it. -/
inductive Task.Takes (a : Arena) : Task → ℕ → Prop where
  | eval (id : ExprId) : Takes a (.eval id) 0
  | await (h : Handle) : Takes a (.await h) 0
  | apply (op : Apply) : Takes a (.apply op) (op.operands a)
  | shortCircuit (op : BinaryOp) (right : ExprId) : Takes a (.shortCircuit op right) 1
  | checkBool : Takes a .checkBool 1
  | cond {clauses : Span} {next : ℕ} (otherwise : Option ExprId) : next < (a.clausesAt clauses).length →
      Takes a (.cond clauses next otherwise) 1

/-- The task of a loop or a guarded body, with what it notes down of the scopes and values outside. -/
inductive Task.Notes (depth height : ℕ) : Task → Prop where
  | loop (body : ExprId) : Notes depth height (.loop body depth height)
  | guarded (errorName : String) (handler : ExprId) : Notes depth height (.guarded errorName handler depth height)

/-- What is known of a handler, of the tasks below it, and of the values and scopes outside. -/
abbrev Knowledge := Task → List Task → Stack Ref → Environment → Prop

/-- The tasks fit the given number of values above a base, in the given scopes: carried out in turn they leave one value and
nothing else, in the scopes that the body started with. -/
inductive Ready (a : Arena) (P : Knowledge) (e₀ : Environment) : List Task → ℕ → Stack Ref → Environment → Prop where
  | done : Ready a P e₀ [] 1 .empty e₀
  | value {t : Task} {rest : List Task} {n k : ℕ} {base : Stack Ref} {env : Environment} : t.Takes a k →
      Ready a P e₀ rest (n + 1) base env → Ready a P e₀ (t :: rest) (n + k) base env
  | discard {rest : List Task} {n : ℕ} {base : Stack Ref} {env : Environment} :
      Ready a P e₀ rest n base env → Ready a P e₀ (.discard :: rest) (n + 1) base env
  | popScope {rest : List Task} {n : ℕ} {base : Stack Ref} {env env' : Environment} : (∀ h, (env'.pop h).1 = env) →
      Ready a P e₀ rest n base env → Ready a P e₀ (.popScope :: rest) n base env'
  | handler {t : Task} {rest : List Task} {base : Stack Ref} {vs : List Ref} {env : Environment} :
      t.Notes env.depth (base.pushAll vs).height → P t rest (base.pushAll vs) env →
      Ready a P e₀ rest (vs.length + 1) base env → Ready a P e₀ (t :: rest) 1 (base.pushAll vs) env

variable {a : Arena} {P Q : Knowledge} {e₀ env : Environment} {rest tasks : List Task} {n : ℕ} {base : Stack Ref}
  {vs : List Ref}

namespace Ready

/-- More may come to be known of the handlers on the stack. -/
theorem mono (h : Ready a P e₀ tasks n base env)
    (hPQ : ∀ t outer values env, t :: outer <:+ tasks → P t outer values env → Q t outer values env) :
    Ready a Q e₀ tasks n base env := by
  induction h with
  | done => exact .done
  | value htakes _ ih => exact .value htakes (ih fun t outer _ _ ht ↦ hPQ t outer _ _ (ht.trans (List.suffix_cons _ _)))
  | discard _ ih => exact .discard (ih fun t outer _ _ ht ↦ hPQ t outer _ _ (ht.trans (List.suffix_cons _ _)))
  | popScope hpop _ ih => exact .popScope hpop (ih fun t outer _ _ ht ↦ hPQ t outer _ _ (ht.trans (List.suffix_cons _ _)))
  | handler hnotes hknown _ ih =>
    exact .handler hnotes (hPQ _ _ _ _ List.suffix_rfl hknown)
      (ih fun t outer _ _ ht ↦ hPQ t outer _ _ (ht.trans (List.suffix_cons _ _)))

/-! ### The tasks of a node -/

theorem eval (id : ExprId) (h : Ready a P e₀ rest (n + 1) base env) : Ready a P e₀ (.eval id :: rest) n base env :=
  .value (.eval id) h

/-- Expressions one after the other. -/
theorem evals (ids : List ExprId) (h : Ready a P e₀ rest (n + ids.length) base env) :
    Ready a P e₀ (ids.map .eval ++ rest) n base env := by
  induction ids generalizing n with
  | nil => exact h
  | cons id ids ih =>
    refine eval id (ih ?_)
    rwa [List.length_cons, Nat.add_comm ids.length 1, ← Nat.add_assoc] at h

/-- Operands and the operation on them. -/
theorem operation {ids : List ExprId} {op : Apply} (hop : op.operands a = ids.length)
    (h : Ready a P e₀ rest (n + 1) base env) : Ready a P e₀ (ids.map .eval ++ .apply op :: rest) n base env :=
  evals ids (hop ▸ .value (.apply op) h)

/-- The expressions of a block. -/
theorem blockTasks {items : List ExprId} (hne : items ≠ []) (h : Ready a P e₀ rest (n + 1) base env) :
    Ready a P e₀ (blockTasks items ++ rest) n base env := by
  induction items with
  | nil => exact absurd rfl hne
  | cons e items ih =>
    cases items with
    | nil => exact eval e h
    | cons e' items => exact eval e (.discard (ih (List.cons_ne_nil _ _)))

end Ready

namespace Continuation

/-- The tasks fit the values. -/
def InOrder (a : Arena) (P : Knowledge) (e₀ : Environment) (k : Continuation) (env : Environment) : Prop :=
  ∃ n base vs, vs.length = n ∧ k.values = base.pushAll vs ∧ Ready a P e₀ k.tasks n base env

theorem inOrder_new (body : ExprId) : (new body).InOrder a P e₀ e₀ := ⟨0, .empty, [], rfl, rfl, .eval body .done⟩

theorem InOrder.mono {k : Continuation} (h : k.InOrder a P e₀ env)
    (hPQ : ∀ t outer values env, t :: outer <:+ k.tasks → P t outer values env → Q t outer values env) :
    k.InOrder a Q e₀ env := by
  obtain ⟨n, base, vs, hlength, hvalues, hready⟩ := h
  exact ⟨n, base, vs, hlength, hvalues, hready.mono hPQ⟩

end Continuation

/-! ### How tasks end -/

/-- Where a task leaves the body.  After an error the tasks below it are met by unwinding, with some of its operands left on
their base. -/
def Lands (a : Arena) (P : Knowledge) (e₀ : Environment) (rest : List Task) (env : Environment) :
    Continuation × Progress → Prop
  | (k, .running) | (k, .suspend _) => k.InOrder a P e₀ env
  | (k, .failed _) => k.tasks = rest ∧ ∃ n base vs, k.values = base.pushAll vs ∧ Ready a P e₀ rest n base env

/-- How a task ends that has taken its operands off the stack: with a value, in the wait for another coroutine, or with an
error. -/
inductive Comes (rest : List Task) (values : Stack Ref) : Continuation × Progress → Prop where
  | value (v : Ref) : Comes rest values (⟨rest, values.push v⟩, .running)
  | waits (h : Handle) : Comes rest values (⟨.await h :: rest, values⟩, .suspend (.frame h))
  | fails (e : EvalError) : Comes rest values (⟨rest, values⟩, .failed e)

theorem Comes.lands {s : Continuation × Progress} (h : Comes rest (base.pushAll vs) s)
    (hready : Ready a P e₀ rest (vs.length + 1) base env) : Lands a P e₀ rest env s := by
  cases h with
  | value v => exact ⟨_, base, vs ++ [v], by simp, by simp, hready⟩
  | waits h => exact ⟨_, base, vs, rfl, rfl, .value (.await h) hready⟩
  | fails e => exact ⟨rfl, _, base, vs, rfl, hready⟩

namespace Machine

variable {E : Engine} {values : Stack Ref} {w w' : World} {s : Continuation × Progress}

theorem comes_yieldValue {act : Machine Ref} (h : yieldValue ⟨rest, values⟩ act w = (.ok s, w')) : Comes rest values s := by
  obtain ⟨r, w₁, -, hrun⟩ := exists_of_bind_eq_ok (f := attempt act) h
  cases r with
  | ok v =>
    cases hrun
    exact .value v
  | error e =>
    cases hrun
    exact .fails e

theorem comes_awaitFrame {x : Handle} (h : awaitFrame ⟨rest, values⟩ x w = (.ok s, w')) : Comes rest values s := by
  unfold awaitFrame at h
  rw [get_bind] at h
  cases hs : w.status x with
  | completed =>
    simp only [hs] at h
    obtain ⟨v, w₁, -, h⟩ := exists_of_bind_eq_ok h
    obtain ⟨-, w₂, -, h⟩ := exists_of_bind_eq_ok h
    cases h
    exact .value v
  | stopped =>
    simp only [hs] at h
    obtain ⟨v, w₁, -, h⟩ := exists_of_bind_eq_ok h
    obtain ⟨-, w₂, -, h⟩ := exists_of_bind_eq_ok h
    cases h
    exact .value v
  | failed =>
    simp only [hs] at h
    cases h
    exact .fails _
  | pending =>
    simp only [hs] at h
    cases h
    exact .waits x
  | running =>
    simp only [hs] at h
    cases h
    exact .waits x
  | suspended =>
    simp only [hs] at h
    cases h
    exact .waits x

theorem comes_awaitInvoked {act : Machine Invoked} (h : awaitInvoked ⟨rest, values⟩ act w = (.ok s, w')) :
    Comes rest values s := by
  obtain ⟨r, w₁, -, hrun⟩ := exists_of_bind_eq_ok (f := attempt act) h
  rcases r with e | (v | x)
  · cases hrun
    exact .fails e
  · cases hrun
    exact .value v
  · exact comes_awaitFrame hrun

theorem popValue_drop {v : Ref} {k k' : Continuation} (h : popValue k w = (.ok (v, k'), w')) :
    k' = ⟨k.tasks, k.values.drop 1⟩ := by
  obtain ⟨tasks, values⟩ := k
  unfold popValue at h
  cases htop : values.top? with
  | some value =>
    simp only [htop] at h
    cases h
    rfl
  | none =>
    simp only [htop] at h
    obtain ⟨v, w₁, -, h⟩ := exists_of_bind_eq_ok h
    cases h
    have hnone : values.items = [] := List.head?_eq_none_iff.mp htop
    exact congrArg (Continuation.mk tasks) (Stack.ext_items (by simp [hnone]))

theorem popReceiver_drop {v : Ref} {hasReceiver : Bool} {k k' : Continuation}
    (h : popReceiver k hasReceiver w = (.ok (v, k'), w')) : k' = ⟨k.tasks, k.values.drop hasReceiver.toNat⟩ := by
  cases hasReceiver with
  | true => exact popValue_drop h
  | false =>
    cases h
    rfl

/-- An operation takes its operands off the stack, whatever it comes to. -/
theorem comes_applyOp {op : Apply} (h : applyOp E a ⟨rest, values⟩ op w = (.ok s, w')) :
    Comes rest (values.drop (op.operands a)) s := by
  cases op with
  | bind name =>
    obtain ⟨⟨v, k⟩, w₁, hpop, h⟩ := exists_of_bind_eq_ok h
    obtain rfl := popValue_drop hpop
    cases h
    exact .value v
  | assign name =>
    obtain ⟨⟨v, k⟩, w₁, hpop, h⟩ := exists_of_bind_eq_ok h
    obtain rfl := popValue_drop hpop
    exact comes_yieldValue h
  | binary op =>
    obtain ⟨⟨right, k⟩, w₁, hpop, h⟩ := exists_of_bind_eq_ok h
    obtain rfl := popValue_drop hpop
    obtain ⟨⟨left, k⟩, w₂, hpop, h⟩ := exists_of_bind_eq_ok h
    obtain rfl := popValue_drop hpop
    have hends := comes_yieldValue h
    rwa [Stack.drop_drop] at hends
  | unary op =>
    obtain ⟨⟨v, k⟩, w₁, hpop, h⟩ := exists_of_bind_eq_ok h
    obtain rfl := popValue_drop hpop
    exact comes_yieldValue h
  | method hasReceiver name args qualifier =>
    obtain ⟨⟨receiver, k⟩, w₁, hpop, h⟩ := exists_of_bind_eq_ok h
    obtain rfl := popReceiver_drop hpop
    have hends := comes_yieldValue h
    rwa [Stack.drop_drop] at hends
  | coroutine hasReceiver name args qualifier =>
    obtain ⟨⟨receiver, k⟩, w₁, hpop, h⟩ := exists_of_bind_eq_ok h
    obtain rfl := popReceiver_drop hpop
    have hends := comes_awaitInvoked h
    rwa [Stack.drop_drop] at hends
  | invoke args =>
    obtain ⟨⟨callee, k⟩, w₁, hpop, h⟩ := exists_of_bind_eq_ok h
    obtain rfl := popValue_drop hpop
    obtain ⟨s', w₂, hawait, h⟩ := exists_of_bind_eq_ok h
    cases h
    have hends := comes_awaitInvoked hawait
    rwa [Stack.drop_drop] at hends
  | instantiate className args => exact comes_yieldValue h
  | list itemClass length => exact comes_yieldValue h
  | loopExit =>
    obtain ⟨⟨v, k⟩, w₁, hpop, h⟩ := exists_of_bind_eq_ok h
    obtain rfl := popValue_drop hpop
    cases h
    exact .fails _

theorem popTruth_drop {r : Except EvalError Bool} {k k' : Continuation} (h : popTruth k w = (.ok (r, k'), w')) :
    k' = ⟨k.tasks, k.values.drop 1⟩ := by
  obtain ⟨⟨v, k₁⟩, w₁, hpop, h⟩ := exists_of_bind_eq_ok h
  obtain rfl := popValue_drop hpop
  obtain ⟨r', w₂, -, h⟩ := exists_of_bind_eq_ok h
  cases h
  rfl

end Machine

/-! ### Stages -/

/-- A body between two tasks: the rest of it, and the scopes that it goes on in. -/
structure Stage where
  rest : Continuation
  env : Environment

/-- The next task enters a loop or a guarded body, which leaves the given task behind. -/
inductive Stage.Enters (a : Arena) : Stage → Task → Prop where
  | loop {id body : ExprId} {outer : List Task} {values : Stack Ref} {env : Environment} :
      a.isDurational id = true → a.node id = .loop body →
      Enters a ⟨⟨.eval id :: outer, values⟩, env⟩ (.loop body env.depth values.height)
  | guarded {id body handler : ExprId} {errorName : String} {outer : List Task} {values : Stack Ref} {env : Environment} :
      a.isDurational id = true → a.node id = .guarded body errorName handler →
      Enters a ⟨⟨.eval id :: outer, values⟩, env⟩ (.guarded errorName handler env.depth values.height)

namespace Machine

variable {E : Engine} {w w' : World} {s : Continuation × Progress}

theorem lands_todo {tasks : List Task} (h : Ready a P e₀ (tasks ++ rest) vs.length base env) :
    Lands a P e₀ rest env (Continuation.todo ⟨rest, base.pushAll vs⟩ tasks, .running) := ⟨_, base, vs, rfl, rfl, h⟩

/-- An action that opens and closes no scopes of the running frame leaves the context as it is. -/
theorem Alike.context_eq {α : Type} {f : Machine α} {r : α} (h : Alike E E ⟨w.current, 0, false, none⟩ f f)
    (hE : E.Balanced) (hw : w.Rooted) (hrun : f w = (.ok r, w')) : w'.context = w.context := by
  have hlevel := (h.balanced hE w ⟨rfl, Nat.zero_le _, hw⟩).level (by rw [hrun]; simp)
  rw [hrun] at hlevel
  exact hlevel.context rfl

theorem lands_nextClause {clauses : Span} {next : ℕ} {otherwise : Option ExprId}
    (hready : Ready a P e₀ rest (vs.length + 1) base env)
    (hrun : nextClause a ⟨rest, base.pushAll vs⟩ clauses next otherwise w = (.ok s, w')) : Lands a P e₀ rest env s := by
  unfold nextClause at hrun
  cases hclause : (a.clausesAt clauses)[next]? with
  | some clause =>
    simp only [hclause] at hrun
    cases hrun
    obtain ⟨hnext, -⟩ := List.getElem?_eq_some_iff.mp hclause
    exact lands_todo (.eval _ (.value (.cond otherwise hnext) hready))
  | none =>
    cases otherwise with
    | some e =>
      simp only [hclause] at hrun
      cases hrun
      exact lands_todo (.eval e hready)
    | none =>
      simp only [hclause] at hrun
      obtain ⟨v, w₁, -, hrun⟩ := exists_of_bind_eq_ok hrun
      cases hrun
      exact (Comes.value v).lands hready

/-- What a node is taken apart into fits the values. -/
theorem lands_decompose (hE : E.Balanced) (hclosed : a.Closed) (hw : w.Rooted) {id : ExprId}
    (hdurational : a.isDurational id = true) (hready : Ready a P e₀ rest (vs.length + 1) base w.context.env)
    (hP : ∀ t, Stage.Enters a ⟨⟨.eval id :: rest, base.pushAll vs⟩, w.context.env⟩ t →
      P t rest (base.pushAll vs) w.context.env)
    (hrun : decompose E a ⟨rest, base.pushAll vs⟩ id w = (.ok s, w')) :
    Lands a P e₀ rest w'.context.env s := by
  have hcomes {f : Machine (Continuation × Progress)} (hf : Alike E E ⟨w.current, 0, false, none⟩ f f)
      (hrun : f w = (.ok s, w')) (hs : Comes rest (base.pushAll vs) s) :
      Lands a P e₀ rest w'.context.env s := by
    rw [hf.context_eq hE hw hrun]
    exact hs.lands hready
  have hcall (ids : List ExprId) {op : Apply} (hop : op.operands a = ids.length) :
      Lands a P e₀ rest w.context.env
        (Continuation.todo ⟨rest, base.pushAll vs⟩ (ids.map .eval ++ [.apply op]), .running) := by
    refine lands_todo ?_
    rw [List.append_assoc]
    exact .operation hop hready
  have hreceiver (receiver : Option ExprId) (args : List CallArg) : receiverTasks receiver ++ argTasks args =
      (receiver.toList ++ args.map CallArg.value).map Task.eval := by
    simp [receiverTasks, argTasks]
  unfold decompose at hrun
  cases hid : a.node id with
  | bind name init =>
    simp only [hid] at hrun
    cases hrun
    exact hcall [init] rfl
  | assign name value =>
    simp only [hid] at hrun
    cases hrun
    exact hcall [value] rfl
  | binary op left right =>
    simp only [hid] at hrun
    split at hrun
    · cases hrun
      exact lands_todo (.eval left (.value (.shortCircuit op right) hready))
    · cases hrun
      exact hcall [left, right] rfl
  | unary op operand =>
    simp only [hid] at hrun
    cases hrun
    exact hcall [operand] rfl
  | methodCall receiver method args qualifier =>
    simp only [hid, hreceiver] at hrun
    cases hrun
    refine hcall _ ?_
    cases receiver <;> simp [Apply.operands, Nat.add_comm]
  | coroutineCall receiver coroutine args qualifier =>
    simp only [hid, hreceiver] at hrun
    cases hrun
    refine hcall _ ?_
    cases receiver <;> simp [Apply.operands, Nat.add_comm]
  | invoke callee args =>
    simp only [hid] at hrun
    cases hrun
    have hids : Task.eval callee :: argTasks (a.argsAt args) =
        (callee :: (a.argsAt args).map CallArg.value).map Task.eval := by simp [argTasks]
    rw [hids]
    exact hcall _ (by simp [Apply.operands])
  | instantiate className args =>
    simp only [hid] at hrun
    cases hrun
    have hids : argTasks (a.argsAt args) = ((a.argsAt args).map CallArg.value).map Task.eval := by simp [argTasks]
    rw [hids]
    exact hcall _ (by simp [Apply.operands])
  | list itemClass items =>
    simp only [hid] at hrun
    cases hrun
    exact hcall _ (hclosed.length_listAt hid).symm
  | conditional clauses otherwise =>
    simp only [hid] at hrun
    have hnext : Alike E E ⟨w.current, 0, false, none⟩ (nextClause a ⟨rest, base.pushAll vs⟩ clauses 0 otherwise)
        (nextClause a ⟨rest, base.pushAll vs⟩ clauses 0 otherwise) := .nextClause ..
    rw [hnext.context_eq hE hw hrun]
    exact lands_nextClause hready hrun
  | block items =>
    simp only [hid] at hrun
    split at hrun
    · exact hcomes (Alike.nil.bind fun _ ↦ .pure _) hrun (by
        cases hrun
        exact .value _)
    · next hne =>
      cases hrun
      refine lands_todo ?_
      rw [List.append_assoc]
      refine .blockTasks (fun hnil ↦ hne (by simp [hnil])) (.popScope (fun h ↦ ?_) hready)
      exact Environment.pop_push _ _ _
  | loop body =>
    simp only [hid] at hrun
    cases hrun
    have hknown := hP _ (.loop hdurational hid)
    exact ⟨0, base.pushAll vs, [], rfl, rfl, .eval body (.handler (.loop body) hknown hready)⟩
  | loopExit value =>
    cases value with
    | some value =>
      simp only [hid] at hrun
      cases hrun
      exact hcall [value] rfl
    | none =>
      simp only [hid] at hrun
      exact hcomes (.yieldValue _ (.eval id)) hrun (comes_yieldValue hrun)
  | guarded body errorName handler =>
    simp only [hid] at hrun
    cases hrun
    have hknown := hP _ (.guarded hdurational hid)
    exact ⟨0, base.pushAll vs, [], rfl, rfl, .eval body (.handler (.guarded errorName handler) hknown hready)⟩
  | concurrent policy branches =>
    simp only [hid] at hrun
    exact hcomes (.awaitInvoked _ ((Alike.spawnGroup policy branches).map _)) hrun (comes_awaitInvoked hrun)
  | _ =>
    simp only [hid] at hrun
    exact hcomes (.yieldValue _ (.eval id)) hrun (comes_yieldValue hrun)

theorem lands_eval (hE : E.Balanced) (hclosed : a.Closed) (hw : w.Rooted) {id : ExprId}
    (hready : Ready a P e₀ rest (vs.length + 1) base w.context.env)
    (hP : ∀ t, Stage.Enters a ⟨⟨.eval id :: rest, base.pushAll vs⟩, w.context.env⟩ t →
      P t rest (base.pushAll vs) w.context.env)
    (hrun : runTask E a ⟨rest, base.pushAll vs⟩ (.eval id) w = (.ok s, w')) : Lands a P e₀ rest w'.context.env s := by
  unfold runTask at hrun
  cases hdurational : a.isDurational id with
  | true =>
    simp only [hdurational, if_true] at hrun
    exact lands_decompose hE hclosed hw hdurational hready hP hrun
  | false =>
    simp only [hdurational, Bool.false_eq_true, if_false] at hrun
    have halike : Alike E E ⟨w.current, 0, false, none⟩ (yieldValue ⟨rest, base.pushAll vs⟩ (E.eval id))
        (yieldValue ⟨rest, base.pushAll vs⟩ (E.eval id)) := .yieldValue _ (.eval id)
    rw [halike.context_eq hE hw hrun]
    exact (comes_yieldValue hrun).lands hready

theorem exists_of_popTruth_bind {k : Continuation}
    {g : Except EvalError Bool × Continuation → Machine (Continuation × Progress)}
    (hrun : (popTruth k >>= g) w = (.ok s, w')) : ∃ r w₁, g (r, ⟨k.tasks, k.values.drop 1⟩) w₁ = (.ok s, w') := by
  obtain ⟨⟨r, k'⟩, w₁, hpop, hrun⟩ := exists_of_bind_eq_ok hrun
  obtain rfl := popTruth_drop hpop
  exact ⟨r, w₁, hrun⟩

/-- A task that takes values finds them on top of the base. -/
theorem lands_takes {task : Task} {k : ℕ} (htakes : task.Takes a k) (heval : ∀ id, task ≠ .eval id)
    (hdrop : values.drop k = base.pushAll vs) (hready : Ready a P e₀ rest (vs.length + 1) base env)
    (hrun : runTask E a ⟨rest, values⟩ task w = (.ok s, w')) : Lands a P e₀ rest env s := by
  cases htakes with
  | eval id => exact absurd rfl (heval id)
  | await x =>
    have hends := comes_awaitFrame hrun
    rw [← Stack.drop_zero values, hdrop] at hends
    exact hends.lands hready
  | apply op =>
    have hends := comes_applyOp hrun
    rw [hdrop] at hends
    exact hends.lands hready
  | shortCircuit op right =>
    obtain ⟨r, w₁, hrun⟩ := exists_of_popTruth_bind hrun
    rw [hdrop] at hrun
    cases r with
    | error e =>
      cases hrun
      exact (Comes.fails e).lands hready
    | ok decided =>
      dsimp only at hrun
      split at hrun
      · cases hrun
        exact (Comes.value _).lands hready
      · cases hrun
        exact lands_todo (.eval right (.value .checkBool hready))
  | checkBool =>
    obtain ⟨r, w₁, hrun⟩ := exists_of_popTruth_bind hrun
    rw [hdrop] at hrun
    cases r with
    | error e =>
      cases hrun
      exact (Comes.fails e).lands hready
    | ok b =>
      cases hrun
      exact (Comes.value _).lands hready
  | cond otherwise hnext =>
    obtain ⟨r, w₁, hrun⟩ := exists_of_popTruth_bind hrun
    rw [hdrop] at hrun
    rcases r with e | (_ | _)
    · cases hrun
      exact (Comes.fails e).lands hready
    · exact lands_nextClause hready hrun
    · rw [List.getElem?_eq_getElem hnext] at hrun
      cases hrun
      exact lands_todo (.eval _ hready)

/-- Each task finds what it takes, and leaves the other tasks and values in order. -/
theorem lands_runTask (hE : E.Balanced) (hclosed : a.Closed) (hw : w.Rooted) {task : Task}
    (hready : Ready a P e₀ (task :: rest) n base w.context.env) (hn : vs.length = n)
    (hP : ∀ t, Stage.Enters a ⟨⟨task :: rest, base.pushAll vs⟩, w.context.env⟩ t →
      P t rest (base.pushAll vs) w.context.env)
    (hrun : runTask E a ⟨rest, base.pushAll vs⟩ task w = (.ok s, w')) :
    Lands a P e₀ rest w'.context.env s := by
  have hoperands {m k : ℕ} (hlength : vs.length = m + k) :
      ∃ us : List Ref, us.length = m ∧ (base.pushAll vs).drop k = base.pushAll us := by
    refine ⟨vs.take m, by simp [hlength], ?_⟩
    have htop : (vs.drop m).length = k := by simp [hlength]
    conv_lhs => rw [← List.take_append_drop m vs, Stack.pushAll_append, ← htop]
    rw [Stack.drop_pushAll]
  cases hready with
  | value htakes hrest =>
    obtain ⟨us, rfl, hdrop⟩ := hoperands hn
    by_cases heval : ∃ id, task = .eval id
    · obtain ⟨id, rfl⟩ := heval
      cases htakes
      rw [Stack.drop_zero] at hdrop
      rw [hdrop] at hrun hP
      exact lands_eval hE hclosed hw hrest hP hrun
    · -- Every other such task leaves the context as it is.
      have hne : ∀ id, task ≠ .eval id := fun id heq ↦ heval ⟨id, heq⟩
      have hpop : task ≠ .popScope := by
        rintro rfl
        cases htakes
      rw [(Alike.runTask_of_ne hne hpop a _).context_eq hE hw hrun]
      exact lands_takes htakes hne hdrop hrest hrun
  | discard hrest =>
    obtain ⟨us, rfl, hdrop⟩ := hoperands hn
    cases hrun
    exact ⟨_, base, us, rfl, hdrop, hrest⟩
  | popScope hpop hrest =>
    cases hrun
    have henv : (popScope w).2.context.env = (w.context.env.pop w.heap).1 := rfl
    rw [hpop] at henv
    exact ⟨_, base, vs, hn, rfl, henv ▸ hrest⟩
  | @handler _ _ outside us _ hnotes hknown hrest =>
    cases hnotes with
    | loop body =>
      rw [runTask, cutValues_pushAll] at hrun
      cases hrun
      exact ⟨0, outside.pushAll us, [], rfl, rfl, .eval body (.handler (.loop body) hknown hrest)⟩
    | guarded errorName handler =>
      cases hrun
      exact ⟨_, outside, us ++ vs, by simp [hn], by simp, hrest⟩

/-- Taking a node apart may open a scope, and changes nothing else about the context. -/
theorem arena_decompose (hE : E.Balanced) (hw : w.Rooted) {k : Continuation} {id : ExprId}
    (hrun : decompose E a k id w = (.ok s, w')) : w'.context.arena = w.context.arena := by
  have hkeeps {f : Machine (Continuation × Progress)} (hf : Alike E E ⟨w.current, 0, false, none⟩ f f)
      (hrun : f w = (.ok s, w')) : w'.context.arena = w.context.arena := by
    rw [hf.context_eq hE hw hrun]
  unfold decompose at hrun
  cases hid : a.node id with
  | binary op left right =>
    simp only [hid] at hrun
    split at hrun
    · cases hrun
      rfl
    · cases hrun
      rfl
  | conditional clauses otherwise =>
    simp only [hid] at hrun
    exact hkeeps (.nextClause ..) hrun
  | block items =>
    simp only [hid] at hrun
    split at hrun
    · exact hkeeps (Alike.nil.bind fun _ ↦ .pure _) hrun
    · cases hrun
      rfl
  | loopExit value =>
    simp only [hid] at hrun
    cases value with
    | some value =>
      cases hrun
      rfl
    | none => exact hkeeps (.yieldValue _ (.eval id)) hrun
  | concurrent policy branches =>
    simp only [hid] at hrun
    exact hkeeps (.awaitInvoked _ ((Alike.spawnGroup policy branches).map _)) hrun
  | nil | bool | int | real | str | sym | this | ident | closure | branch =>
    simp only [hid] at hrun
    exact hkeeps (.yieldValue _ (.eval id)) hrun
  | _ =>
    simp only [hid] at hrun
    cases hrun
    rfl

theorem arena_runTask (hE : E.Balanced) (hw : w.Rooted) {k : Continuation} {task : Task}
    (hrun : runTask E a k task w = (.ok s, w')) : w'.context.arena = w.context.arena := by
  by_cases heval : ∃ id, task = .eval id
  · obtain ⟨id, rfl⟩ := heval
    unfold runTask at hrun
    cases hdurational : a.isDurational id with
    | true =>
      simp only [hdurational, if_true] at hrun
      exact arena_decompose hE hw hrun
    | false =>
      simp only [hdurational, Bool.false_eq_true, if_false] at hrun
      have halike : Alike E E ⟨w.current, 0, false, none⟩ (yieldValue k (E.eval id)) (yieldValue k (E.eval id)) :=
        .yieldValue _ (.eval id)
      rw [halike.context_eq hE hw hrun]
  by_cases hpop : task = .popScope
  · subst hpop
    cases hrun
    rfl
  · rw [(Alike.runTask_of_ne (fun id h ↦ heval ⟨id, h⟩) hpop a k).context_eq hE hw hrun]

end Machine

end MindScript
