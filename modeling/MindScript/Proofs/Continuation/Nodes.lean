import MindScript.Proofs.Continuation.Enacts
import MindScript.Proofs.Continuation.Immediate

/-!
# The tasks of a node enact its evaluation

One kind of node after the other: if the task that evaluates an expression enacts its evaluation, for every
expression, then so do the tasks into which a node is taken apart.
-/

namespace MindScript.Machine

/-- The value of an expression is one value. -/
def single (v : Ref) : List Ref := [v]

/-- Within a context, the task that evaluates an expression enacts its evaluation by an engine. -/
structure Enacted (n : Nat) (S : Engine) (c : Context) : Prop where
  refines : ∀ m, n ≤ m → S.Refines (.ofBudget m)
  eval : ∀ id, Enacts n c (doing [] [.eval id]) (S.eval id) single

namespace Enacted

variable {n : Nat} {S : Engine} {c : Context}

theorem alike {α : Type} {f : Machine α} {g : Engine → Machine α} (h : Enacted n S c)
    (hfg : ∀ E σ, S.budget ≤ E.budget → Alike S E σ f (g E)) (m : Nat) (hm : n ≤ m) (σ : Setting) :
    Refines σ f (g (.ofBudget m)) :=
  (hfg _ σ (h.refines m hm).budget).refines (h.refines m hm)

theorem operand (h : Enacted n S c) (below : List Ref) (id : ExprId) (held : List Ref) :
    Enacts n c (doing below [.eval id]) (elseRelease (S.eval id) held) fun v ↦ below ++ [v] := by
  have habove := ((h.eval id).doing_above below).elseRelease held
  rwa [List.append_nil] at habove

/-! ### Arguments -/

theorem isPlain_evals {α : Type} (f : α → ExprId) (xs : List α) :
    (xs.map fun x ↦ Task.eval (f x)).all Task.IsPlain := by
  simp [Task.IsPlain]

theorem evalArgs (h : Enacted n S c) (done : ArgValues) (args : List CallArg) :
    Enacts n c (doing (done.reverse.map Prod.snd) (argTasks args)) (evalArgs S done args)
      (List.map Prod.snd) := by
  induction args generalizing done with
  | nil => exact .pure (p := List.map Prod.snd) done.reverse
  | cons arg rest ih =>
    refine Enacts.cons (isPlain_evals CallArg.value rest) (h.operand _ arg.value _) fun value ↦ ?_
    simpa [argTasks] using ih ((arg.name, value) :: done)

theorem evalList (h : Enacted n S c) (done : List Ref) (items : List ExprId) :
    Enacts n c (doing done.reverse (items.map Task.eval)) (evalList S done items) id := by
  induction items generalizing done with
  | nil => exact .pure (p := id) done.reverse
  | cons item rest ih =>
    refine Enacts.cons (isPlain_evals id rest) (h.operand _ item _) fun value ↦ ?_
    simpa using ih (value :: done)

theorem names_evalArgs {S : Engine} {done vs : ArgValues} {args : List CallArg} {w w' : World}
    (h : Machine.evalArgs S done args w = (.ok vs, w')) :
    vs.map Prod.fst = done.reverse.map Prod.fst ++ args.map CallArg.name := by
  induction args generalizing done w with
  | nil =>
    cases h
    simp
  | cons arg rest ih =>
    rcases hf : Machine.elseRelease (S.eval arg.value) (done.reverse.map Prod.snd) w with ⟨_ | value, w₀⟩
    · rw [Machine.evalArgs, bind_of_error hf] at h
      cases h
    · rw [Machine.evalArgs, bind_of_ok hf] at h
      simpa using ih h

theorem length_evalList {S : Engine} {done vs : List Ref} {items : List ExprId} {w w' : World}
    (h : Machine.evalList S done items w = (.ok vs, w')) : vs.length = done.length + items.length := by
  induction items generalizing done w with
  | nil =>
    cases h
    simp
  | cons item rest ih =>
    rcases hf : Machine.elseRelease (S.eval item) done.reverse w with ⟨_ | value, w₀⟩
    · rw [Machine.evalList, bind_of_error hf] at h
      cases h
    · rw [Machine.evalList, bind_of_ok hf] at h
      rw [ih h]
      simp only [List.length_cons]
      omega

theorem popArgs_pushAll {vs : ArgValues} {args : List CallArg} (h : vs.map Prod.fst = args.map CallArg.name)
    (rest : List Task) (values : Stack Ref) :
    popArgs ⟨rest, values.pushAll (vs.map Prod.snd)⟩ args = (vs, ⟨rest, values⟩) := by
  have hlength : args.length = (vs.map Prod.snd).length := by
    have := congrArg List.length h
    simpa using this.symm
  have hzip : (vs.map Prod.fst).zip (vs.map Prod.snd) = vs := by
    rw [List.zip_map']
    simp
  simp only [popArgs, popValues, hlength, Stack.topmost_pushAll, Stack.drop_pushAll, ← h, hzip]

/-! ### Operands and what is done to them -/

theorem popValue_push (rest : List Task) (values : Stack Ref) (v : Ref) :
    popValue ⟨rest, values.push v⟩ = pure (v, ⟨rest, values⟩) := rfl

theorem bind (h : Enacted n S c) (name : String) (init : ExprId) :
    Enacts n c (doing [] [.eval init, .apply (.bind name)])
      (S.eval init >>= fun value ↦ retain value >>= fun _ ↦ define name value >>= fun _ ↦ pure value)
      single := by
  refine Enacts.cons rfl (h.eval init) fun value ↦ Enacts.task ?_
  simp only [runTask, applyOp, single, Stack.pushAll_cons, Stack.pushAll_nil, popValue_push, pure_bind]
  have hdefine : Enacts n c (fun _ rest values ↦ define name value >>= fun _ ↦
      pure (⟨rest, values.push value⟩, .running)) (define name value >>= fun _ ↦ pure value) single :=
    .calmly (Calm.modify _) (h.alike fun _ _ _ ↦ .basic (.define name value)) fun _ ↦
      .pure (p := single) value
  exact .calmly (g := fun _ ↦ retain value) (Calm.modify _) (h.alike fun _ _ _ ↦ .retain value)
    fun _ ↦ hdefine

theorem assign (h : Enacted n S c) (name : String) (value : ExprId) :
    Enacts n c (doing [] [.eval value, .apply (.assign name)])
      (S.eval value >>= fun value ↦ retain value >>= fun _ ↦
        elseRelease (assignVariable name value) [value] >>= fun _ ↦ pure value) single := by
  refine Enacts.cons rfl (h.eval value) fun value ↦ Enacts.yieldTask (h.alike fun _ _ _ ↦ ?_)
    fun E rest values ↦ rfl
  exact (Alike.retain value).bind fun _ ↦ ((Alike.assignVariable name value).elseRelease _).bind fun _ ↦ .pure _

theorem binary (h : Enacted n S c) (op : BinaryOp) (left right : ExprId) :
    Enacts n c (doing [] [.eval left, .eval right, .apply (.binary op)])
      (S.eval left >>= fun l ↦ elseRelease (S.eval right) [l] >>= fun r ↦ binaryOp S op l r) single := by
  refine Enacts.cons rfl (h.eval left) fun l ↦ Enacts.cons rfl (h.operand [l] right [l]) fun r ↦ ?_
  exact Enacts.yieldTask (g := fun E ↦ binaryOp E op l r) (h.alike fun _ _ _ ↦ .binaryOp op l r)
    fun E rest values ↦ by
      simp only [runTask, applyOp, Stack.pushAll_append, Stack.pushAll_cons, Stack.pushAll_nil, popValue_push,
        pure_bind]

theorem unary (h : Enacted n S c) (op : UnaryOp) (operand : ExprId) :
    Enacts n c (doing [] [.eval operand, .apply (.unary op)]) (S.eval operand >>= unaryOp S op) single := by
  refine Enacts.cons rfl (h.eval operand) fun r ↦ ?_
  exact Enacts.yieldTask (g := fun E ↦ unaryOp E op r) (h.alike fun _ _ _ ↦ .unaryOp op r)
    fun E rest values ↦ by
      simp only [runTask, applyOp, single, Stack.pushAll_cons, Stack.pushAll_nil, popValue_push, pure_bind]

theorem loopExit (h : Enacted n S c) (value : ExprId) :
    Enacts n c (doing [] [.eval value, .apply .loopExit])
      (S.eval value >>= fun v ↦ Machine.raise (.loopExit v) : Machine Ref) single := by
  refine Enacts.cons rfl (h.eval value) fun v ↦ Enacts.task ?_
  exact (Enacts.raise (.loopExit v)).congr fun E rest values w _ ↦ rfl

/-! ### Calls -/

theorem isPlain_args (args : List CallArg) (op : Apply) :
    (argTasks args ++ [Task.apply op]).all Task.IsPlain := by
  rw [List.all_append, Bool.and_eq_true]
  exact ⟨isPlain_evals CallArg.value args, rfl⟩

/-- The arguments of a call and then the call, above what was evaluated before. -/
theorem call (h : Enacted n S c) (below held : List Ref) (args : List CallArg) (op : Apply)
    {F : ArgValues → Machine Ref} (hF : ∀ vs : ArgValues, vs.map Prod.fst = args.map CallArg.name →
      Enacts n c (doing (below ++ vs.map Prod.snd) [.apply op]) (F vs) single) :
    Enacts n c (doing below (argTasks args ++ [.apply op]))
      (elseRelease (Machine.evalArgs S [] args) held >>= F) single := by
  have hargs := ((h.evalArgs [] args).doing_above below).elseRelease held
  rw [List.reverse_nil, List.map_nil, List.append_nil] at hargs
  refine Enacts.append (P := fun vs ↦ vs.map Prod.fst = args.map CallArg.name) rfl hargs
    (fun w vs w' hvs ↦ ?_) hF
  simpa using names_evalArgs (ok_of_elseRelease hvs)

theorem instantiate (h : Enacted n S c) (className : String) (args : Span) :
    Enacts n c (doing [] (argTasks (c.arena.argsAt args) ++ [.apply (.instantiate className args)]))
      (Machine.evalArgs S [] (c.arena.argsAt args) >>= Machine.instantiate S className) single := by
  refine Enacts.append (P := fun vs ↦ vs.map Prod.fst = (c.arena.argsAt args).map CallArg.name) rfl
    (h.evalArgs [] _) (fun w vs w' hvs ↦ by simpa using names_evalArgs hvs) fun vs hvs ↦ ?_
  refine Enacts.yieldTask (h.alike fun _ _ _ ↦ .instantiate className vs) fun E rest values ↦ ?_
  simp only [runTask, applyOp, popArgs_pushAll hvs]

theorem list {items : Span} (h : Enacted n S c) (hitems : (c.arena.listAt items).length = items.length)
    (itemClass : String) :
    Enacts n c (doing [] ((c.arena.listAt items).map Task.eval ++ [.apply (.list itemClass items.length)]))
      (Machine.evalList S [] (c.arena.listAt items) >>= listNamed itemClass) single := by
  refine Enacts.append (P := fun vs ↦ vs.length = items.length) rfl (h.evalList [] _) (fun w vs w' hvs ↦ ?_)
    fun vs hvs ↦ ?_
  · rw [length_evalList hvs, List.length_nil, Nat.zero_add, hitems]
  · refine Enacts.yieldTask (h.alike fun _ _ _ ↦ .listNamed itemClass vs) fun E rest values ↦ ?_
    simp only [runTask, applyOp, popValues, id, ← hvs, Stack.topmost_pushAll, Stack.drop_pushAll]

theorem methodCall (h : Enacted n S c) (receiver : ExprId) (method : String) (args : Span)
    (qualifier : Option String) :
    Enacts n c (doing [] (.eval receiver :: (argTasks (c.arena.argsAt args) ++
        [.apply (.method true method args qualifier)])))
      (evalMethodCall S (some receiver) method (c.arena.argsAt args) qualifier) single := by
  refine Enacts.cons (isPlain_args ..) (h.eval receiver) fun target ↦ h.call _ _ _ _ fun vs hvs ↦ ?_
  refine Enacts.yieldTask (h.alike fun _ _ _ ↦ .callMethod target method qualifier vs)
    fun E rest values ↦ ?_
  simp only [runTask, applyOp, Stack.pushAll_append, popArgs_pushAll hvs]
  rfl

/-- Without a receiver `this` is called.  It is shared before the arguments are evaluated, or after. -/
theorem ownMethodCall (h : Enacted n S c) (method : String) (args : Span) (qualifier : Option String) :
    Enacts n c (doing [] (argTasks (c.arena.argsAt args) ++ [.apply (.method false method args qualifier)]))
      (evalMethodCall S none method (c.arena.argsAt args) qualifier) single := by
  have hcall : Enacts n c (doing [] (argTasks (c.arena.argsAt args) ++
      [.apply (.method false method args qualifier)]))
      (share c.this >>= fun target ↦ elseRelease (Machine.evalArgs S [] (c.arena.argsAt args)) [target] >>=
        callMethod S target method qualifier) single := by
    refine .share_bind (h.call _ _ _ _ fun vs hvs ↦ Enacts.task ?_)
    refine (Enacts.yield (h.alike fun _ _ _ ↦ .callMethod c.this method qualifier vs)).restart
      fun w _ _ hw _ w₁ hs ↦ ⟨w₁.retain (.object c.this), .retain_right (.refl hs.symm.inert) _, fun E rest values ↦ ?_⟩
    have hthis : popReceiver ⟨rest, values⟩ false w₁ =
        (.ok (c.this, ⟨rest, values⟩), w₁.retain (.object c.this)) := by
      rw [← hw.context, ← hs.context]
      rfl
    simp only [runTask, applyOp, List.nil_append, popArgs_pushAll hvs]
    rw [bind_of_ok hthis]
  refine hcall.congr_action fun w hw ↦ ?_
  have hreceiver : evalReceiver S none w = share c.this w := by
    rw [evalReceiver, get_bind, hw.context]
  exact bind_of_eq hreceiver

/-! ### Closures -/

theorem payload_of_expectClosure {w w' : World} {callee : Ref} {closure : Closure}
    (h : expectClosure callee w = (.ok closure, w')) : w.heap.payload callee = .closure closure ∧ w' = w := by
  rw [expectClosure, get_bind] at h
  cases hp : w.heap.payload callee with
  | closure c =>
    simp only [hp] at h
    cases h
    exact ⟨rfl, rfl⟩
  | _ =>
    simp only [hp] at h
    exact nomatch congrArg Prod.fst h

/-- A closure that does not run as a coroutine, or a value that is no closure, is treated alike in and out
of coroutines. -/
theorem callClosure_eq {w : World} {callee : Ref} (h : w.isCoroutineClosure callee = false) (E : Engine)
    (args : ArgValues) : callClosure E callee args w = (.done <$> invokeClosureNow E callee args) w := by
  rcases hexpect : elseRelease (expectClosure callee) (args.map Prod.snd) w with ⟨i | closure, w'⟩
  · rw [← bind_pure_comp]
    have hnow : invokeClosureNow E callee args w = (.error i, w') := bind_of_error hexpect
    exact (bind_of_error hexpect).trans (bind_of_error hnow).symm
  · obtain ⟨hp, rfl⟩ := payload_of_expectClosure (ok_of_elseRelease hexpect)
    have hkind : closure.kind = .method := by
      cases hc : closure.kind with
      | method => rfl
      | coroutine => simp [World.isCoroutineClosure, hp, hc] at h
    refine (bind_of_ok hexpect).trans ?_
    rw [if_pos hkind]

theorem awaitInvoked_done (k : Continuation) (act : Machine Ref) (callee : Ref) :
    (awaitInvoked k (.done <$> act) >>= fun result ↦ release callee >>= fun _ ↦ pure result) =
      yieldValue k (thenRelease act [callee]) := by
  funext w
  rw [← bind_pure_comp]
  rcases hact : act w with ⟨result, w'⟩
  match result with
  | .ok v =>
    have hdone : attempt (act >>= fun v ↦ pure (Invoked.done v)) w = (.ok (.ok (.done v)), w') :=
      attempt_of_ok (bind_of_ok hact)
    have hthen : thenRelease act [callee] w = (.ok v, w'.release [.object callee]) := by
      simp only [thenRelease, hact]
      rfl
    have hawait : awaitInvoked k (act >>= fun v ↦ pure (Invoked.done v)) w =
        (.ok (k.push v, .running), w') := bind_of_ok hdone
    have hyield : yieldValue k (thenRelease act [callee]) w =
        (.ok (k.push v, .running), w'.release [.object callee]) := bind_of_ok (attempt_of_ok hthen)
    exact (bind_of_ok hawait).trans hyield.symm
  | .error (.raised e) =>
    have hdone : attempt (act >>= fun v ↦ pure (Invoked.done v)) w = (.ok (.error e), w') :=
      attempt_of_raised (bind_of_error hact)
    have hthen : thenRelease act [callee] w = (.error (.raised e), w'.release [.object callee]) := by
      simp only [thenRelease, hact]
      rfl
    have hawait : awaitInvoked k (act >>= fun v ↦ pure (Invoked.done v)) w =
        (.ok (k, .failed e), w') := bind_of_ok hdone
    have hyield : yieldValue k (thenRelease act [callee]) w =
        (.ok (k, .failed e), w'.release [.object callee]) := bind_of_ok (attempt_of_raised hthen)
    exact (bind_of_ok hawait).trans hyield.symm
  | .error .exhausted =>
    have hdone : attempt (act >>= fun v ↦ pure (Invoked.done v)) w = (.error .exhausted, w') :=
      attempt_of_exhausted (bind_of_error hact)
    have hthen : thenRelease act [callee] w = (.error .exhausted, w') := by
      simp only [thenRelease, hact]
    exact (bind_of_error (bind_of_error hdone)).trans (bind_of_error (attempt_of_exhausted hthen)).symm

theorem invoke (h : Enacted n S c) (callee : ExprId) (args : Span) :
    Enacts n c (doing [] (.eval callee :: (argTasks (c.arena.argsAt args) ++ [.apply (.invoke args)])))
      (plainInvoke S callee (c.arena.argsAt args)) single := by
  refine Enacts.cons (isPlain_args ..) (h.eval callee) fun target ↦ h.call _ _ _ _ fun vs hvs ↦ Enacts.task ?_
  have hnow : Enacts n c (fun E rest values ↦ yieldValue ⟨rest, values⟩
      (thenRelease (invokeClosureNow E target vs) [target]))
      (thenRelease (invokeClosureNow S target vs) [target]) single :=
    .yield (h.alike fun _ _ _ ↦ (Alike.invokeClosureNow target vs).thenRelease [target])
  have hends ⦃w r w'⦄ (hrun : attempt (get >>= fun w : World ↦ if w.isCoroutineClosure target then exhausted
      else thenRelease (invokeClosureNow S target vs) [target]) w = (.ok r, w')) :
      w.isCoroutineClosure target = false ∧
        attempt (thenRelease (invokeClosureNow S target vs) [target]) w = (.ok r, w') := by
    simp only [attempt, get_bind] at hrun
    cases hco : w.isCoroutineClosure target with
    | true =>
      rw [if_pos hco] at hrun
      cases congrArg Prod.fst hrun
    | false =>
      rw [if_neg (by simp [hco])] at hrun
      exact ⟨rfl, hrun⟩
  have hplain := hnow.recount fun w r w' hw hrun ↦
    ⟨w, w', .refl hw.inert, (hends hrun).2, fun hw' ↦ .refl hw'.inert⟩
  refine hplain.restart fun w r w' hw hrun w₁ hs ↦ ⟨w₁, .refl hs.symm.inert, fun E rest values ↦ ?_⟩
  have hco : w₁.isCoroutineClosure target = false := by
    rw [hs.read (f := fun w ↦ w.isCoroutineClosure target) fun w ↦ w.isCoroutineClosure_bare target]
    exact (hends hrun).1
  simp only [runTask, applyOp, Stack.pushAll_append, popArgs_pushAll hvs]
  show (awaitInvoked ⟨rest, values⟩ (callClosure E target vs) >>= fun result ↦ release target >>= fun _ ↦
    pure result) w₁ = _
  rw [← awaitInvoked_done]
  refine bind_of_eq (bind_of_eq ?_)
  simp only [attempt, callClosure_eq hco]

/-! ### Tests -/

theorem refines_thenRelease {α : Type} {σ : Setting} {f g : Machine α} (h : Refines σ f g) (held : List Ref) :
    Refines σ (elseRelease f held) (thenRelease g held) := by
  intro w w₁ r w' hw hs hrun hne
  rcases hf : f w with ⟨result, w₀⟩
  simp only [elseRelease, hf] at hrun
  rcases result with (e | _) | a
  · cases hrun
    obtain ⟨w₁', hg, hs', hon⟩ := h hw hs hf hne
    exact ⟨w₁'.release (held.map .object), by simp only [thenRelease, hg], hs'.release _ _,
      hon.trans (.heap w₀ _)⟩
  · cases hrun
    exact absurd rfl hne
  · cases hrun
    obtain ⟨w₁', hg, hs', hon⟩ := h hw hs hf hne
    exact ⟨w₁'.release (held.map .object), by simp only [thenRelease, hg], hs'.release_right _, hon⟩

/-- A task that takes a Boolean off the stack and goes on with it. -/
theorem test (h : Enacted n S c) {v : Ref} {t : Task} (next : Bool → Start) {F : Bool → Machine Ref}
    (hF : ∀ b, Enacts n c (next b) (F b) single)
    (ht : ∀ E rest values, runTask E c.arena ⟨rest, values.push v⟩ t =
      attempt (thenRelease (expectBool v) [v]) >>= Enacts.orFail next E rest values) :
    Enacts n c (doing [v] [t]) (elseRelease (expectBool v) [v] >>= F) single := by
  have hexpect (m : Nat) (hm : n ≤ m) (σ : Setting) :
      Refines σ (elseRelease (expectBool v) [v]) (thenRelease (expectBool v) [v]) :=
    refines_thenRelease (h.alike (fun _ _ _ ↦ .expectBool v) m hm σ) [v]
  have htest := Enacts.attempted (g := fun _ ↦ thenRelease (expectBool v) [v]) hexpect hF
  exact Enacts.task (htest.congr fun E rest values w _ ↦ congrArg (fun act ↦ act w) (ht E rest values))

theorem popTruth_bind {v : Ref} {next : Bool → Start} {E : Engine} {rest : List Task} {values : Stack Ref}
    {F : Except EvalError Bool × Continuation → Machine (Continuation × Progress)}
    (hok : ∀ b, F (.ok b, ⟨rest, values⟩) = next b E rest values)
    (hfailed : ∀ e, F (.error e, ⟨rest, values⟩) = pure (⟨rest, values⟩, .failed e)) :
    (popTruth ⟨rest, values.push v⟩ >>= F) =
      attempt (thenRelease (expectBool v) [v]) >>= Enacts.orFail next E rest values := by
  have hpop : popTruth ⟨rest, values.push v⟩ =
      attempt (thenRelease (expectBool v) [v]) >>= fun r ↦ pure (r, ⟨rest, values⟩) := rfl
  rw [hpop, bind_assoc]
  congr 1
  funext r
  rw [pure_bind]
  cases r with
  | ok b => exact hok b
  | error e => exact hfailed e

theorem pushBoolean (h : Enacted n S c) (b : Bool) :
    Enacts n c (fun _ rest values ↦ boolean b >>= fun v ↦ pure (⟨rest, values.push v⟩, .running)) (boolean b)
      single := by
  refine .push (fun _ _ h ↦ by cases h) fun σ ↦ ?_
  exact h.alike (fun _ _ _ ↦ .boolean b) n (Nat.le_refl n) σ

theorem pushNil (h : Enacted n S c) :
    Enacts n c (fun _ rest values ↦ nil >>= fun v ↦ pure (⟨rest, values.push v⟩, .running)) nil single := by
  refine .push (fun _ _ h ↦ by cases h) fun σ ↦ ?_
  exact h.alike (fun _ _ _ ↦ .nil) n (Nat.le_refl n) σ

theorem evalTruth (h : Enacted n S c) (operand : ExprId) :
    Enacts n c (doing [] [.eval operand, .checkBool]) (evalTruth S operand) single := by
  refine Enacts.cons rfl (h.eval operand) fun r ↦ h.test _ (fun b ↦ (h.pushBoolean b).thenRelease [r])
    fun E rest values ↦ popTruth_bind (fun _ ↦ rfl) fun _ ↦ rfl

theorem shortCircuit (h : Enacted n S c) (op : BinaryOp) (left right : ExprId) :
    Enacts n c (doing [] [.eval left, .shortCircuit op right]) (evalShortCircuit S op left right) single := by
  refine Enacts.cons rfl (h.eval left) fun l ↦ h.test (fun decided E rest values ↦
    if (op == .and) != decided then boolean decided >>= fun v ↦ pure (⟨rest, values.push v⟩, .running)
    else doing [] [.eval right, .checkBool] E rest values) (fun decided ↦ ?_)
    fun E rest values ↦ popTruth_bind (fun _ ↦ rfl) fun _ ↦ rfl
  split
  · exact (h.pushBoolean decided).thenRelease [l]
  · exact (h.evalTruth right).thenRelease [l]

/-! ### Conditionals -/

theorem clauses (h : Enacted n S c) (span : Span) (otherwise : Option ExprId) {cs : List Clause} {i : Nat}
    (hcs : (c.arena.clausesAt span).drop i = cs) :
    Enacts n c (fun _ rest values ↦ nextClause c.arena ⟨rest, values⟩ span i otherwise)
      (evalClauses S otherwise cs) single := by
  induction cs generalizing i with
  | nil =>
    have hnone : (c.arena.clausesAt span)[i]? = none := by
      rw [List.getElem?_eq_none_iff]
      exact List.drop_eq_nil_iff.mp hcs
    cases otherwise with
    | none =>
      refine h.pushNil.congr fun E rest values w _ ↦ ?_
      simp only [nextClause, hnone]
      rfl
    | some e =>
      refine (h.eval e).congr fun E rest values w _ ↦ ?_
      simp only [nextClause, hnone]
      rfl
  | cons clause cs ih =>
    have hsome : (c.arena.clausesAt span)[i]? = some clause := by
      rw [← List.head?_drop, hcs, List.head?_cons]
    have hrest : (c.arena.clausesAt span).drop (i + 1) = cs := by
      rw [← List.tail_drop, hcs, List.tail_cons]
    have hclause : Enacts n c (doing [] [.eval clause.test, .cond span i otherwise])
        (evalClauses S otherwise (clause :: cs)) single := by
      refine Enacts.cons rfl (h.eval clause.test) fun v ↦ h.test (fun b E rest values ↦
        if b then doing [] [.eval clause.body] E rest values
        else nextClause c.arena ⟨rest, values⟩ span (i + 1) otherwise) (fun b ↦ ?_)
        fun E rest values ↦ popTruth_bind (fun b ↦ ?_) fun _ ↦ rfl
      · cases b with
        | true => exact (h.eval clause.body).thenRelease [v]
        | false => exact (ih hrest).release_bind [.object v]
      · cases b with
        | true =>
          simp only [hsome]
          rfl
        | false => rfl
    refine hclause.congr fun E rest values w _ ↦ ?_
    simp only [nextClause, hsome]
    rfl

end Enacted

end MindScript.Machine
