import MindScript.Proofs.Alike.Values

/-!
# Calls and immediate evaluation are built alike

The loops of immediate evaluation take as many rounds as the engine has budget, so from here on the second
engine has at least the budget of the first.
-/

namespace MindScript.Machine

/-- Dispatch once the qualifier, if any, has been looked up. -/
def dispatchFrom (receiver : Ref) (name : String) (start : Option ClassId) : Machine Member := do
  let c := (← get).heap.classOf receiver
  match ← attempt (onClasses (Registry.resolve c name start)) with
  | .ok m => return m
  | .error e => if start.isNone && receiver = .nil then raiseKind (.nilDereference name) else raise e

theorem resolveCall_eq (receiver : Ref) (name : String) (qualifier : Option String) :
    resolveCall receiver name qualifier =
      (match qualifier with
        | some q => some <$> lookupClass q
        | none => pure none) >>= dispatchFrom receiver name := by
  cases qualifier <;> rfl

namespace Alike

variable {E E' : Engine} {σ : Setting}

/-! ### Contexts and dispatch -/

theorem newContext (arena : Arena) (this : Ref) (c : ClassId) :
    Alike E E' σ (newContext arena this c) (newContext arena this c) :=
  (Alike.basic .newScope).bind fun _ ↦ .pure _

theorem chainedContext (arena : Arena) (scope : ScopeId) (this : Ref) (c : ClassId) :
    Alike E E' σ (chainedContext arena scope this c) (chainedContext arena scope this c) :=
  (Alike.basic (.chainedScope scope)).bind fun _ ↦ (retain this).bind fun _ ↦ .pure _

theorem closureContext (c : Closure) : Alike E E' σ (closureContext c) (closureContext c) :=
  chainedContext ..

theorem captureContext : Alike E E' σ captureContext captureContext :=
  .read (fun _ ↦ rfl) (fun _ ↦ rfl) fun _ _ ↦ chainedContext ..

theorem failLoopExit {α : Type} (r : Except EvalError α) :
    Alike E E' σ (failLoopExit r) (failLoopExit r) := by
  cases r with
  | ok a => exact .pure a
  | error e => exact (releaseAll _).bind fun _ ↦ .raise _

theorem runScript (context : Context) (name : String) (params : Span) (body : ExprId)
    (args : ArgValues) :
    Alike E E' σ (runScript E context name params body args)
      (runScript E' context name params body args) := by
  refine Alike.bind (.withContext context ((bindParams ..).bind fun _ ↦ .eval body)) fun result ↦ ?_
  exact (releaseLinks _).bind fun _ ↦ failLoopExit _

theorem dispatchFrom (receiver : Ref) (name : String) (start : Option ClassId) :
    Alike E E' σ (dispatchFrom receiver name start) (dispatchFrom receiver name start) := by
  refine .read (fun _ ↦ by simp) (fun _ ↦ by simp) fun w _ ↦ ?_
  refine (Alike.basic (.resolve ..)).attempt.bind fun r ↦ ?_
  cases r with
  | ok m => exact .pure m
  | error e =>
    dsimp only
    split
    · exact raiseKind _
    · exact .raise e

theorem resolveCall (receiver : Ref) (name : String) (qualifier : Option String) :
    Alike E E' σ (resolveCall receiver name qualifier) (resolveCall receiver name qualifier) := by
  rw [resolveCall_eq]
  refine Alike.bind ?_ (dispatchFrom receiver name)
  cases qualifier with
  | none => exact .pure none
  | some q => exact (lookupClass q).map some

theorem resolveMethod (receiver : Ref) (name : String) (qualifier : Option String) :
    Alike E E' σ (resolveMethod receiver name qualifier) (resolveMethod receiver name qualifier) := by
  refine (resolveCall ..).bind fun m ↦ ?_
  split
  · exact raiseKind _
  · exact .pure m

theorem callMethod (receiver : Ref) (name : String) (qualifier : Option String) (args : ArgValues) :
    Alike E E' σ (callMethod E receiver name qualifier args)
      (callMethod E' receiver name qualifier args) :=
  ((resolveMethod ..).elseRelease _).bind fun m ↦ .invoke receiver m args

theorem binaryOp (op : BinaryOp) (l r : Ref) : Alike E E' σ (binaryOp E op l r) (binaryOp E' op l r) :=
  callMethod ..

theorem unaryOp (op : UnaryOp) (r : Ref) : Alike E E' σ (unaryOp E op r) (unaryOp E' op r) :=
  callMethod ..

/-! ### Frames -/

theorem spawnFrame (m : MindId) (name : String) (owner : ClassId) (parent : Option FrameId)
    (frame : Frame) (deferred : Bool) (hm : m.index < σ.minds)
    (hparent : ∀ p, parent = some p → σ.current = some (m, p)) (hfresh : frame.Fresh) :
    Alike E E' σ (spawnFrame E m name owner parent frame deferred)
      (spawnFrame E' m name owner parent frame deferred) := by
  cases deferred with
  | true => exact .basic (.deferFrame m name owner parent frame hm hparent hfresh)
  | false => exact .spawn m name owner parent frame hm hparent hfresh .pure

/-- What goes on with the frame of a scripted coroutine can rely on a fresh one. -/
theorem scriptFrame_bind (context : Context) (name : String) (params : Span) (body : ExprId) (args : ArgValues)
    {α : Type} {F G : Frame → Machine α} (hF : ∀ frame : Frame, frame.Fresh → Alike E E' σ (F frame) (G frame)) :
    Alike E E' σ (scriptFrame E context name params body args >>= F)
      (scriptFrame E' context name params body args >>= G) := by
  unfold Machine.scriptFrame
  rw [bind_assoc, bind_assoc]
  refine Alike.bind (.withContext context (bindParams ..)) fun ⟨bound, after⟩ ↦ ?_
  cases bound with
  | ok _ =>
    dsimp only
    rw [pure_bind, pure_bind]
    exact hF _ (.script after body)
  | error e =>
    dsimp only
    rw [bind_assoc, bind_assoc]
    exact (releaseLinks _).bind fun _ ↦ .raise e

theorem memberFrame_bind (this : Ref) (m : Member) (args : ArgValues) {α : Type} {F G : Frame → Machine α}
    (hF : ∀ frame : Frame, frame.Fresh → Alike E E' σ (F frame) (G frame)) :
    Alike E E' σ (memberFrame E this m args >>= F) (memberFrame E' this m args >>= G) := by
  unfold Machine.memberFrame
  split
  · rw [bind_assoc, bind_assoc]
    exact (newContext ..).bind fun _ ↦ scriptFrame_bind _ _ _ _ _ hF
  · simp only [bind_assoc, pure_bind]
    exact ((bindNative ..).elseRelease _).bind fun values ↦ (newContext ..).bind fun context ↦
      hF _ (.native context _ values)
  · rw [bind_assoc, bind_assoc]
    exact (releaseAll _).bind fun _ ↦ raiseKind _

theorem memberFrame (this : Ref) (m : Member) (args : ArgValues) :
    Alike E E' σ (memberFrame E this m args) (memberFrame E' this m args) := by
  have hbound : Alike E E' σ (Machine.memberFrame E this m args >>= Pure.pure)
      (Machine.memberFrame E' this m args >>= Pure.pure) := memberFrame_bind this m args fun frame _ ↦ .pure frame
  rwa [bind_pure, bind_pure] at hbound

theorem spawnMember (mind : MindId) (parent : Option FrameId) (this : Ref) (m : Member)
    (args : ArgValues) (deferred : Bool)
    (hparent : ∀ p, parent = some p → σ.current = some (mind, p)) :
    Alike E E' σ (spawnMember E mind parent this m args deferred)
      (spawnMember E' mind parent this m args deferred) := by
  refine .read (fun _ ↦ rfl) (fun _ ↦ rfl) fun w _ ↦ ?_
  split
  · exact (releaseAll _).bind fun _ ↦ raiseKind _
  · next howns =>
    have hmind : mind.index < w.minds.size := by simpa [World.ownsMind] using howns
    split
    · exact (releaseAll _).bind fun _ ↦ .raise _
    · exact memberFrame_bind _ _ _ fun _ hfresh ↦ spawnFrame _ _ _ _ _ _ hmind hparent hfresh

theorem callCoroutine (receiver : Ref) (name : String) (qualifier : Option String) (args : ArgValues) :
    Alike E E' σ (callCoroutine E receiver name qualifier args)
      (callCoroutine E' receiver name qualifier args) := by
  refine ((resolveCall ..).elseRelease _).bind fun m ↦ ?_
  split
  · refine .read (fun _ ↦ rfl) (fun _ ↦ rfl) fun w hw ↦ ?_
    split
    · next mind parent hcur =>
      refine (spawnMember _ _ _ _ _ _ fun p hp ↦ ?_).map _
      rw [← hw.current, hcur, Option.some.inj hp]
    · exact (releaseAll _).bind fun _ ↦ raiseKind _
  · exact (Alike.invoke receiver m args).map _

/-! ### Closures -/

theorem expectClosure (callee : Ref) : Alike E E' σ (expectClosure callee) (expectClosure callee) := by
  refine .read (fun _ ↦ by simp) (fun _ ↦ by simp) fun w _ ↦ ?_
  split
  · exact .pure _
  · exact typeMismatch ..

theorem invokeClosureNow (callee : Ref) (args : ArgValues) :
    Alike E E' σ (invokeClosureNow E callee args) (invokeClosureNow E' callee args) := by
  refine ((expectClosure callee).elseRelease _).bind fun c ↦ ?_
  split
  · exact (releaseAll _).bind fun _ ↦ raiseKind _
  · refine .read (fun _ ↦ rfl) (fun _ ↦ rfl) fun w _ ↦ ?_
    exact .withInvocation _ _ ((closureContext c).bind fun _ ↦ runScript ..)

theorem callClosure (callee : Ref) (args : ArgValues) :
    Alike E E' σ (callClosure E callee args) (callClosure E' callee args) := by
  refine ((expectClosure callee).elseRelease _).bind fun c ↦ ?_
  split
  · exact (invokeClosureNow callee args).map _
  · refine .read (fun _ ↦ rfl) (fun _ ↦ rfl) fun w hw ↦ ?_
    split
    · exact (releaseAll _).bind fun _ ↦ raiseKind _
    · next mind parent hcur =>
      refine (closureContext c).bind fun context ↦ scriptFrame_bind _ _ _ _ _ fun frame hfresh ↦ ?_
      refine (spawnFrame _ _ _ _ _ _ (hw.rooted.current _ _ hcur) (fun p hp ↦ ?_) hfresh).map _
      rw [← hw.current, hcur, Option.some.inj hp]

/-! ### Construction -/

theorem constructCore? (c : ClassId) (make : Machine Ref) (h : Machine.constructCore? c = some make) :
    Alike E E' σ make make := by
  unfold Machine.constructCore? at h
  split at h
  · obtain rfl := Option.some.inj h
    exact nil
  · split at h
    · obtain rfl := Option.some.inj h
      exact list ..
    · split at h
      · obtain rfl := Option.some.inj h
        exact zeroValue c
      · exact absurd h (Option.some_ne_none make).symm

theorem zeroValues (slots : List Slot) : Alike E E' σ (zeroValues slots) (zeroValues slots) := by
  induction slots with
  | nil => exact .pure _
  | cons slot rest ih => exact (zeroValue _).bind fun _ ↦ ih.bind fun _ ↦ .pure _

theorem newInstance (c : ClassId) : Alike E E' σ (newInstance c) (newInstance c) :=
  .read (fun _ ↦ rfl) (fun _ ↦ rfl) fun _ _ ↦ (zeroValues _).bind fun slots ↦ .basic (.allocate c slots)

theorem construct (c : ClassId) (args : ArgValues) :
    Alike E E' σ (construct E c args) (construct E' c args) := by
  refine .read (fun _ ↦ rfl) (fun _ ↦ rfl) fun w _ ↦ ?_
  split
  · next make hmake =>
    refine (constructCore? c make hmake).bind fun value ↦ ?_
    split
    · exact .pure value
    · exact (releaseAll _).bind fun _ ↦ raiseKind _
  · refine (newInstance c).bind fun object ↦ (Alike.basic (.findMember ..)).bind fun found ↦ ?_
    cases found with
    | some constructor =>
      refine (retain object).bind fun _ ↦ (Alike.invoke ..).attempt.bind fun result ↦ ?_
      cases result with
      | ok value => exact (release value).bind fun _ ↦ .pure object
      | error e =>
        exact (Alike.basic (.disarm object)).bind fun _ ↦ (release object).bind fun _ ↦ .raise e
    | none =>
      dsimp only
      split
      · exact .pure object
      · exact (releaseAll _).bind fun _ ↦ raiseKind _

theorem instantiate (name : String) (args : ArgValues) :
    Alike E E' σ (instantiate E name args) (instantiate E' name args) :=
  ((lookupClass name).elseRelease _).bind fun c ↦ construct c args

/-! ### Branches and groups -/

theorem spawnBranch (body : ExprId) : Alike E E' σ (spawnBranch E body) (spawnBranch E' body) := by
  refine .read (fun _ ↦ rfl) (fun _ ↦ rfl) fun w hw ↦ ?_
  split
  · exact raiseKind _
  · next mind hmind =>
    have howned : mind.index < w.minds.size := by
      cases hc : w.current with
      | none => exact hw.rooted.defaultMind mind (by simpa [hc] using hmind)
      | some step =>
        have hstep : step.1 = mind := by simpa [hc] using hmind
        exact hstep ▸ hw.rooted.current step.1 step.2 hc
    refine captureContext.bind fun context ↦ ?_
    refine (spawnFrame _ _ _ none _ _ howned (fun p hp ↦ absurd hp.symm (Option.some_ne_none p))
      (.script context body)).bind fun h ↦ ?_
    exact (Alike.basic (.settleMind mind)).bind fun _ ↦ .pure h

theorem spawnGroup (policy : Policy) (branches : Span) :
    Alike E E' σ (spawnGroup E policy branches) (spawnGroup E' policy branches) := by
  refine .read (fun _ ↦ rfl) (fun _ ↦ rfl) fun w hw ↦ ?_
  split
  · exact raiseKind _
  · next mind parent hcur =>
    refine captureContext.bind fun context ↦
      spawnFrame _ _ _ _ _ _ (hw.rooted.current _ _ hcur) (fun p hp ↦ ?_) (.group context policy branches)
    rw [← hw.current, hcur, Option.some.inj hp]

/-! ### Immediate evaluation -/

theorem evalArgs (done : ArgValues) (args : List CallArg) :
    Alike E E' σ (evalArgs E done args) (evalArgs E' done args) := by
  induction args generalizing done with
  | nil => exact .pure _
  | cons arg rest ih => exact ((Alike.eval arg.value).elseRelease _).bind fun _ ↦ ih _

theorem evalList (done : List Ref) (items : List ExprId) :
    Alike E E' σ (evalList E done items) (evalList E' done items) := by
  induction items generalizing done with
  | nil => exact .pure _
  | cons e rest ih => exact ((Alike.eval e).elseRelease _).bind fun _ ↦ ih _

theorem evalReceiver (receiver : Option ExprId) :
    Alike E E' σ (evalReceiver E receiver) (evalReceiver E' receiver) := by
  cases receiver with
  | some e => exact .eval e
  | none => exact .read (fun _ ↦ rfl) (fun _ ↦ rfl) fun _ _ ↦ share _

theorem evalTruth (operand : ExprId) : Alike E E' σ (evalTruth E operand) (evalTruth E' operand) :=
  (Alike.eval operand).bind fun r ↦ ((expectBool r).elseRelease [r]).bind fun b ↦
    (boolean b).thenRelease [r]

theorem evalShortCircuit (op : BinaryOp) (left right : ExprId) :
    Alike E E' σ (evalShortCircuit E op left right) (evalShortCircuit E' op left right) := by
  refine (Alike.eval left).bind fun l ↦ ((expectBool l).elseRelease [l]).bind fun decided ↦ ?_
  split
  · exact (boolean decided).thenRelease [l]
  · exact (evalTruth right).thenRelease [l]

theorem evalMethodCall (receiver : Option ExprId) (method : String) (args : List CallArg)
    (qualifier : Option String) :
    Alike E E' σ (evalMethodCall E receiver method args qualifier)
      (evalMethodCall E' receiver method args qualifier) :=
  (evalReceiver receiver).bind fun target ↦ ((evalArgs [] args).elseRelease [target]).bind fun _ ↦
    callMethod ..

theorem evalInvoke (callee : ExprId) (args : List CallArg) :
    Alike E E' σ (evalInvoke E callee args) (evalInvoke E' callee args) :=
  (Alike.eval callee).bind fun target ↦ ((evalArgs [] args).elseRelease [target]).bind fun values ↦
    (invokeClosureNow target values).thenRelease [target]

theorem evalClauses (otherwise : Option ExprId) (clauses : List Clause) :
    Alike E E' σ (evalClauses E otherwise clauses) (evalClauses E' otherwise clauses) := by
  induction clauses with
  | nil =>
    cases otherwise with
    | some e => exact .eval e
    | none => exact nil
  | cons clause rest ih =>
    refine (Alike.eval clause.test).bind fun test ↦ ((expectBool test).elseRelease _).bind fun b ↦ ?_
    split
    · exact (Alike.eval clause.body).thenRelease [test]
    · exact (release test).bind fun _ ↦ ih

theorem evalSequence (last : Ref) (items : List ExprId) :
    Alike E E' σ (evalSequence E last items) (evalSequence E' last items) := by
  induction items generalizing last with
  | nil => exact .pure last
  | cons e rest ih =>
    exact ((Alike.eval e).elseRelease [last]).bind fun value ↦ (release last).bind fun _ ↦ ih value

theorem evalBlock (items : List ExprId) : Alike E E' σ (evalBlock E items) (evalBlock E' items) := by
  unfold Machine.evalBlock
  split
  · exact nil
  · exact .inScope (nil.bind fun last ↦ evalSequence last items)

theorem evalRounds (body : ExprId) {n n' : Nat} (hn : Spans E E' n n') :
    Alike E E' σ (evalRounds E body n) (evalRounds E' body n') := by
  induction n generalizing n' with
  | zero =>
    refine .exhausted _ fun hb ↦ ?_
    obtain rfl := hn.same hb
    rfl
  | succ n ih =>
    obtain ⟨k, rfl, hk⟩ := hn.succ
    exact (Alike.eval body).bind fun value ↦ (release value).bind fun _ ↦ ih hk

theorem evalLoop (hb : E.budget ≤ E'.budget) (body : ExprId) :
    Alike E E' σ (evalLoop E body) (evalLoop E' body) := by
  refine .rescue _ (evalRounds body (.of_budget hb)) fun e ↦ ?_
  split
  · exact .pure _
  · exact .raise e

theorem evalGuarded (body : ExprId) (errorName : String) (handler : ExprId) :
    Alike E E' σ (evalGuarded E body errorName handler) (evalGuarded E' body errorName handler) := by
  refine .rescue _ (.eval body) fun e ↦ .inScope ?_
  exact (string _).bind fun _ ↦ (Alike.basic (.define ..)).bind fun _ ↦ .eval handler

theorem makeClosure (params : Span) (body : ExprId) (kind : CallableKind) :
    Alike E E' σ (makeClosure params body kind) (makeClosure params body kind) :=
  .read (fun _ ↦ rfl) (fun _ ↦ rfl) fun _ _ ↦ (Alike.basic (.retainLink _)).bind fun _ ↦
    (retain _).bind fun _ ↦ newValue ..

theorem evalBranch (body : ExprId) : Alike E E' σ (evalBranch E body) (evalBranch E' body) :=
  (spawnBranch body).bind fun h ↦ (handleValue h).bind fun value ↦ (releaseLinks _).bind fun _ ↦
    .pure value

/-- Evaluation of a node, whatever its kind. -/
theorem evalNode (hb : E.budget ≤ E'.budget) (id : ExprId) :
    Alike E E' σ (evalNode E id) (evalNode E' id) := by
  refine .read (fun _ ↦ rfl) (fun _ ↦ rfl) fun w _ ↦ ?_
  dsimp only
  cases w.context.arena.node id with
  | nil => exact nil
  | bool b => exact boolean b
  | int i => exact integer i
  | real bits => exact real _
  | str text => exact string text
  | sym name => exact symbol name
  | this => exact evalReceiver none
  | ident name => exact lookupVariable name
  | bind name init =>
    exact (Alike.eval init).bind fun value ↦ (retain value).bind fun _ ↦
      (Alike.basic (.define name value)).bind fun _ ↦ .pure value
  | assign name value =>
    exact (Alike.eval value).bind fun value ↦ (retain value).bind fun _ ↦
      ((assignVariable name value).elseRelease [value]).bind fun _ ↦ .pure value
  | binary op left right =>
    dsimp only
    split
    · exact evalShortCircuit op left right
    · exact (Alike.eval left).bind fun l ↦ ((Alike.eval right).elseRelease [l]).bind fun r ↦ binaryOp op l r
  | unary op operand => exact (Alike.eval operand).bind fun r ↦ unaryOp op r
  | methodCall receiver method args qualifier => exact evalMethodCall ..
  | coroutineCall receiver coroutine args qualifier => exact raiseKind _
  | invoke callee args => exact evalInvoke ..
  | instantiate className args => exact (evalArgs [] _).bind fun values ↦ instantiate className values
  | conditional clauses otherwise => exact evalClauses ..
  | block items => exact evalBlock _
  | loop body => exact evalLoop hb body
  | loopExit value =>
    cases value with
    | some e => exact (Alike.eval e).bind fun value ↦ .raise _
    | none => exact nil.bind fun value ↦ .raise _
  | guarded body errorName handler => exact evalGuarded ..
  | closure params body kind => exact makeClosure ..
  | list itemClass items => exact (evalList [] _).bind fun values ↦ listNamed itemClass values
  | branch body => exact evalBranch body
  | concurrent policy branches => exact raiseKind _

end Alike

end MindScript.Machine
