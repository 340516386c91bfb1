import MindScript.Proofs.Alike.Calls
import MindScript.Proofs.Calls.Calm
import MindScript.Proofs.Class.Dispatch

/-!
# Actions that no loop exit leaves

A loop exit travels as an error does.  The errors of an action that is sealed are all failures.  Where script
code runs inside such an action, its loop exits have become failures at the boundary.
-/

namespace MindScript

theorem CallStack.isLoopExit_attach (s : CallStack) (e : EvalError) : (s.attach e).isLoopExit = e.isLoopExit := by
  unfold attach
  split <;> rfl

theorem CallStack.isLoopExit_of_push {s : CallStack} {i : Invocation} {e : EvalError} (h : s.push i = .error e) :
    e.isLoopExit = false := by
  unfold push at h
  split at h <;> cases h
  rfl

/-- A result that is no loop exit. -/
def Contained {α : Type} (r : Except EvalError α) : Prop := ∀ e, r = .error e → e.isLoopExit = false

theorem contained_ok {α : Type} (a : α) : Contained (.ok a : Except EvalError α) := fun _ h ↦ (nomatch h)

namespace Machine

/-- An action whose errors are failures. -/
structure Sealed {α : Type} (f : Machine α) : Prop where
  fails : ∀ w e, (f w).1 = .error (.raised e) → e.isLoopExit = false

theorem Calm.sealed {α : Type} {f : Machine α} (h : Calm f) : Sealed f := ⟨fun w e he ↦ absurd he (h w e)⟩

namespace Sealed

variable {α β : Type} {f : Machine α}

/-! ### Ways of going on -/

theorem pure (a : α) : Sealed (pure a) := (Calm.pure a).sealed

theorem raise {e : EvalError} (h : e.isLoopExit = false) : Sealed (raise e : Machine α) := by
  refine ⟨fun w e' he ↦ ?_⟩
  cases he
  exact h

theorem raiseKind (k : ErrorKind) : Sealed (raiseKind k : Machine α) := raise rfl

theorem modify (F : World → World) : Sealed (modify F) := (Calm.modify F).sealed

theorem onHeap (F : Heap → α × Heap) : Sealed (onHeap F) := ⟨fun _ _ h ↦ (nomatch h)⟩

theorem bind {F : α → Machine β} (hf : Sealed f) (hF : ∀ a, Sealed (F a)) : Sealed (f >>= F) := by
  refine ⟨fun w e ↦ ?_⟩
  rcases hfw : f w with ⟨i | a, w'⟩
  · rw [bind_of_error hfw]
    intro h
    have hi : i = .raised e := Except.error.inj h
    exact hf.fails w e (by rw [hfw, hi])
  · rw [bind_of_ok hfw]
    exact (hF a).fails w' e

theorem map (F : α → β) (hf : Sealed f) : Sealed (F <$> f) := by
  rw [← bind_pure_comp]
  exact hf.bind fun a ↦ pure (F a)

theorem read {F : World → Machine α} (hF : ∀ w, Sealed (F w)) : Sealed (get >>= F) :=
  ⟨fun w ↦ (hF w).fails w⟩

theorem attempt (f : Machine α) : Sealed (attempt f) := (Calm.attempt f).sealed

/-- The errors of an attempt are those of the action. -/
theorem attempted {F : Except EvalError α → Machine β} (hok : ∀ a, Sealed (F (.ok a)))
    (herror : ∀ e, e.isLoopExit = false → Sealed (F (.error e))) (hf : Sealed f) :
    Sealed (Machine.attempt f >>= F) := by
  refine ⟨fun w e ↦ ?_⟩
  rcases hfw : f w with ⟨result, w'⟩
  match result with
  | .ok a =>
    rw [bind_of_ok (attempt_of_ok hfw)]
    exact (hok a).fails w' e
  | .error (.raised e') =>
    rw [bind_of_ok (attempt_of_raised hfw)]
    exact (herror e' (hf.fails w e' (by rw [hfw]))).fails w' e
  | .error .exhausted =>
    rw [bind_of_error (attempt_of_exhausted hfw)]
    nofun

theorem ofExcept {r : Except EvalError α} (h : Contained r) : Sealed (ofExcept r) := by
  cases r with
  | ok a => exact pure a
  | error e => exact raise (h e rfl)

theorem elseRelease (hf : Sealed f) (held : List Ref) : Sealed (elseRelease f held) := by
  rw [elseRelease_eq]
  exact attempted pure (fun e he ↦ (modify _).bind fun _ ↦ raise he) hf

theorem thenRelease (hf : Sealed f) (held : List Ref) : Sealed (thenRelease f held) := by
  rw [thenRelease_eq]
  exact attempted (fun a ↦ (modify _).bind fun _ ↦ pure a) (fun e he ↦ (modify _).bind fun _ ↦ raise he) hf

theorem withInvocation (hf : Sealed f) (i : Invocation) (held : List Ref) :
    Sealed (withInvocation i held f) := by
  refine read fun w ↦ ?_
  split
  · next e he => exact (modify _).bind fun _ ↦ raise (CallStack.isLoopExit_of_push he)
  · refine (modify _).bind fun _ ↦ attempted (fun a ↦ ?_) (fun e he ↦ ?_) hf
    · exact read fun _ ↦ (modify _).bind fun _ ↦ pure a
    · refine read fun v ↦ (modify _).bind fun _ ↦ raise ?_
      rw [CallStack.isLoopExit_attach]
      exact he

theorem withContext (c : Context) (f : Machine α) : Sealed (withContext c f) :=
  read fun _ ↦ (modify _).bind fun _ ↦ (attempt f).bind fun _ ↦ read fun _ ↦ (modify _).bind fun _ ↦ pure _

/-- The boundary itself. -/
theorem failLoopExit (r : Except EvalError α) : Sealed (failLoopExit r) := by
  cases r with
  | ok a => exact pure a
  | error e => exact (modify _).bind fun _ ↦ raise e.isLoopExit_toFailure

/-! ### Values -/

theorem newValue (c : ClassId) (p : Payload) : Sealed (newValue c p) := onHeap _

theorem share (r : Ref) : Sealed (share r) := (modify _).bind fun _ ↦ pure r

theorem typeMismatch (expected : String) (value : Ref) : Sealed (typeMismatch expected value : Machine α) :=
  read fun _ ↦ raiseKind _

theorem checkType (value : Ref) (c : ClassId) : Sealed (checkType value c) := by
  refine read fun w ↦ ?_
  split
  · exact pure ()
  · exact typeMismatch ..

theorem expectBool (value : Ref) : Sealed (expectBool value) := by
  refine read fun w ↦ ?_
  split
  · exact pure _
  · exact typeMismatch ..

theorem lookupClass (name : String) : Sealed (lookupClass name) := by
  refine read fun w ↦ ?_
  split
  · exact pure _
  · exact raiseKind _

theorem zeroValue (c : ClassId) : Sealed (zeroValue c) := by
  unfold Machine.zeroValue
  split
  · exact newValue ..
  · split
    · exact newValue ..
    · split
      · exact newValue ..
      · split
        · exact newValue ..
        · exact share _

theorem checkAll (c : ClassId) (items : List Ref) : Sealed (checkAll c items) := by
  induction items with
  | nil => exact pure ()
  | cons item rest ih => exact (checkType item c).bind fun _ ↦ ih

theorem list (c : ClassId) (items : List Ref) : Sealed (list c items) :=
  ((checkAll c items).elseRelease items).bind fun _ ↦ newValue ..

theorem constructCore? {c : ClassId} {make : Machine Ref} (h : constructCore? c = some make) : Sealed make := by
  unfold Machine.constructCore? at h
  split at h
  · exact Option.some.inj h ▸ share _
  · split at h
    · exact Option.some.inj h ▸ list ..
    · split at h
      · exact Option.some.inj h ▸ zeroValue c
      · cases h

theorem zeroValues (slots : List Slot) : Sealed (zeroValues slots) := by
  induction slots with
  | nil => exact pure _
  | cons slot rest ih => exact (zeroValue _).bind fun _ ↦ ih.bind fun _ ↦ pure _

theorem newInstance (c : ClassId) : Sealed (newInstance c) :=
  read fun _ ↦ (zeroValues _).bind fun _ ↦ read fun _ ↦ onHeap _

/-! ### Arguments and dispatch -/

theorem isLoopExit_of_placeArgs {member : String} {names : List String} {given positional : Nat}
    {slots : List (Option Ref)} {args : ArgValues} {e : EvalError} {refs : List Ref}
    (h : placeArgs member names given positional slots args = .error (e, refs)) : e.isLoopExit = false := by
  induction args generalizing positional slots with
  | nil => cases h
  | cons arg rest ih =>
    obtain ⟨name, value⟩ := arg
    simp only [placeArgs] at h
    split at h
    · next e' he =>
      obtain ⟨rfl, -⟩ := Prod.mk.inj (Except.error.inj h)
      unfold paramIndex at he
      split at he <;> split at he <;> cases he <;> rfl
    · split at h
      · obtain ⟨rfl, -⟩ := Prod.mk.inj (Except.error.inj h)
        rfl
      · exact ih h

theorem orderArgsOrRelease (member : String) (names : List String) (args : ArgValues) :
    Sealed (orderArgsOrRelease member names args) := by
  unfold Machine.orderArgsOrRelease
  split
  · exact pure _
  · next e values he => exact (modify _).bind fun _ ↦ raise (isLoopExit_of_placeArgs he)

theorem bindNative (member : String) (params : List String) (args : ArgValues) :
    Sealed (bindNative member params args) := by
  refine (orderArgsOrRelease ..).bind fun slots ↦ ?_
  split
  · exact pure _
  · exact (modify _).bind fun _ ↦ raiseKind _

theorem resolve (c : ClassId) (name : String) (qualifier : Option ClassId) :
    Sealed (onClasses (Registry.resolve c name qualifier)) := by
  refine ⟨fun w e h ↦ ?_⟩
  unfold onClasses at h
  rcases w.classes.resolve_cases c name qualifier with ⟨start, hr⟩ | ⟨note, hr⟩
  · rw [hr] at h
    cases hfound : (w.classes.find start name).1 <;> rw [hfound] at h <;> cases h
    rfl
  · rw [hr] at h
    cases h
    rfl

theorem dispatchFrom (receiver : Ref) (name : String) (start : Option ClassId) :
    Sealed (dispatchFrom receiver name start) := by
  refine read fun w ↦ attempted ?_ (fun e he ↦ ?_) (resolve ..)
  · exact fun m ↦ pure m
  · dsimp only
    split
    · exact raiseKind _
    · exact raise he

theorem resolveCall (receiver : Ref) (name : String) (qualifier : Option String) :
    Sealed (resolveCall receiver name qualifier) := by
  rw [resolveCall_eq]
  refine Sealed.bind ?_ (dispatchFrom receiver name)
  cases qualifier with
  | none => exact pure none
  | some q => exact (lookupClass q).map some

theorem resolveMethod (receiver : Ref) (name : String) (qualifier : Option String) :
    Sealed (resolveMethod receiver name qualifier) := by
  refine (resolveCall ..).bind fun m ↦ ?_
  split
  · exact raiseKind _
  · exact pure m

theorem newContext (arena : Arena) (this : Ref) (c : ClassId) : Sealed (newContext arena this c) :=
  (onHeap _).bind fun _ ↦ pure _

theorem closureContext (c : Closure) : Sealed (closureContext c) :=
  (onHeap _).bind fun _ ↦ (modify _).bind fun _ ↦ pure _

theorem expectClosure (callee : Ref) : Sealed (expectClosure callee) := by
  refine read fun w ↦ ?_
  split
  · exact pure _
  · exact typeMismatch ..

variable (E : Engine)

/-- What script code raises is turned into a failure where the code ends. -/
theorem runScript (context : Context) (name : String) (params : Span) (body : ExprId) (args : ArgValues) :
    Sealed (runScript E context name params body args) :=
  (withContext context _).bind fun _ ↦ (modify _).bind fun _ ↦ failLoopExit _

theorem invokeClosureNow (callee : Ref) (args : ArgValues) : Sealed (invokeClosureNow E callee args) := by
  refine ((expectClosure callee).elseRelease _).bind fun c ↦ ?_
  split
  · exact (modify _).bind fun _ ↦ raiseKind _
  · exact read fun w ↦ ((closureContext c).bind fun context ↦ runScript E context ..).withInvocation _ _

/-! ### Host calls -/

theorem shareArgs (rs : List Ref) : Sealed (shareArgs rs) := by
  induction rs with
  | nil => exact pure _
  | cons r rest ih => exact (modify _).bind fun _ ↦ ih.bind fun _ ↦ pure _

theorem finishHostCall {E : Engine} {r : Except EvalError α} (hr : Contained r) : Sealed (finishHostCall E r) :=
  (Calm.afterHostCall E).sealed.bind fun _ ↦ ofExcept hr

theorem blamed (target : Ref) (member : String) (r : Except EvalError α) {F : Except EvalError α → Machine β}
    (hF : ∀ r, Contained r → Sealed (F r)) : Sealed (blame target member r >>= F) := by
  cases r with
  | ok a => exact hF _ (contained_ok a)
  | error e =>
    refine ⟨fun w ↦ (hF _ fun e' he' ↦ ?_).fails (w.release (e.exit.toList.map .object))⟩
    cases he'
    exact e.isLoopExit_toFailure

theorem hostInvoke (target : Ref) (member : String) (args : List Ref) : Sealed (hostInvoke E target member args) :=
  (shareArgs args).bind fun _ ↦ (modify _).bind fun _ ↦ (attempt _).bind fun r ↦
    blamed target member r fun _ hr ↦ finishHostCall hr

theorem hostStart (target : Ref) (member : String) (args : List Ref) (mind : MindId) (deferred : Bool) :
    Sealed (hostStart E target member args mind deferred) :=
  (shareArgs args).bind fun _ ↦ (attempt _).bind fun r ↦ blamed target member r fun _ hr ↦
    (modify _).bind fun _ ↦ finishHostCall hr

theorem startValue (target : Ref) (member : String) (args : List Ref) (mind : MindId) (deferred : Bool) :
    Sealed (startValue E target member args mind deferred) :=
  (hostStart E ..).bind fun _ ↦ Sealed.bind ((modify _).bind fun _ ↦ newValue ..) fun value ↦
    (modify _).bind fun _ ↦ pure value

theorem hostEvaluate (arena : Arena) (root : ExprId) : Sealed (hostEvaluate E arena root) :=
  (share _).bind fun _ ↦ (newContext ..).bind fun _ ↦ (withContext ..).bind fun (result, _) ↦ (modify _).bind fun _ ↦
    attempted (fun a ↦ finishHostCall (contained_ok a))
      (fun e he ↦ finishHostCall fun e' he' ↦ by cases he'; exact he) (failLoopExit result)

/-! ### Built-in methods -/

theorem payloadOf (r : Ref) : Sealed (payloadOf r) := read fun _ ↦ pure _

theorem expectInteger (r : Ref) : Sealed (expectInteger r) := by
  refine (payloadOf r).bind fun p ↦ ?_
  split
  · exact pure _
  · exact typeMismatch ..

theorem expectReal (r : Ref) : Sealed (expectReal r) := by
  refine (payloadOf r).bind fun p ↦ ?_
  split
  · exact pure _
  · exact typeMismatch ..

theorem expectNumber (r : Ref) : Sealed (expectNumber r) := by
  refine (payloadOf r).bind fun p ↦ ?_
  split
  · exact pure _
  · exact typeMismatch ..

theorem expectText (r : Ref) : Sealed (expectText r) := by
  refine (payloadOf r).bind fun p ↦ ?_
  split
  · exact pure _
  · exact typeMismatch ..

theorem expectSymbol (r : Ref) : Sealed (expectSymbol r) := by
  refine (payloadOf r).bind fun p ↦ ?_
  split
  · exact pure _
  · exact typeMismatch ..

theorem expectList (r : Ref) : Sealed (expectList r) := by
  refine (payloadOf r).bind fun p ↦ ?_
  split
  · exact pure _
  · exact typeMismatch ..

theorem expectClassObject (r : Ref) : Sealed (expectClassObject r) := by
  refine (payloadOf r).bind fun p ↦ ?_
  split
  · exact pure _
  · exact typeMismatch ..

theorem expectHandle (r : Ref) : Sealed (expectHandle r) := by
  refine (payloadOf r).bind fun p ↦ ?_
  split
  · exact pure _
  · exact typeMismatch ..

theorem answerEqual (equal : Payload → Payload → Bool) (whenEqual : Bool) (a b : Ref) :
    Sealed (answerEqual equal whenEqual a b) :=
  (payloadOf a).bind fun _ ↦ (payloadOf b).bind fun _ ↦ newValue ..

theorem isLoopExit_of_integers {op : Arithmetic} {x y : Int64} {e : EvalError}
    (h : op.integers x y = .error e) : e.isLoopExit = false := by
  unfold Arithmetic.integers at h
  split at h
  · cases h
    rfl
  · split at h <;> cases h
    cases op <;> rfl

theorem arithmetic (op : Arithmetic) (a b : Ref) : Sealed (arithmetic op a b) := by
  refine (payloadOf a).bind fun p ↦ (payloadOf b).bind fun q ↦ ?_
  split
  · exact (ofExcept fun e ↦ isLoopExit_of_integers).bind fun i ↦ newValue ..
  · exact (expectNumber a).bind fun x ↦ (expectNumber b).bind fun y ↦ newValue ..

theorem order (a b : Ref) : Sealed (order a b) := by
  refine (payloadOf a).bind fun p ↦ (payloadOf b).bind fun q ↦ ?_
  split
  · exact pure _
  · exact (expectNumber a).bind fun x ↦ (expectNumber b).bind fun y ↦ pure _

theorem exactInteger (name : String) (x : Int) : Sealed (exactInteger name x) := by
  unfold Machine.exactInteger
  split
  · exact newValue ..
  · exact raise rfl

theorem realToInteger (x : Float) : Sealed (realToInteger x) := by
  unfold Machine.realToInteger
  dsimp only
  split
  · exact newValue ..
  · exact raise rfl

theorem visitAll (visit : Ref) (items : List Ref) : Sealed (visitAll E visit items) := by
  induction items with
  | nil => exact pure ()
  | cons item rest ih =>
    exact ((invokeClosureNow E visit _).elseRelease rest).bind fun value ↦ (modify _).bind fun _ ↦ ih

theorem shareAll (items : List Ref) : Sealed (shareAll items) := by
  induction items with
  | nil => exact pure ()
  | cons item rest ih => exact (modify _).bind fun _ ↦ ih

theorem shareOrNil (r : Option Ref) : Sealed (shareOrNil r) := by
  cases r with
  | some r => exact share r
  | none => exact share _

theorem isLoopExit_of_get {s : Sequence} {i : Int64} {e : EvalError} (h : s.get i = .error e) :
    e.isLoopExit = false := by
  unfold Sequence.get at h
  split at h <;> cases h
  rfl

theorem isLoopExit_of_insert {s : Sequence} {i : Int64} {item : Ref} {e : EvalError}
    (h : s.insert i item = .error e) : e.isLoopExit = false := by
  unfold Sequence.insert at h
  split at h <;> cases h
  rfl

theorem isLoopExit_of_remove {s : Sequence} {i : Int64} {e : EvalError} (h : s.remove i = .error e) :
    e.isLoopExit = false := by
  unfold Sequence.remove at h
  split at h
  · cases h
    rfl
  · split at h <;> cases h
    rfl

theorem listSetAt (this index item : Ref) : Sealed (listSetAt this index item) :=
  (expectList this).bind fun _ ↦ (expectInteger index).bind fun _ ↦ (checkType item _).bind fun _ ↦
    (ofExcept fun _ ↦ isLoopExit_of_get).bind fun _ ↦ (modify _).bind fun _ ↦ (modify _).bind fun _ ↦
      (modify _).bind fun _ ↦ share item

theorem listAppend (this item : Ref) : Sealed (listAppend this item) :=
  (expectList this).bind fun _ ↦ (checkType item _).bind fun _ ↦ (modify _).bind fun _ ↦
    (modify _).bind fun _ ↦ share this

theorem listInsert (this index item : Ref) : Sealed (listInsert this index item) :=
  (expectList this).bind fun _ ↦ (expectInteger index).bind fun _ ↦ (checkType item _).bind fun _ ↦
    (ofExcept fun _ ↦ isLoopExit_of_insert).bind fun _ ↦ (modify _).bind fun _ ↦ (modify _).bind fun _ ↦
      share this

theorem listRemoveAt (this index : Ref) : Sealed (listRemoveAt this index) :=
  (expectInteger index).bind fun _ ↦ (expectList this).bind fun _ ↦
    (ofExcept fun _ ↦ isLoopExit_of_remove).bind fun removed ↦ (modify _).bind fun _ ↦ pure removed.1

theorem listClear (this : Ref) : Sealed (listClear this) :=
  (expectList this).bind fun _ ↦ (modify _).bind fun _ ↦ (modify _).bind fun _ ↦ share this

theorem listEach (this visit : Ref) : Sealed (listEach E this visit) :=
  (expectList this).bind fun _ ↦ (shareAll _).bind fun _ ↦ (visitAll E visit _).bind fun _ ↦ share this

/-- A built-in method, whichever it is. -/
theorem runCore (method : CoreMethod) (this : Ref) (args : List Ref) : Sealed (runCore E method this args) := by
  cases method with
  | identical whenEqual => exact newValue ..
  | describe => exact read fun _ ↦ newValue ..
  | className => exact read fun _ ↦ newValue ..
  | classOf => exact read fun _ ↦ newValue ..
  | isNil answer => exact newValue ..
  | nilText => exact newValue ..
  | equalBooleans whenEqual => exact answerEqual ..
  | booleanNot => exact (expectBool this).bind fun _ ↦ newValue ..
  | booleanText => exact (expectBool this).bind fun _ ↦ newValue ..
  | arithmetic op => exact arithmetic ..
  | equalNumbers whenEqual => exact answerEqual ..
  | compareNumbers op => exact (order ..).bind fun _ ↦ newValue ..
  | lesser => exact (order ..).bind fun _ ↦ share _
  | greater => exact (order ..).bind fun _ ↦ share _
  | integerNegated => exact (expectInteger this).bind fun _ ↦ exactInteger ..
  | integerAbs => exact (expectInteger this).bind fun _ ↦ exactInteger ..
  | integerText => exact (expectInteger this).bind fun _ ↦ newValue ..
  | integerSelf => exact (expectInteger this).bind fun _ ↦ share this
  | integerToReal => exact (expectNumber this).bind fun _ ↦ newValue ..
  | realNegated => exact (expectReal this).bind fun _ ↦ newValue ..
  | realAbs => exact (expectReal this).bind fun _ ↦ newValue ..
  | realText => exact (expectReal this).bind fun _ ↦ newValue ..
  | realSelf => exact (expectReal this).bind fun _ ↦ share this
  | realToInteger => exact (expectReal this).bind fun _ ↦ realToInteger _
  | textJoin => exact (expectText this).bind fun _ ↦ (expectText _).bind fun _ ↦ newValue ..
  | textLength => exact (expectText this).bind fun _ ↦ newValue ..
  | textIsEmpty => exact (expectText this).bind fun _ ↦ newValue ..
  | equalTexts whenEqual => exact answerEqual ..
  | textLess => exact (expectText this).bind fun _ ↦ (expectText _).bind fun _ ↦ newValue ..
  | textGreater => exact (expectText this).bind fun _ ↦ (expectText _).bind fun _ ↦ newValue ..
  | textSelf => exact (expectText this).bind fun _ ↦ share this
  | textToSymbol => exact (expectText this).bind fun _ ↦ newValue ..
  | equalSymbols whenEqual => exact answerEqual ..
  | symbolText => exact (expectSymbol this).bind fun _ ↦ newValue ..
  | listLength => exact (expectList this).bind fun _ ↦ newValue ..
  | listIsEmpty => exact (expectList this).bind fun _ ↦ newValue ..
  | listAt =>
    exact (expectInteger _).bind fun _ ↦ (expectList this).bind fun _ ↦
      (ofExcept fun _ ↦ isLoopExit_of_get).bind fun r ↦ share r
  | listSetAt => exact listSetAt ..
  | listAppend => exact listAppend ..
  | listInsert => exact listInsert ..
  | listRemoveAt => exact listRemoveAt ..
  | listClear => exact listClear this
  | listFirst => exact (expectList this).bind fun _ ↦ shareOrNil _
  | listLast => exact (expectList this).bind fun _ ↦ shareOrNil _
  | listEach => exact listEach E ..
  | closureIsCoroutine => exact (expectClosure this).bind fun _ ↦ newValue ..
  | classText => exact (expectClassObject this).bind fun _ ↦ read fun _ ↦ newValue ..
  | classIsSubclass =>
    exact (expectClassObject this).bind fun _ ↦ (expectClassObject _).bind fun _ ↦ read fun _ ↦ newValue ..
  | equalClasses => exact answerEqual ..
  | handleIsFinished => exact (expectHandle this).bind fun _ ↦ read fun _ ↦ newValue ..
  | handleIsCompleted => exact (expectHandle this).bind fun _ ↦ read fun _ ↦ newValue ..
  | handleIsRunning => exact (expectHandle this).bind fun _ ↦ read fun _ ↦ newValue ..
  | handleStatus => exact (expectHandle this).bind fun _ ↦ read fun _ ↦ newValue ..
  | handleResult => exact (expectHandle this).bind fun _ ↦ read fun _ ↦ shareOrNil _
  | handleError =>
    refine (expectHandle this).bind fun _ ↦ read fun w ↦ ?_
    split
    · exact newValue ..
    · exact share _
  | handleStop => exact (expectHandle this).bind fun _ ↦ (modify _).bind fun _ ↦ share this

end Sealed

end Machine

end MindScript
