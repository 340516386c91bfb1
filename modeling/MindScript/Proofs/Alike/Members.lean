import MindScript.Proofs.Alike.Calls

/-!
# Built-in members are built alike
-/

namespace MindScript.Machine.Alike

variable {E E' : Engine} {σ : Setting}

/-! ### Operands -/

theorem payloadOf (r : Ref) : Alike E E' σ (payloadOf r) (payloadOf r) :=
  .read (fun _ ↦ by simp) (fun _ ↦ by simp) fun _ _ ↦ .pure _

theorem expectInteger (r : Ref) : Alike E E' σ (expectInteger r) (expectInteger r) := by
  refine (payloadOf r).bind fun p ↦ ?_
  split
  · exact .pure _
  · exact typeMismatch ..

theorem expectReal (r : Ref) : Alike E E' σ (expectReal r) (expectReal r) := by
  refine (payloadOf r).bind fun p ↦ ?_
  split
  · exact .pure _
  · exact typeMismatch ..

theorem expectNumber (r : Ref) : Alike E E' σ (expectNumber r) (expectNumber r) := by
  refine (payloadOf r).bind fun p ↦ ?_
  split
  · exact .pure _
  · exact typeMismatch ..

theorem expectText (r : Ref) : Alike E E' σ (expectText r) (expectText r) := by
  refine (payloadOf r).bind fun p ↦ ?_
  split
  · exact .pure _
  · exact typeMismatch ..

theorem expectSymbol (r : Ref) : Alike E E' σ (expectSymbol r) (expectSymbol r) := by
  refine (payloadOf r).bind fun p ↦ ?_
  split
  · exact .pure _
  · exact typeMismatch ..

theorem expectList (r : Ref) : Alike E E' σ (expectList r) (expectList r) := by
  refine (payloadOf r).bind fun p ↦ ?_
  split
  · exact .pure _
  · exact typeMismatch ..

theorem expectClassObject (r : Ref) : Alike E E' σ (expectClassObject r) (expectClassObject r) := by
  refine (payloadOf r).bind fun p ↦ ?_
  split
  · exact .pure _
  · exact typeMismatch ..

theorem expectHandle (r : Ref) : Alike E E' σ (expectHandle r) (expectHandle r) := by
  refine (payloadOf r).bind fun p ↦ ?_
  split
  · exact .pure _
  · exact typeMismatch ..

theorem expectEvent (r : Ref) : Alike E E' σ (expectEvent r) (expectEvent r) := by
  refine (payloadOf r).bind fun p ↦ ?_
  split
  · exact .pure _
  · exact .pure _
  · exact typeMismatch ..

theorem answerEqual (equal : Payload → Payload → Bool) (whenEqual : Bool) (a b : Ref) :
    Alike E E' σ (answerEqual equal whenEqual a b) (answerEqual equal whenEqual a b) :=
  (payloadOf a).bind fun _ ↦ (payloadOf b).bind fun _ ↦ boolean _

/-! ### Numbers -/

theorem arithmetic (op : Arithmetic) (a b : Ref) :
    Alike E E' σ (arithmetic op a b) (arithmetic op a b) := by
  refine (payloadOf a).bind fun p ↦ (payloadOf b).bind fun q ↦ ?_
  split
  · exact (ofExcept _).bind fun i ↦ integer i
  · exact (expectNumber a).bind fun x ↦ (expectNumber b).bind fun y ↦ real _

theorem order (a b : Ref) : Alike E E' σ (order a b) (order a b) := by
  refine (payloadOf a).bind fun p ↦ (payloadOf b).bind fun q ↦ ?_
  split
  · exact .pure _
  · exact (expectNumber a).bind fun x ↦ (expectNumber b).bind fun y ↦ .pure _

theorem exactInteger (name : String) (x : Int) :
    Alike E E' σ (exactInteger name x) (exactInteger name x) := by
  unfold Machine.exactInteger
  split
  · exact integer _
  · exact .raise _

theorem realToInteger (x : Float) : Alike E E' σ (realToInteger x) (realToInteger x) := by
  unfold Machine.realToInteger
  dsimp only
  split
  · exact integer _
  · exact .raise _

/-! ### Lists -/

theorem visitAll (visit : Ref) (items : List Ref) :
    Alike E E' σ (visitAll E visit items) (visitAll E' visit items) := by
  induction items with
  | nil => exact .pure ()
  | cons item rest ih =>
    exact ((invokeClosureNow visit _).elseRelease rest).bind fun value ↦ (release value).bind fun _ ↦ ih

theorem shareAll (items : List Ref) : Alike E E' σ (shareAll items) (shareAll items) := by
  induction items with
  | nil => exact .pure ()
  | cons item rest ih => exact (retain item).bind fun _ ↦ ih

theorem shareOrNil (r : Option Ref) : Alike E E' σ (shareOrNil r) (shareOrNil r) := by
  cases r with
  | some r => exact share r
  | none => exact nil

theorem listSetAt (this index item : Ref) :
    Alike E E' σ (listSetAt this index item) (listSetAt this index item) :=
  (expectList this).bind fun _ ↦ (expectInteger index).bind fun _ ↦ (checkType item _).bind fun _ ↦
    (ofExcept _).bind fun previous ↦ (retain item).bind fun _ ↦
      (Alike.basic (.modifyItems this _)).bind fun _ ↦ (release previous).bind fun _ ↦ share item

theorem listAppend (this item : Ref) : Alike E E' σ (listAppend this item) (listAppend this item) :=
  (expectList this).bind fun _ ↦ (checkType item _).bind fun _ ↦ (retain item).bind fun _ ↦
    (Alike.basic (.modifyItems this _)).bind fun _ ↦ share this

theorem listInsert (this index item : Ref) :
    Alike E E' σ (listInsert this index item) (listInsert this index item) :=
  (expectList this).bind fun _ ↦ (expectInteger index).bind fun _ ↦ (checkType item _).bind fun _ ↦
    (ofExcept _).bind fun s ↦ (retain item).bind fun _ ↦
      (Alike.basic (.setItems this s)).bind fun _ ↦ share this

theorem listRemoveAt (this index : Ref) :
    Alike E E' σ (listRemoveAt this index) (listRemoveAt this index) :=
  (expectInteger index).bind fun _ ↦ (expectList this).bind fun _ ↦ (ofExcept _).bind fun removed ↦
    (Alike.basic (.setItems this removed.2)).bind fun _ ↦ .pure removed.1

theorem listClear (this : Ref) : Alike E E' σ (listClear this) (listClear this) :=
  (expectList this).bind fun _ ↦ (Alike.basic (.setItems this _)).bind fun _ ↦
    (releaseAll _).bind fun _ ↦ share this

theorem listEach (this visit : Ref) : Alike E E' σ (listEach E this visit) (listEach E' this visit) :=
  (expectList this).bind fun _ ↦ (shareAll _).bind fun _ ↦ (visitAll visit _).bind fun _ ↦ share this

/-! ### Methods -/

/-- A built-in method, whichever it is. -/
theorem runCore (method : CoreMethod) (this : Ref) (args : List Ref) :
    Alike E E' σ (runCore E method this args) (runCore E' method this args) := by
  cases method with
  | identical whenEqual => exact boolean _
  | describe => exact .read (fun _ ↦ by simp) (fun _ ↦ by simp) fun _ _ ↦ string _
  | className => exact .read (fun _ ↦ by simp) (fun _ ↦ by simp) fun _ _ ↦ string _
  | classOf => exact .read (fun _ ↦ by simp) (fun _ ↦ by simp) fun _ _ ↦ classObject _
  | isNil answer => exact boolean answer
  | nilText => exact string _
  | equalBooleans whenEqual => exact answerEqual ..
  | booleanNot => exact (expectBool this).bind fun b ↦ boolean _
  | booleanText => exact (expectBool this).bind fun b ↦ string _
  | arithmetic op => exact arithmetic ..
  | equalNumbers whenEqual => exact answerEqual ..
  | compareNumbers op => exact (order ..).bind fun _ ↦ boolean _
  | lesser => exact (order ..).bind fun _ ↦ share _
  | greater => exact (order ..).bind fun _ ↦ share _
  | integerNegated => exact (expectInteger this).bind fun _ ↦ exactInteger ..
  | integerAbs => exact (expectInteger this).bind fun _ ↦ exactInteger ..
  | integerText => exact (expectInteger this).bind fun _ ↦ string _
  | integerSelf => exact (expectInteger this).bind fun _ ↦ share this
  | integerToReal => exact (expectNumber this).bind fun _ ↦ real _
  | realNegated => exact (expectReal this).bind fun _ ↦ real _
  | realAbs => exact (expectReal this).bind fun _ ↦ real _
  | realText => exact (expectReal this).bind fun _ ↦ string _
  | realSelf => exact (expectReal this).bind fun _ ↦ share this
  | realToInteger => exact (expectReal this).bind fun _ ↦ realToInteger _
  | textJoin => exact (expectText this).bind fun _ ↦ (expectText _).bind fun _ ↦ string _
  | textLength => exact (expectText this).bind fun _ ↦ count _
  | textIsEmpty => exact (expectText this).bind fun _ ↦ boolean _
  | equalTexts whenEqual => exact answerEqual ..
  | textLess => exact (expectText this).bind fun _ ↦ (expectText _).bind fun _ ↦ boolean _
  | textGreater => exact (expectText this).bind fun _ ↦ (expectText _).bind fun _ ↦ boolean _
  | textSelf => exact (expectText this).bind fun _ ↦ share this
  | textToSymbol => exact (expectText this).bind fun _ ↦ symbol _
  | equalSymbols whenEqual => exact answerEqual ..
  | symbolText => exact (expectSymbol this).bind fun _ ↦ string _
  | listLength => exact (expectList this).bind fun _ ↦ count _
  | listIsEmpty => exact (expectList this).bind fun _ ↦ boolean _
  | listAt =>
    exact (expectInteger _).bind fun _ ↦ (expectList this).bind fun _ ↦ (ofExcept _).bind fun r ↦ share r
  | listSetAt => exact listSetAt ..
  | listAppend => exact listAppend ..
  | listInsert => exact listInsert ..
  | listRemoveAt => exact listRemoveAt ..
  | listClear => exact listClear this
  | listFirst => exact (expectList this).bind fun _ ↦ shareOrNil _
  | listLast => exact (expectList this).bind fun _ ↦ shareOrNil _
  | listEach => exact listEach ..
  | closureIsCoroutine => exact (expectClosure this).bind fun _ ↦ boolean _
  | classText =>
    exact (expectClassObject this).bind fun c ↦ .read (fun _ ↦ rfl) (fun _ ↦ rfl) fun _ _ ↦ string _
  | classIsSubclass =>
    exact (expectClassObject this).bind fun c ↦ (expectClassObject _).bind fun d ↦
      .read (fun _ ↦ rfl) (fun _ ↦ rfl) fun _ _ ↦ boolean _
  | equalClasses => exact answerEqual ..
  | handleIsFinished =>
    exact (expectHandle this).bind fun h ↦ .read (fun _ ↦ by simp) (fun _ ↦ by simp) fun _ _ ↦ boolean _
  | handleIsCompleted =>
    exact (expectHandle this).bind fun h ↦ .read (fun _ ↦ by simp) (fun _ ↦ by simp) fun _ _ ↦ boolean _
  | handleIsRunning =>
    exact (expectHandle this).bind fun h ↦ .read (fun _ ↦ by simp) (fun _ ↦ by simp) fun _ _ ↦ boolean _
  | handleStatus =>
    exact (expectHandle this).bind fun h ↦ .read (fun _ ↦ by simp) (fun _ ↦ by simp) fun _ _ ↦ symbol _
  | handleResult =>
    exact (expectHandle this).bind fun h ↦ .read (fun _ ↦ by simp) (fun _ ↦ by simp) fun _ _ ↦ shareOrNil _
  | handleError =>
    refine (expectHandle this).bind fun h ↦ .read (fun _ ↦ by simp) (fun _ ↦ by simp) fun w _ ↦ ?_
    split
    · exact string _
    · exact nil
  | handleStop =>
    exact (expectHandle this).bind fun h ↦ (Alike.basic (.stop h)).bind fun _ ↦ share this

/-! ### Coroutines -/

theorem pollWait (info : PollInfo) (seconds : Ref) :
    Alike E E' σ (pollWait info seconds) (pollWait info seconds) := by
  refine (expectNumber seconds).bind fun x ↦ ?_
  dsimp only
  split
  · exact nil.bind fun _ ↦ .pure _
  · exact .pure _

theorem pollWaitUntil (condition : Ref) :
    Alike E E' σ (pollWaitUntil E condition) (pollWaitUntil E' condition) := by
  refine (invokeClosureNow condition []).bind fun value ↦ ((expectBool value).elseRelease _).bind fun b ↦ ?_
  split
  · exact .pure _
  · exact (release value).bind fun _ ↦ .pure _

theorem pollWaitFor (handle : Ref) : Alike E E' σ (pollWaitFor handle) (pollWaitFor handle) := by
  refine (expectHandle handle).bind fun h ↦ .read (fun _ ↦ by simp) (fun _ ↦ by simp) fun w _ ↦ ?_
  split
  · exact (shareOrNil _).map _
  · exact (Alike.basic (.retainLink _)).bind fun _ ↦ .pure _

theorem pollWaitEvent (info : PollInfo) (event : Ref) (delivered : Option Ref) :
    Alike E E' σ (pollWaitEvent info event delivered) (pollWaitEvent info event delivered) := by
  refine ((expectEvent event).elseRelease _).bind fun name ↦ ?_
  cases delivered with
  | some payload =>
    dsimp only
    split
    · exact (release payload).bind fun _ ↦ .pure _
    · exact .pure _
  | none => exact .pure _

theorem nextItem (this : Ref) (state : Option Stored) :
    Alike E E' σ (nextItem this state) (nextItem this state) := by
  refine (expectList this).bind fun s ↦ (Alike.basic (.setItems this _)).bind fun _ ↦ ?_
  split
  · exact (retain _).bind fun _ ↦ .pure _
  · exact .pure _

/-- A step of a built-in coroutine, whichever it is. -/
theorem pollCore (code : CoreCoroutine) (info : PollInfo) (this : Ref) (args : List Ref)
    (delivered : Option Ref) (state : Option Stored) :
    Alike E E' σ (pollCore E code info this args delivered state)
      (pollCore E' code info this args delivered state) := by
  cases code with
  | wait => exact ((pollWait ..).thenRelease _).attempt.bind fun _ ↦ .pure _
  | waitUntil => exact ((pollWaitUntil _).thenRelease _).attempt.bind fun _ ↦ .pure _
  | waitEvent => exact (pollWaitEvent ..).attempt.bind fun _ ↦ .pure _
  | waitFor => exact ((pollWaitFor _).thenRelease _).attempt.bind fun _ ↦ .pure _
  | each =>
    refine (nextItem this state).attempt.bind fun r ↦ ?_
    match r with
    | .error e => exact (releaseAll _).bind fun _ ↦ .pure _
    | .ok none => exact (releaseAll _).bind fun _ ↦ (share this).bind fun _ ↦ .pure _
    | .ok (some (item, cursor)) =>
      refine ((invokeClosureNow _ _).thenRelease _).attempt.bind fun result ↦ ?_
      cases result with
      | error e => exact .pure _
      | ok value => exact (release value).bind fun _ ↦ .pure _

end MindScript.Machine.Alike
