import MindScript.Proofs.Places

/-!
# Values, variables and arguments are built alike
-/

namespace MindScript.Machine.Alike

variable {E E' : Engine} {σ : Setting}

/-! ### Values -/

theorem newValue (c : ClassId) (p : Payload) : Alike E E' σ (newValue c p) (newValue c p) :=
  .basic (.newValue c p)

theorem nil : Alike E E' σ nil nil := share .nil

theorem boolean (b : Bool) : Alike E E' σ (boolean b) (boolean b) := newValue ..

theorem integer (i : Int64) : Alike E E' σ (integer i) (integer i) := newValue ..

theorem real (x : Float) : Alike E E' σ (real x) (real x) := newValue ..

theorem string (s : String) : Alike E E' σ (string s) (string s) := newValue ..

theorem symbol (s : String) : Alike E E' σ (symbol s) (symbol s) := newValue ..

theorem count (n : Nat) : Alike E E' σ (count n) (count n) := integer _

theorem classObject (c : ClassId) : Alike E E' σ (classObject c) (classObject c) := newValue ..

theorem handleValue (h : Handle) : Alike E E' σ (handleValue h) (handleValue h) :=
  (Alike.basic (.retainLink _)).bind fun _ ↦ newValue ..

theorem zeroValue (c : ClassId) : Alike E E' σ (zeroValue c) (zeroValue c) := by
  unfold Machine.zeroValue
  split
  · exact integer 0
  · split
    · exact real 0
    · split
      · exact boolean false
      · split
        · exact string ""
        · exact nil

theorem typeMismatch {α : Type} (expected : String) (value : Ref) :
    Alike E E' σ (typeMismatch expected value : Machine α) (typeMismatch expected value) :=
  .read (fun _ ↦ by simp) (fun _ ↦ by simp) fun _ _ ↦ raiseKind _

theorem checkType (value : Ref) (c : ClassId) : Alike E E' σ (checkType value c) (checkType value c) := by
  refine .read (fun _ ↦ by simp) (fun _ ↦ by simp) fun w _ ↦ ?_
  split
  · exact .pure ()
  · exact typeMismatch ..

theorem checkData (value : Ref) (c : ClassId) : Alike E E' σ (checkData value c) (checkData value c) := by
  unfold Machine.checkData
  split
  · exact .pure ()
  · exact checkType ..

theorem expectBool (value : Ref) : Alike E E' σ (expectBool value) (expectBool value) := by
  refine .read (fun _ ↦ by simp) (fun _ ↦ by simp) fun w _ ↦ ?_
  split
  · exact .pure _
  · exact typeMismatch ..

theorem lookupClass (name : String) : Alike E E' σ (lookupClass name) (lookupClass name) := by
  refine .read (fun _ ↦ rfl) (fun _ ↦ rfl) fun w _ ↦ ?_
  split
  · exact .pure _
  · exact raiseKind _

theorem checkAll (c : ClassId) (items : List Ref) : Alike E E' σ (checkAll c items) (checkAll c items) := by
  induction items with
  | nil => exact .pure ()
  | cons item rest ih => exact (checkType item c).bind fun _ ↦ ih

theorem list (c : ClassId) (items : List Ref) : Alike E E' σ (list c items) (list c items) :=
  ((checkAll c items).elseRelease items).bind fun _ ↦ newValue ..

theorem listNamed (name : String) (items : List Ref) :
    Alike E E' σ (listNamed name items) (listNamed name items) :=
  ((lookupClass name).elseRelease items).bind fun c ↦ list c items

theorem lookupVariable (name : String) : Alike E E' σ (lookupVariable name) (lookupVariable name) := by
  refine .read (fun _ ↦ by simp) (fun _ ↦ by simp) fun w _ ↦ ?_
  split
  · exact share _
  · exact raiseKind _

theorem storeData (name : String) (value : Ref) (declared : Option ClassId) (place : Place) :
    Alike E E' σ (storeData name value declared place) (storeData name value declared place) := by
  unfold Machine.storeData
  split
  · next c => exact ((checkData value c).elseRelease [value]).bind fun _ ↦ .basic (.store name value place)
  · exact .basic (.store name value place)

theorem assignVariable (name : String) (value : Ref) :
    Alike E E' σ (assignVariable name value) (assignVariable name value) := by
  rw [assignVariable_eq]
  refine .read (fun _ ↦ by simp) (fun _ ↦ by simp) fun w _ ↦ ?_
  split
  · exact storeData ..
  · exact (release value).bind fun _ ↦ raiseKind _

/-! ### Arguments -/

theorem orderArgsOrRelease (member : String) (names : List String) (args : ArgValues) :
    Alike E E' σ (orderArgsOrRelease member names args) (orderArgsOrRelease member names args) := by
  unfold Machine.orderArgsOrRelease
  split
  · exact .pure _
  · exact (releaseAll _).bind fun _ ↦ .raise _

theorem paramValue (member : String) (required given : Nat) (param : Param) (slot : Option Ref) :
    Alike E E' σ (paramValue E member required given param slot)
      (paramValue E' member required given param slot) := by
  cases slot with
  | some value => exact .pure value
  | none =>
    unfold Machine.paramValue
    cases param.default with
    | some d => exact .eval d
    | none => exact raiseKind _

theorem checkParam (param : Param) (value : Ref) :
    Alike E E' σ (checkParam param value) (checkParam param value) := by
  unfold Machine.checkParam
  split
  · exact (lookupClass _).bind fun c ↦ checkType value c
  · exact .pure _

theorem bindSlots (member : String) (required given : Nat) (slots : List (Param × Option Ref)) :
    Alike E E' σ (bindSlots E member required given slots) (bindSlots E' member required given slots) := by
  induction slots with
  | nil => exact .pure ()
  | cons slot rest ih =>
    refine ((paramValue ..).elseRelease _).bind fun value ↦ ?_
    refine ((checkParam slot.1 value).elseRelease _).bind fun _ ↦ ?_
    exact (Alike.basic (.define ..)).bind fun _ ↦ ih

theorem bindParams (member : String) (params : Span) (args : ArgValues) :
    Alike E E' σ (bindParams E member params args) (bindParams E' member params args) :=
  .read (fun _ ↦ rfl) (fun _ ↦ rfl) fun _ _ ↦ (orderArgsOrRelease ..).bind fun _ ↦ bindSlots ..

theorem bindNative (member : String) (params : List String) (args : ArgValues) :
    Alike E E' σ (bindNative member params args) (bindNative member params args) := by
  refine (orderArgsOrRelease ..).bind fun slots ↦ ?_
  split
  · exact .pure _
  · exact (releaseAll _).bind fun _ ↦ raiseKind _

end MindScript.Machine.Alike
