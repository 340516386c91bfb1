import MindScript.Interpreter
import MindScript.Proofs.Class.Answers
import MindScript.Proofs.Custody.Calls
import MindScript.Proofs.Custody.Programs

/-!
# Custody of what is declared

Registering a class and storing a member add to what is declared.  The layouts and the ancestors of the classes that
were there stay as they are, so a typed world stays typed.  The errors of the registry carry no value.
-/

namespace MindScript

/-! ### Errors of the registry -/

theorem Except.error_of_bind {α β : Type} {x : Except EvalError α} {F : α → Except EvalError β} {e : EvalError}
    (h : x >>= F = .error e) : x = .error e ∨ ∃ a, x = .ok a ∧ F a = .error e := by
  cases x with
  | error e' =>
    obtain rfl : e' = e := Except.error.inj h
    exact .inl rfl
  | ok a => exact .inr ⟨a, rfl, h⟩

namespace Registry

/-- An action on the registry whose errors are no loop exits. -/
def Action.Sealed {α : Type} (act : Action α) : Prop := ∀ r e, (act r).1 = .error e → e.isLoopExit = false

namespace Action.Sealed

variable {α β : Type}

theorem bind {f : Action α} {F : α → Action β} (hf : f.Sealed) (hF : ∀ a, (F a).Sealed) : (f >>= F).Sealed := by
  intro r e h
  rcases hr : f r with ⟨e' | a, r₁⟩
  · rw [bind_of_error hr] at h
    obtain rfl : e' = e := Except.error.inj h
    exact hf r e' (by rw [hr])
  · rw [bind_of_ok hr] at h
    exact hF a r₁ e h

theorem quiet {f : Action α} (h : ∀ r e, (f r).1 ≠ .error e) : f.Sealed := fun r e he ↦ absurd he (h r e)

theorem ofKind (k : ErrorKind) : (throw (.ofKind k) : Action α).Sealed := by
  rintro r e ⟨⟩
  rfl

theorem ofExcept {result : Except EvalError α} (h : ∀ e, result = .error e → e.isLoopExit = false) :
    Action.Sealed (register.ofExcept result) := fun _ e he ↦ h e he

end Action.Sealed

theorem sealed_checkMembers (supertypes : List ClassId) (className : String) (ms : List MemberDecl) :
    (checkMembers supertypes className ms).Sealed := by
  have hoverride (supertypes : List ClassId) (d : MemberDecl) : (checkOverride supertypes d className).Sealed := by
    induction supertypes with
    | nil => exact .quiet fun _ _ h ↦ (nomatch h)
    | cons s rest ih =>
      refine .bind (.quiet fun _ _ h ↦ (nomatch h)) fun inherited ↦ ?_
      cases inherited with
      | none => exact ih
      | some inherited =>
        dsimp only
        split
        · exact .bind (.ofKind _) fun _ ↦ ih
        · exact ih
  induction ms with
  | nil => exact .quiet fun _ _ h ↦ (nomatch h)
  | cons d rest ih =>
    refine .bind (fun r e he ↦ ?_) fun _ ↦ (hoverride supertypes d).bind fun _ ↦ ih
    have he : checkLifecycle d className = .error e := he
    unfold checkLifecycle at he
    split at he
    · cases he
      rfl
    · cases he

theorem isLoopExit_of_foldlM {α β : Type} {f : β → α → Except EvalError β}
    (hf : ∀ b a e, f b a = .error e → e.isLoopExit = false) {as : List α} {b : β} {e : EvalError}
    (h : as.foldlM f b = .error e) : e.isLoopExit = false := by
  induction as generalizing b with
  | nil => cases h
  | cons a rest ih =>
    rw [List.foldlM_cons] at h
    rcases Except.error_of_bind h with ha | ⟨b', -, hrest⟩
    · exact hf b a e ha
    · exact ih hrest

theorem isLoopExit_of_mapM {α β : Type} {f : α → Except EvalError β}
    (hf : ∀ a e, f a = .error e → e.isLoopExit = false) {as : List α} {e : EvalError}
    (h : as.mapM f = .error e) : e.isLoopExit = false := by
  induction as generalizing e with
  | nil => cases h
  | cons a rest ih =>
    rw [List.mapM_cons] at h
    rcases Except.error_of_bind h with ha | ⟨b, -, hrest⟩
    · exact hf a e ha
    · rcases Except.error_of_bind hrest with hrest | ⟨bs, -, hdone⟩
      · exact ih hrest
      · cases hdone

theorem sealed_register (decl : ClassDecl) : (register decl).Sealed := by
  have hdata : ∀ {β : Type} (r : Registry) (id : ClassId) (make : DataDecl → ClassId → β) (d : DataDecl) (e : EvalError),
      (do return make d (← r.resolveDataClass decl.name id d) : Except EvalError β) = .error e →
        e.isLoopExit = false := by
    intro β r id make d e h
    rcases Except.error_of_bind h with hclass | ⟨c, -, hdone⟩
    · unfold resolveDataClass at hclass
      split at hclass
      · cases hclass
      · split at hclass <;> cases hclass
        rfl
    · cases hdone
  refine .bind (.quiet fun _ _ h ↦ (nomatch h)) fun r ↦ .bind (.ofExcept fun e he ↦ ?_) fun _ ↦
    .bind (.ofExcept fun e he ↦ ?_) fun supertypes ↦ .bind (.ofExcept fun e he ↦ ?_) fun _ ↦
    .bind (.ofExcept fun e he ↦ ?_) fun own ↦ .bind (.ofExcept fun e he ↦ ?_) fun classData ↦
    (sealed_checkMembers _ _ _).bind fun _ ↦ .bind (.quiet fun _ _ h ↦ (nomatch h)) fun _ ↦ .quiet fun _ _ h ↦ (nomatch h)
  · unfold checkName at he
    split at he
    · cases he
      rfl
    · split at he
      · cases he
      · split at he <;> cases he <;> rfl
  · unfold resolveSupertypes at he
    rcases Except.error_of_bind he with hids | ⟨ids, -, hdone⟩
    · refine isLoopExit_of_foldlM (fun acc name e he ↦ ?_) hids
      split at he <;> cases he
      rfl
    · cases hdone
  · unfold checkRoom at he
    split at he <;> cases he
    rfl
  · let make (d : DataDecl) (c : ClassId) : Slot := { name := d.name, valueClass := c, owner := ⟨r.classes.size⟩ }
    exact isLoopExit_of_mapM (hdata r _ make) he
  · let make (d : DataDecl) (c : ClassId) : ClassDatum := { name := d.name, valueClass := c, value := none }
    exact isLoopExit_of_mapM (hdata r _ make) he

theorem sealed_define (c : ClassId) (decl : MemberDecl) : (define c decl).Sealed := by
  refine .bind (.quiet fun _ _ h ↦ (nomatch h)) fun r ↦ (sealed_checkMembers _ _ _).bind fun _ ↦ .bind (fun r e he ↦ ?_)
    fun _ ↦ .quiet fun _ _ h ↦ (nomatch h)
  have he : r.checkReplace c decl = .error e := he
  unfold checkReplace at he
  split at he
  · split at he <;> cases he
    rfl
  · cases he

/-! ### Records -/

/-- Storing a member changes nothing but member tables and marks. -/
theorem record_storeMember_any (r : Registry) (c : ClassId) (decl : MemberDecl) (d : ClassId) :
    ∃ members hasDestructor, (r.storeMember c decl).record d = { r.record d with members, hasDestructor } ∧
      ∀ m ∈ members, m ∈ r.ownMembers d ∨ m.body = decl.body := by
  by_cases hd : d.index < r.size
  · refine ⟨_, _, record_storeMember r c decl hd, fun m hm ↦ ?_⟩
    split at hm
    · rcases List.mem_cons.mp hm with rfl | hm
      · exact .inr rfl
      · exact .inl (List.mem_of_mem_filter hm)
    · exact .inl hm
  · have hle := Nat.le_of_not_lt hd
    refine ⟨_, _, (record_of_size_le ((size_storeMember r c decl).trans_le hle)).trans (record_of_size_le hle).symm,
      fun m hm ↦ .inl hm⟩

/-- What comes on offer with a definition is what is defined. -/
theorem offers_storeMember {r : Registry} {c : ClassId} {decl : MemberDecl} {m : Member}
    (h : (r.storeMember c decl).Offers m) : r.Offers m ∨ m.body = decl.body := by
  cases h with
  | declared d hm =>
    obtain ⟨members, hasDestructor, heq, hmembers⟩ := record_storeMember_any r c decl d
    rw [ownMembers, heq] at hm
    exact (hmembers m hm).imp_left (.declared d)
  | remembered key hm =>
    have hkept : r.cache[key]? = some (some m) ∧ (key.2 ≠ decl.name ∨ key.1 ∉ r.descendants c) := by
      simpa [storeMember, Std.HashMap.getElem?_filter] using hm
    exact .inl (.remembered key hkept.1)

/-! ### Values of class data -/

theorem classDataValues_eq (r : Registry) :
    r.classDataValues = (List.range r.size).flatMap fun i ↦ (r.classDataOf ⟨i⟩).filterMap ClassDatum.value := by
  have hrecords : r.classes.toList = (List.range r.size).map fun i ↦ r.record ⟨i⟩ := by
    refine List.ext_getElem (by simp [size]) fun i hi hi' ↦ ?_
    have hlt : i < r.classes.size := by simpa using hi
    simp [record, Array.getElem?_eq_getElem hlt]
  rw [classDataValues, hrecords, List.flatMap_map]
  rfl

theorem classDataValues_congr {r r' : Registry} (hsize : r'.size = r.size)
    (h : ∀ c : ClassId, c.index < r.size → r'.classDataOf c = r.classDataOf c) :
    r'.classDataValues = r.classDataValues := by
  rw [classDataValues_eq, classDataValues_eq, hsize]
  refine List.flatMap_congr fun i hi ↦ ?_
  rw [h ⟨i⟩ (List.mem_range.mp hi)]

theorem classDataOf_addRecord {r : Registry} {c : ClassId} (h : c.index ≠ r.size) (new : ClassRecord) :
    (r.addRecord new).classDataOf c = r.classDataOf c := by
  rcases record_addRecord r new c with ⟨heq, -⟩ | ⟨-, subclasses, heq⟩
  · exact absurd heq h
  · rw [classDataOf, heq]
    rfl

/-- A new class has no values yet. -/
theorem classDataValues_addRecord (r : Registry) {new : ClassRecord} (h : ∀ d ∈ new.classData, d.value = none) :
    (r.addRecord new).classDataValues = r.classDataValues := by
  have hnew : (new.classData.filterMap ClassDatum.value) = [] := List.filterMap_eq_nil_iff.mpr h
  rw [classDataValues_eq, classDataValues_eq, size_addRecord, List.range_succ, List.flatMap_append]
  have hlast : (r.addRecord new).classDataOf ⟨r.size⟩ = new.classData := by
    rw [classDataOf, record_addRecord_self]
  rw [List.flatMap_singleton, hlast, hnew, List.append_nil]
  refine List.flatMap_congr fun i hi ↦ ?_
  rw [classDataOf_addRecord (Nat.ne_of_lt (List.mem_range.mp hi))]

theorem classDataValues_clear (r : Registry) : r.clearClassData.classDataValues = [] := by
  simp [classDataValues, clearClassData, List.flatMap_map, List.filterMap_map]

end Registry

/-! ### Typed worlds -/

namespace World

variable {w : World} {classes : Registry}

/-- Only what is declared has changed. -/
theorem Grows.of_registry (hsize : w.classes.size ≤ classes.size)
    (hlayout : ∀ c : ClassId, c.index < w.classes.size → classes.layout c = w.classes.layout c)
    (hancestors : ∀ c : ClassId, c.index < w.classes.size → classes.ancestors c = w.classes.ancestors c) :
    Grows w { w with classes } :=
  ⟨fun _ o ho ↦ ⟨o, ho, rfl⟩, hsize, hlayout, hancestors⟩

theorem Typed.of_registry (h : w.Typed) (hgrows : Grows w { w with classes })
    (hdata : ∀ c d value, d ∈ classes.classDataOf c → d.value = some value → d ∈ w.classes.classDataOf c) :
    Typed { w with classes } :=
  h.grow hgrows (fun _ o ho ↦ .inl ⟨o, ho, rfl⟩) fun c d value hd hvalue ↦ .inl (hdata c d value hd hvalue)

theorem Typed.addRecord (h : w.Typed) {new : ClassRecord} (hnew : ∀ d ∈ new.classData, d.value = none) :
    Typed { w with classes := w.classes.addRecord new } := by
  have hne : ∀ c : ClassId, c.index < w.classes.size → c.index ≠ w.classes.size := fun _ ↦ Nat.ne_of_lt
  refine h.of_registry (.of_registry (by simp [Registry.size_addRecord]) (fun c hc ↦ ?_) fun c hc ↦
    Registry.ancestors_addRecord_of_ne (hne c hc) new) fun c d value hd hvalue ↦ ?_
  · rcases Registry.record_addRecord w.classes new c with ⟨heq, -⟩ | ⟨-, subclasses, heq⟩
    · exact absurd heq (hne c hc)
    · rw [Registry.layout, heq]
      rfl
  · rcases Registry.record_addRecord w.classes new c with ⟨-, heq⟩ | ⟨-, subclasses, heq⟩
    · rw [Registry.classDataOf, heq] at hd
      rw [hnew d hd] at hvalue
      cases hvalue
    · rwa [Registry.classDataOf, heq] at hd

theorem Typed.storeMember (h : w.Typed) (c : ClassId) (decl : MemberDecl) :
    Typed { w with classes := w.classes.storeMember c decl } := by
  have hrecord := w.classes.record_storeMember_any c decl
  refine h.of_registry (.of_registry (Nat.le_of_eq (Registry.size_storeMember ..).symm) (fun d _ ↦ ?_) fun d _ ↦ ?_)
    fun d x value hx _ ↦ ?_
  all_goals obtain ⟨members, hasDestructor, heq, -⟩ := hrecord d
  · rw [Registry.layout, heq, Registry.layout]
  · rw [Registry.ancestors, heq, Registry.ancestors]
  · rwa [Registry.classDataOf, heq] at hx

theorem Typed.clearClassData (h : w.Typed) : Typed { w with classes := w.classes.clearClassData } := by
  refine h.of_registry (.of_registry (by simp [Registry.clearClassData, Registry.size]) (fun d _ ↦ ?_) fun d _ ↦ ?_)
    fun d x value hx hvalue ↦ ?_
  · rw [Registry.layout, Registry.record_clearClassData, Registry.layout]
  · rw [Registry.ancestors, Registry.record_clearClassData, Registry.ancestors]
  · rw [Registry.classDataOf, Registry.record_clearClassData] at hx
    obtain ⟨x', -, rfl⟩ := List.mem_map.mp hx
    cases hvalue

/-! ### Sane worlds -/

variable {σ : Footing} {A B : List Link}

/-- More is declared, and values of class data may come into the hand. -/
theorem Sane.declare (h : Sane σ A w) (hsize : w.classes.size ≤ classes.size)
    (hle : Within (B ++ classes.classDataValues.map .object) (A ++ w.classes.classDataValues.map .object))
    (htyped : Typed { w with classes }) (hmembers : ∀ m, classes.Offers m → m.body.Decent (·.index < classes.size)) :
    Sane { σ with classes := classes.size } B { w with classes } where
  books :=
    let hsame : Books σ.stack σ.Knows { w with classes } := h.books.of_minds rfl rfl rfl rfl
    { hsame with frames := fun fr hfr ↦ (hsame.frames fr hfr).mono fun c hc ↦
        Nat.lt_of_lt_of_le (h.classes ▸ hc : c.index < w.classes.size) hsize }
  this := h.this
  rooted := h.rooted
  classes := rfl
  minds := h.minds
  covered := h.covered.mono fun l ↦ by
    have hl := hle l
    have hstored : ({ w with classes } : World).stored = w.stored := rfl
    simp only [roots, hstored, List.count_append] at hl ⊢
    omega
  unmarked := h.unmarked
  typed := htyped
  queued := h.queued
  members := hmembers

/-- The values of class data come into the hand as they are forgotten. -/
theorem Sane.clearClassData (h : Sane σ A w) :
    Sane σ (w.classes.classDataValues.map .object ++ A) { w with classes := w.classes.clearClassData } := by
  have hsize : w.classes.clearClassData.size = w.classes.size := by simp [Registry.clearClassData, Registry.size]
  have hdeclare := h.declare (B := w.classes.classDataValues.map .object ++ A) (Nat.le_of_eq hsize.symm) (fun l ↦ ?_)
    h.typed.clearClassData fun m hm ↦ ?_
  · rwa [hsize, h.classes] at hdeclare
  · simp only [Registry.classDataValues_clear, List.map_nil, List.append_nil, List.count_append]
    omega
  · rw [hsize, h.classes]
    have hown : ∀ c, w.classes.clearClassData.ownMembers c = w.classes.ownMembers c := fun c ↦ by
      rw [Registry.ownMembers, Registry.record_clearClassData, Registry.ownMembers]
    cases hm with
    | declared c hm => exact h.members m (.declared c (hown c ▸ hm))
    | remembered key hm => exact h.members m (.remembered key hm)

end World

/-! ### Actions that declare -/

namespace Machine.Gives

open World (Sane)

variable {σ : Footing} {A G : List Link} {w : World}

theorem onClasses {α : Type} {act : Registry.Action α} (hsealed : act.Sealed)
    (h : Sane σ G { w with classes := (act w.classes).2 }) :
    Yields σ G (onClasses act) w fun a w' ↦ Sane σ G w' ∧ act w.classes = (.ok a, w'.classes) := by
  have hfails := hsealed w.classes
  rw [Yields]
  unfold Machine.onClasses
  rcases hact : act w.classes with ⟨e | a, classes⟩ <;> rw [hact] at h hfails
  · dsimp only
    rw [EvalError.links_of_isLoopExit (hfails e rfl)]
    exact h
  · exact ⟨h, rfl⟩

/-- There may be one class more afterwards. -/
theorem register (h : Sane σ G w) {decl : ClassDecl}
    (hdecl : ∀ d ∈ decl.members, d.body.Decent (·.index ≤ w.classes.size)) :
    ∃ n, σ.classes ≤ n ∧ Yields { σ with classes := n } G (Machine.onClasses (Registry.register decl)) w fun c w' ↦
      Sane { σ with classes := n } G w' ∧ Registry.register decl w.classes = (.ok c, w'.classes) := by
  have hchecked : ∀ supertypes, Sane σ G { w with
      classes := (Registry.checkMembers supertypes decl.name decl.members w.classes).2 } := fun supertypes ↦
    h.setClasses (Registry.classes_checkMembers ..)
      (Registry.quiet_checkMembers supertypes decl.name decl.members w.classes)
  have hsealed := Registry.sealed_register decl
  rcases Registry.register_cases decl w.classes with hr | ⟨supertypes, r₁, -, rfl, hr | ⟨own, classData, hunset, hr⟩⟩
  · exact ⟨σ.classes, Nat.le_refl _, onClasses hsealed (by rw [hr]; exact h)⟩
  · exact ⟨σ.classes, Nat.le_refl _, onClasses hsealed (by rw [hr]; exact hchecked supertypes)⟩
  · have h₁ := hchecked supertypes
    have hclasses := Registry.classes_checkMembers supertypes decl.name decl.members w.classes
    generalize (Registry.checkMembers supertypes decl.name decl.members w.classes).2 = r₁ at hr h₁ hclasses
    have hsize : r₁.size = w.classes.size := congrArg Array.size hclasses
    have hnew := Registry.size_addRecord r₁ (r₁.newRecord decl supertypes own classData)
    have hadded : Sane { σ with classes := (r₁.addRecord (r₁.newRecord decl supertypes own classData)).size } G
        { w with classes := r₁.addRecord (r₁.newRecord decl supertypes own classData) } := by
      refine h₁.declare (hnew ▸ Nat.le_succ _) ?_ (h₁.typed.addRecord hunset) fun m hm ↦ ?_
      · rw [Registry.classDataValues_addRecord _ hunset]
        exact .refl _
      · rw [hnew, hsize]
        have hm : (Registry.register decl w.classes).2.Offers m := by rwa [hr]
        rcases Registry.offers_register hm with hold | ⟨d, hd, hbody⟩
        · exact (h.members m hold).mono fun c hc ↦ Nat.lt_succ_of_lt (h.classes ▸ hc : c.index < w.classes.size)
        · rw [hbody]
          exact (hdecl d hd).mono fun c ↦ Nat.lt_succ_of_le
    refine ⟨_, ?_, onClasses hsealed (by rw [hr]; exact hadded)⟩
    rw [hnew, hsize, h.classes]
    exact Nat.le_succ _

/-- Class data take their first values. -/
theorem initClassData (h : Sane σ G w) {c : ClassId} {data : List ClassDatum} {i : Nat}
    (hdata : data.map ClassDatum.valueClass = ((w.classes.classDataOf c).map ClassDatum.valueClass).drop i) :
    Gives σ G (initClassData c data i) w fun _ ↦ [] := by
  induction data generalizing i w with
  | nil => exact .pure h
  | cons d rest ih =>
    refine (zeroValue h d.valueClass).along_run.bind fun value w₁ ⟨⟨h₁, hgrows, hfits⟩, hrun⟩ ↦ ?_
    have hsame : w₁.classes = w.classes := by
      have := congrArg (fun p ↦ p.2.classes) hrun
      rw [← this]
      unfold Machine.zeroValue
      repeat' split
      all_goals rfl
    rw [← hsame] at hdata
    have hi : i < (w₁.classes.classDataOf c).length := by
      have hlength := congrArg List.length hdata
      simp only [List.map_cons, List.length_cons, List.length_drop, List.length_map] at hlength
      omega
    rw [List.drop_eq_getElem_cons (by simpa using hi), List.map_cons, List.cons.injEq, List.getElem_map] at hdata
    have hset := h₁.setClassData (List.getElem?_eq_getElem hi) (hdata.1 ▸ hfits)
    refine .modified (ih (hset.mono (.append_left _ _)) ?_)
    have hclass : (w₁.classes.setClassData c i value).2.classDataOf c =
        (w₁.classes.classDataOf c).modify i fun d ↦ { d with value := some value } := by
      simp only [Registry.setClassData, Registry.classDataOf, Registry.record, Array.getD_eq_getD_getElem?,
        Array.getElem?_modify, if_pos]
      cases w₁.classes.classes[c.index]? with
      | some record => rfl
      | none => cases i <;> rfl
    rw [hclass, hdata.2]
    congr 1
    refine List.ext_getElem (by simp) fun j hj hj' ↦ ?_
    simp only [List.getElem_map, List.getElem_modify]
    split <;> rfl

theorem registerClass (h : Sane σ G w) {decl : ClassDecl}
    (hdecl : ∀ d ∈ decl.members, d.body.Decent (·.index ≤ w.classes.size)) :
    ∃ n, σ.classes ≤ n ∧ Gives { σ with classes := n } G (registerClass decl) w fun _ ↦ [] := by
  obtain ⟨n, hn, hregister⟩ := register h hdecl
  refine ⟨n, hn, hregister.bind (fun c w₁ h₁ ↦ .read ((initClassData h₁.1 ?_).bind (fun _ _ h₂ ↦ .pure h₂)))⟩
  rfl

theorem defineMember (h : Sane σ G w) {c : ClassId} {decl : MemberDecl} (hdecl : decl.body.Decent σ.Knows) :
    Gives σ G (defineMember c decl) w fun _ ↦ [] := by
  refine (onClasses (Registry.sealed_define c decl) ?_).mono (fun _ _ h₁ ↦ h₁.1)
  obtain ⟨r₁, rfl, hr⟩ := Registry.define_cases c decl w.classes
  have h₁ : Sane σ G { w with classes :=
      (Registry.checkMembers (w.classes.supertypes c) (w.classes.nameOf c) [decl] w.classes).2 } :=
    h.setClasses (Registry.classes_checkMembers ..)
      (Registry.quiet_checkMembers (w.classes.supertypes c) (w.classes.nameOf c) [decl] w.classes)
  rcases hr with hr | hr <;> rw [hr]
  · exact h₁
  · have hsize := Registry.size_storeMember
      (Registry.checkMembers (w.classes.supertypes c) (w.classes.nameOf c) [decl] w.classes).2 c decl
    have hsame : σ.classes = (Registry.storeMember
        (Registry.checkMembers (w.classes.supertypes c) (w.classes.nameOf c) [decl] w.classes).2 c decl).size :=
      h₁.classes.symm.trans hsize.symm
    have hdeclare := h₁.declare (B := G) (Nat.le_of_eq hsize.symm) ?_ (h₁.typed.storeMember c decl) fun m hm ↦ ?_
    · rwa [← hsame] at hdeclare
    · rw [Registry.classDataValues_congr hsize fun d _ ↦ ?_]
      · exact .refl _
      · obtain ⟨members, hasDestructor, heq, -⟩ := Registry.record_storeMember_any _ c decl d
        rw [Registry.classDataOf, heq, Registry.classDataOf]
    · rw [← hsame]
      rcases Registry.offers_storeMember hm with hold | hbody
      · exact h₁.members m hold
      · rwa [hbody]

end Machine.Gives

end MindScript
