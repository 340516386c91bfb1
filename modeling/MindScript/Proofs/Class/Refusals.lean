import MindScript.Interpreter
import MindScript.Proofs.Alike
import MindScript.Proofs.Class.Destructors
import MindScript.Proofs.Class.Kinds

/-!
# Refused declarations

Checking a declaration asks for the members that its class inherits, and the registry remembers the answers.  That is
all that a refused declaration leaves behind, and nobody who asks can tell: a remembered answer is the one that a
search gives, whatever else is remembered.  So nothing is asked of the registry here, not even that it is sound.
-/

namespace MindScript

namespace Registry

variable {r r' r'' : Registry}

/-- Whatever the one registry is asked, the other one answers the same. -/
structure AnswersAlike (r r' : Registry) : Prop where
  size : r'.size = r.size
  classNamed : r'.classNamed = r.classNamed
  nameOf : r'.nameOf = r.nameOf
  supertypes : r'.supertypes = r.supertypes
  subclasses : r'.subclasses = r.subclasses
  ancestors : r'.ancestors = r.ancestors
  isSubtype : r'.isSubtype = r.isSubtype
  layout : r'.layout = r.layout
  slotIndex : r'.slotIndex = r.slotIndex
  ownMembers : r'.ownMembers = r.ownMembers
  hasDestructor : r'.hasDestructor = r.hasDestructor
  find : ∀ c name, (r'.find c name).1 = (r.find c name).1
  resolve : ∀ c name qualifier, (resolve c name qualifier r').1 = (resolve c name qualifier r).1
  classDatum : r'.classDatum = r.classDatum
  classDataOf : r'.classDataOf = r.classDataOf
  classDataValue : r'.classDataValue = r.classDataValue

/-- Only the memory may have changed, and dispatch does not show it. -/
structure Recalls (r r' : Registry) : Prop where
  classes : r'.classes = r.classes
  find : ∀ c name, (r'.find c name).1 = (r.find c name).1

namespace Recalls

theorem refl (r : Registry) : r.Recalls r := ⟨rfl, fun _ _ ↦ rfl⟩

theorem trans (h : r.Recalls r') (h' : r'.Recalls r'') : r.Recalls r'' :=
  ⟨h'.classes.trans h.classes, fun c name ↦ (h'.find c name).trans (h.find c name)⟩

/-- A search leaves an answer behind that would have been given anyway. -/
theorem of_find (r : Registry) (c : ClassId) (name : String) : r.Recalls (r.find c name).2 := by
  refine ⟨classes_find r c name, fun d other ↦ ?_⟩
  unfold Registry.find
  cases hcache : r.cache[(c, name)]? with
  | some answer => rfl
  | none =>
    simp only [Std.HashMap.getElem?_insert]
    by_cases hkey : (c, name) = (d, other)
    · obtain ⟨rfl, rfl⟩ := Prod.mk.inj hkey
      simp [hcache]
    · simp only [beq_iff_eq, hkey, if_false]
      cases r.cache[(d, other)]? <;> rfl

theorem record (h : r.Recalls r') : r'.record = r.record := record_congr h.classes

theorem isSubtype (h : r.Recalls r') : r'.isSubtype = r.isSubtype := by
  funext c a
  rw [Registry.isSubtype, Registry.isSubtype, Registry.ancestors, Registry.ancestors, h.record]

theorem nameOf (h : r.Recalls r') : r'.nameOf = r.nameOf := by
  funext c
  rw [Registry.nameOf, Registry.nameOf, h.record]

/-- Dispatch with a qualifier asks for subtypes and then searches. -/
theorem resolve (h : r.Recalls r') (c : ClassId) (name : String) (qualifier : Option ClassId) :
    (resolve c name qualifier r').1 = (Registry.resolve c name qualifier r).1 := by
  by_cases hq : ∀ q ∈ qualifier, r.isSubtype c q = true
  · have hq' : ∀ q ∈ qualifier, r'.isSubtype c q = true := by rwa [h.isSubtype]
    rw [resolve_of_isSubtype hq, resolve_of_isSubtype hq']
    simp only [h.find, notFound, h.nameOf]
  · simp only [not_forall] at hq
    obtain ⟨q, rfl, hq⟩ := hq
    have hrefused : r.isSubtype c q = false := Bool.eq_false_iff.mpr hq
    have hrefused' : r'.isSubtype c q = false := by rwa [h.isSubtype]
    change ((if r'.isSubtype c q = true then _ else _ : Action Member) r').1 =
      ((if r.isSubtype c q = true then _ else _ : Action Member) r).1
    rw [hrefused, hrefused']
    change Except.error ((r'.notFound c name).withNote _) = Except.error ((r.notFound c name).withNote _)
    rw [notFound, notFound, h.nameOf]

theorem answersAlike (h : r.Recalls r') : r.AnswersAlike r' where
  size := by rw [size, h.classes, size]
  classNamed := by
    funext name
    rw [classNamed, h.classes, classNamed]
  nameOf := h.nameOf
  supertypes := by
    funext c
    rw [supertypes, h.record, supertypes]
  subclasses := by
    funext c
    rw [subclasses, h.record, subclasses]
  ancestors := by
    funext c
    rw [ancestors, h.record, ancestors]
  isSubtype := h.isSubtype
  layout := by
    funext c
    rw [layout, h.record, layout]
  slotIndex := by
    funext c name
    rw [slotIndex, layout, h.record, slotIndex, layout]
  ownMembers := by
    funext c
    rw [ownMembers, h.record, ownMembers]
  hasDestructor := by
    funext c
    rw [hasDestructor, h.record, hasDestructor]
  find := h.find
  resolve := h.resolve
  classDatum := by
    funext c name
    rw [classDatum, ancestors, h.record, classDatum, ancestors]
  classDataOf := by
    funext c
    rw [classDataOf, h.record, classDataOf]
  classDataValue := by
    funext c i
    rw [classDataValue, classDataOf, h.record, classDataValue, classDataOf]

end Recalls

/-! ### Checks -/

theorem recalls_checkOverride (supertypes : List ClassId) (m : MemberDecl) (className : String) (r : Registry) :
    r.Recalls (checkOverride supertypes m className r).2 := by
  induction supertypes generalizing r with
  | nil => exact .refl r
  | cons s rest ih =>
    have hfind : findMember s m.name r = (.ok (r.find s m.name).1, (r.find s m.name).2) := rfl
    have hasked := Recalls.of_find r s m.name
    rw [checkOverride, Action.bind_of_ok hfind]
    cases (r.find s m.name).1 with
    | none => exact hasked.trans (ih _)
    | some inherited =>
      dsimp only
      split
      · exact hasked
      · exact hasked.trans (ih _)

theorem recalls_checkMembers (supertypes : List ClassId) (className : String) (ms : List MemberDecl) (r : Registry) :
    r.Recalls (checkMembers supertypes className ms r).2 := by
  induction ms generalizing r with
  | nil => exact .refl r
  | cons m rest ih =>
    rw [checkMembers]
    cases hlife : checkLifecycle m className with
    | error e =>
      rw [Action.bind_of_error (f := checkMembers.liftExcept (.error e)) rfl]
      exact .refl r
    | ok done =>
      rw [Action.bind_of_ok (f := checkMembers.liftExcept (.ok done)) rfl]
      have hasked := recalls_checkOverride supertypes m className r
      rcases hover : checkOverride supertypes m className r with ⟨e | _, r₁⟩ <;> rw [hover] at hasked
      · rw [Action.bind_of_error hover]
        exact hasked
      · rw [Action.bind_of_ok hover]
        exact hasked.trans (ih r₁)

/-! ### Declarations -/

theorem recalls_of_register_eq_error {decl : ClassDecl} {e : EvalError} (h : register decl r = (.error e, r')) :
    r.Recalls r' := by
  have hleft : (register decl r).2 = r' := congrArg Prod.snd h
  rcases register_cases decl r with hsame | ⟨supertypes, r₁, -, hchecked, hsame | ⟨own, classData, -, hdone⟩⟩
  · rw [← hleft, hsame]
    exact .refl r
  · rw [← hleft, hsame, ← hchecked]
    exact recalls_checkMembers supertypes decl.name decl.members r
  · cases h.symm.trans hdone

theorem recalls_of_define_eq_error {c : ClassId} {decl : MemberDecl} {e : EvalError}
    (h : define c decl r = (.error e, r')) : r.Recalls r' := by
  have hasked := recalls_checkMembers (r.supertypes c) (r.nameOf c) [decl] r
  rw [define, Action.get_bind] at h
  rcases hcheck : checkMembers (r.supertypes c) (r.nameOf c) [decl] r with ⟨e' | _, r₁⟩ <;> rw [hcheck] at hasked
  · rw [Action.bind_of_error hcheck] at h
    cases h
    exact hasked
  · rw [Action.bind_of_ok hcheck] at h
    rcases hreplace : r₁.checkReplace c decl with e' | _
    · have hfail : (r₁.checkReplace c decl, r₁) = (.error e', r₁) := by rw [hreplace]
      rw [Action.bind_of_error (f := fun r ↦ (r.checkReplace c decl, r)) hfail] at h
      cases h
      exact hasked
    · have hpass : (r₁.checkReplace c decl, r₁) = (.ok (), r₁) := by rw [hreplace]
      rw [Action.bind_of_ok (f := fun r ↦ (r.checkReplace c decl, r)) hpass] at h
      cases h

end Registry

/-! ### Interpreters -/

namespace Machine

open Registry

variable {w w' : World} {i : Interrupt}

/-- An action on the registry fails as the registry does, and changes nothing else. -/
theorem onClasses_eq_error {α : Type} {act : Action α} (h : onClasses act w = (.error i, w')) :
    ∃ e, i = .raised e ∧ act w.classes = (.error e, w'.classes) ∧ w' = { w with classes := w'.classes } := by
  unfold onClasses at h
  rcases hact : act w.classes with ⟨e | a, classes⟩ <;> rw [hact] at h
  · cases h
    exact ⟨e, rfl, rfl, rfl⟩
  · cases h

/-- Class data take their first values without fail. -/
theorem initClassData_eq_ok (c : ClassId) (data : List ClassDatum) (n : Nat) (w : World) :
    ∃ w', initClassData c data n w = (.ok (), w') := by
  have hzero : ∀ (v : ClassId) (w : World), ∃ value w', zeroValue v w = (.ok value, w') := by
    intro v w
    unfold zeroValue
    split_ifs <;> exact ⟨_, _, rfl⟩
  induction data generalizing n w with
  | nil => exact ⟨w, rfl⟩
  | cons d rest ih =>
    obtain ⟨value, w₁, hvalue⟩ := hzero d.valueClass w
    rw [initClassData, bind_of_ok hvalue]
    exact ih _ _

theorem registerClass_eq_error {decl : ClassDecl} (h : registerClass decl w = (.error i, w')) :
    onClasses (register decl) w = (.error i, w') := by
  rcases hregister : onClasses (register decl) w with ⟨j | c, w₁⟩
  · rw [registerClass, bind_of_error hregister] at h
    cases h
    rfl
  · obtain ⟨w₂, hinit⟩ := initClassData_eq_ok c (w₁.classes.classDataOf c) 0 w₁
    rw [registerClass, bind_of_ok hregister, get_bind, bind_of_ok hinit] at h
    cases h

end Machine

/-- A declaration that is refused, by a registry or by an interpreter, leaves every answer as it was. -/
theorem refusal_goes_unnoticed :
    (∀ r decl e r', Registry.register decl r = (.error e, r') → r.AnswersAlike r') ∧
    (∀ r c decl e r', Registry.define c decl r = (.error e, r') → r.AnswersAlike r') ∧
    (∀ w decl i w', Machine.registerClass decl w = (.error i, w') →
      w.classes.AnswersAlike w'.classes ∧ w' = { w with classes := w'.classes }) ∧
    ∀ w c decl i w', Machine.defineMember c decl w = (.error i, w') →
      w.classes.AnswersAlike w'.classes ∧ w' = { w with classes := w'.classes } := by
  refine ⟨fun r decl e r' h ↦ ?_, fun r c decl e r' h ↦ ?_, fun w decl i w' h ↦ ?_, fun w c decl i w' h ↦ ?_⟩
  · exact (Registry.recalls_of_register_eq_error h).answersAlike
  · exact (Registry.recalls_of_define_eq_error h).answersAlike
  · obtain ⟨e, -, hregister, hrest⟩ := Machine.onClasses_eq_error (Machine.registerClass_eq_error h)
    exact ⟨(Registry.recalls_of_register_eq_error hregister).answersAlike, hrest⟩
  · obtain ⟨e, -, hdefine, hrest⟩ := Machine.onClasses_eq_error h
    exact ⟨(Registry.recalls_of_define_eq_error hdefine).answersAlike, hrest⟩

/-! ### A class that is refused after a search -/

namespace Registry

def grandchildDecl : ClassDecl :=
  { name := "Grandchild", supertypes := ["Child"], members := [⟨"act", .method, default⟩] }

/-- A method below a coroutine of the same name. -/
theorem exists_refused : ∃ r e r', r.size = 2 ∧ register grandchildDecl r = (.error e, r') ∧
    (r.find ⟨1⟩ "act").1 = some ⟨"act", ⟨1⟩, .coroutine, default⟩ := by
  obtain ⟨r, hbuilt, hclasses⟩ := exists_parentAndChild
  have hsearch : r.search ⟨1⟩ "act" = some ⟨"act", ⟨1⟩, .coroutine, default⟩ := by
    simp [search, ancestors, ownMembers, record, hclasses, parentAndChild, Member.lookup]
  have hsuper : r.resolveSupertypes grandchildDecl.supertypes = .ok [⟨1⟩] := by
    simp [resolveSupertypes, classNamed, hclasses, parentAndChild, grandchildDecl, List.foldlM, List.findIdx?_cons]
  have hsize : r.size = 2 := congrArg Array.size hclasses
  have hfind := (find_of_sound hbuilt.sound (c := ⟨1⟩) (by simp [hsize]) "act").1
  rcases hregister : register grandchildDecl r with ⟨e | id, r'⟩
  · exact ⟨r, e, r', hsize, hregister, hfind.trans hsearch⟩
  · obtain ⟨supertypes, _, _, hsuper', hadmits, -⟩ := register_eq_ok hbuilt.sound hregister
    obtain rfl : [⟨1⟩] = supertypes := Except.ok.inj (hsuper.symm.trans hsuper')
    obtain ⟨-, hkinds⟩ := hadmits _ List.mem_cons_self
    cases hkinds ⟨1⟩ List.mem_cons_self _ hsearch

end Registry

/-- The search that led to the refusal is remembered, and whoever asks again gets the answer from before. -/
theorem refusal_goes_unnoticed_grandchild : ∃ r e r', Registry.register Registry.grandchildDecl r = (.error e, r') ∧
    r'.size = 2 ∧ (r'.find ⟨1⟩ "act").1 = some ⟨"act", ⟨1⟩, .coroutine, default⟩ := by
  obtain ⟨r, e, r', hsize, hrefused, hfind⟩ := Registry.exists_refused
  have halike := refusal_goes_unnoticed.1 r Registry.grandchildDecl e r' hrefused
  exact ⟨r, e, r', hrefused, halike.size.trans hsize, (halike.find ⟨1⟩ "act").trans hfind⟩

end MindScript
