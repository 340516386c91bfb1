import MindScript.Proofs.Class.Answers

/-!
# Marks stay

A class with a destructor has one from then on, whatever classes are registered, whatever members are defined, and
whatever becomes of class data.
-/

namespace MindScript.Registry

/-- No class loses its destructor. -/
def KeepsMarks (r r' : Registry) : Prop := ∀ c, r.hasDestructor c = true → r'.hasDestructor c = true

namespace KeepsMarks

variable {r r' r'' : Registry}

theorem refl (r : Registry) : KeepsMarks r r := fun _ ↦ id

theorem trans (h : KeepsMarks r r') (h' : KeepsMarks r' r'') : KeepsMarks r r'' := fun c hc ↦ h' c (h c hc)

theorem of_hasDestructor (h : ∀ c, r'.hasDestructor c = r.hasDestructor c) : KeepsMarks r r' :=
  fun c hc ↦ (h c).trans hc

theorem of_classes (h : r'.classes = r.classes) : KeepsMarks r r' :=
  of_hasDestructor fun c ↦ by rw [hasDestructor, hasDestructor, record, record, h]

theorem setClassData (r : Registry) (c : ClassId) (i : Nat) (value : Ref) :
    KeepsMarks r (r.setClassData c i value).2 :=
  of_hasDestructor fun d ↦ r.hasDestructor_setClassData c d i value

theorem clearClassData (r : Registry) : KeepsMarks r r.clearClassData :=
  of_hasDestructor fun c ↦ by rw [hasDestructor, record_clearClassData, hasDestructor]

theorem addRecord (r : Registry) (new : ClassRecord) : KeepsMarks r (r.addRecord new) := by
  intro c hc
  rcases record_addRecord r new c with ⟨hnew, -⟩ | ⟨-, subclasses, heq⟩
  · -- Nothing is noted about a class before it is registered.
    rw [hasDestructor, record_of_size_le (Nat.le_of_eq hnew.symm)] at hc
    cases hc
  · rw [hasDestructor, heq]
    exact hc

theorem storeMember (r : Registry) (c : ClassId) (decl : MemberDecl) : KeepsMarks r (r.storeMember c decl) := by
  intro d hd
  have hlt : d.index < r.size := by
    by_contra hnot
    rw [hasDestructor, record_of_size_le (Nat.le_of_not_lt hnot)] at hd
    cases hd
  rw [hasDestructor, record_storeMember r c decl hlt]
  simp [hd]

theorem register (decl : ClassDecl) (r : Registry) : KeepsMarks r (register decl r).2 := by
  rcases classes_register decl r with hsame | ⟨supertypes, own, classData, hadded⟩
  · exact of_classes hsame
  · exact (addRecord r _).trans (of_classes hadded)

theorem define (c : ClassId) (decl : MemberDecl) (r : Registry) : KeepsMarks r (define c decl r).2 := by
  obtain ⟨r₁, rfl, hr⟩ := define_cases c decl r
  have hchecked : KeepsMarks r (checkMembers (r.supertypes c) (r.nameOf c) [decl] r).2 :=
    of_classes (classes_checkMembers ..)
  rcases hr with hr | hr <;> rw [hr]
  · exact hchecked
  · exact hchecked.trans (storeMember _ c decl)

end KeepsMarks

end MindScript.Registry
