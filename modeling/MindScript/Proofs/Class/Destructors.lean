import MindScript.Class.Core
import MindScript.Proofs.Class.Dispatch

/-!
# Classes without destructors

Registering a class changes the earlier ones in nothing but their subclasses, whether or not it succeeds.  So the
classes of a new interpreter, none of which declares a destructor, have none.
-/

namespace MindScript.Registry

theorem Action.classes_bind {α β : Type} {f : Action α} {F : α → Action β}
    (hf : ∀ r, (f r).2.classes = r.classes) (hF : ∀ a r, (F a r).2.classes = r.classes) (r : Registry) :
    ((f >>= F) r).2.classes = r.classes := by
  rcases h : f r with ⟨e | a, r₁⟩
  · rw [Action.bind_of_error h, ← hf r, h]
  · rw [Action.bind_of_ok h, hF, ← hf r, h]

theorem classes_checkOverride (supertypes : List ClassId) (m : MemberDecl) (className : String) (r : Registry) :
    (checkOverride supertypes m className r).2.classes = r.classes := by
  induction supertypes generalizing r with
  | nil => rfl
  | cons s rest ih =>
    refine Action.classes_bind (fun r ↦ classes_find r s m.name) (fun inherited r ↦ ?_) r
    cases inherited with
    | none => exact ih r
    | some inherited =>
      dsimp only
      split
      · rfl
      · exact ih r

theorem classes_checkMembers (supertypes : List ClassId) (className : String) (ms : List MemberDecl) (r : Registry) :
    (checkMembers supertypes className ms r).2.classes = r.classes := by
  induction ms generalizing r with
  | nil => rfl
  | cons m rest ih =>
    exact Action.classes_bind (fun _ ↦ rfl) (fun _ ↦ Action.classes_bind
      (classes_checkOverride supertypes m className) fun _ r ↦ ih r) r

theorem Action.ofExcept_bind {α β : Type} (x : Except EvalError α) (F : α → Action β) (r : Registry) :
    (register.ofExcept x >>= F) r = match x with
      | .ok a => F a r
      | .error e => (.error e, r) := by
  cases x with
  | ok a => exact Action.bind_of_ok rfl
  | error e => exact Action.bind_of_error rfl

theorem Action.forall_of_mapM {α β : Type} {P : β → Prop} {f : α → Except EvalError β} {as : List α} {bs : List β}
    (h : as.mapM f = .ok bs) (hf : ∀ a b, f a = .ok b → P b) : ∀ b ∈ bs, P b := by
  induction as generalizing bs with
  | nil =>
    cases h
    exact fun _ hb ↦ (nomatch hb)
  | cons a rest ih =>
    rw [List.mapM_cons] at h
    cases ha : f a with
    | error e => simp [ha, bind, Except.bind] at h
    | ok b =>
      cases hrest : rest.mapM f with
      | error e => simp [ha, hrest, bind, Except.bind] at h
      | ok bs' =>
        simp only [ha, hrest, bind, Except.bind, pure, Except.pure, Except.ok.injEq] at h
        subst h
        intro c hc
        rcases List.mem_cons.mp hc with rfl | hc
        · exact hf a c ha
        · exact ih hrest c hc

/-- What registering a class leaves behind: nothing, the answers that its checks remember, or these and its record. -/
theorem register_cases (decl : ClassDecl) (r : Registry) :
    (register decl r).2 = r ∨ ∃ supertypes r₁, r.resolveSupertypes decl.supertypes = .ok supertypes ∧
      (checkMembers supertypes decl.name decl.members r).2 = r₁ ∧ ((register decl r).2 = r₁ ∨
        ∃ own classData, (∀ d ∈ classData, d.value = none) ∧ register decl r =
          (.ok ⟨r₁.size⟩, r₁.addRecord (r₁.newRecord decl supertypes own classData))) := by
  rw [register, Action.get_bind, Action.ofExcept_bind]
  split
  · rw [Action.ofExcept_bind]
    split
    · next supertypes hsuper =>
      rw [Action.ofExcept_bind]
      split
      · rw [Action.ofExcept_bind]
        split
        · next own _ =>
          rw [Action.ofExcept_bind]
          split
          · next classData hclassData =>
            have hclasses := classes_checkMembers supertypes decl.name decl.members r
            refine .inr ⟨supertypes, _, hsuper, rfl, ?_⟩
            rcases hcheck : checkMembers supertypes decl.name decl.members r with ⟨e | _, r₁⟩
            · rw [Action.bind_of_error hcheck]
              exact .inl rfl
            · rw [hcheck] at hclasses
              rw [Action.bind_of_ok hcheck]
              have hsize : r₁.size = r.size := congrArg Array.size hclasses
              refine .inr ⟨own, classData, ?_, ?_⟩
              · exact Action.forall_of_mapM hclassData fun d value hvalue ↦ by
                  cases hclass : r.resolveDataClass decl.name ⟨r.classes.size⟩ d with
                  | error e => simp [hclass, bind, Except.bind] at hvalue
                  | ok c =>
                    rw [hclass] at hvalue
                    cases hvalue
                    rfl
              · rw [newRecord, hsize]
                rfl
          · exact .inl rfl
        · exact .inl rfl
      · exact .inl rfl
    · exact .inl rfl
  · exact .inl rfl

/-- Registering a class, also in vain, leaves the earlier ones as they are, up to their subclasses. -/
theorem classes_register (decl : ClassDecl) (r : Registry) :
    (register decl r).2.classes = r.classes ∨ ∃ supertypes own classData,
      (register decl r).2.classes = (r.addRecord (r.newRecord decl supertypes own classData)).classes := by
  rcases register_cases decl r with h | ⟨supertypes, r₁, -, rfl, h | ⟨own, classData, -, h⟩⟩ <;> rw [h]
  · exact .inl rfl
  · exact .inl (classes_checkMembers ..)
  · exact .inr ⟨supertypes, own, classData, addRecord_congr (classes_checkMembers ..) decl supertypes own classData⟩

theorem hasDestructor_register {r : Registry} (h : ∀ c, r.hasDestructor c = false) {decl : ClassDecl}
    (hdecl : ∀ m ∈ decl.members, m.name ≠ destructorName) (c : ClassId) :
    (register decl r).2.hasDestructor c = false := by
  rcases classes_register decl r with hsame | ⟨supertypes, own, classData, hadded⟩
  · rw [hasDestructor, record, hsame]
    exact h c
  · rw [hasDestructor, record, hadded]
    rcases record_addRecord r (r.newRecord decl supertypes own classData) c with ⟨-, heq⟩ | ⟨-, _, heq⟩
    · refine (congrArg ClassRecord.hasDestructor heq).trans ?_
      simpa [newRecord, h] using hdecl
    · refine (congrArg ClassRecord.hasDestructor heq).trans (h c)

end MindScript.Registry

namespace MindScript

theorem CoreClass.hasDestructor_registry (c : ClassId) : CoreClass.registry.hasDestructor c = false := by
  have hall : ∀ (decls : List ClassDecl) (r : Registry), (∀ c, r.hasDestructor c = false) →
      (∀ decl ∈ decls, ∀ m ∈ decl.members, m.name ≠ destructorName) →
      ∀ c, (decls.foldl (fun r decl ↦ (Registry.register decl r).2) r).hasDestructor c = false := by
    intro decls
    induction decls with
    | nil => exact fun r hr _ ↦ hr
    | cons decl rest ih =>
      intro r hr hdecls
      rw [List.forall_mem_cons] at hdecls
      exact ih _ (Registry.hasDestructor_register hr hdecls.1) hdecls.2
  refine hall CoreClass.all {} (fun _ ↦ rfl) ?_ c
  decide

end MindScript
