import MindScript.Class.Core
import MindScript.Proofs.Class.Dispatch

/-!
# The classes of a new interpreter

The core classes are registered one after the other, and each time the checks pass.  Whether they do depends on the
earlier classes only, and not on the answers that are remembered; so this can be computed without any memory.
-/

namespace MindScript.Registry

/-- The slots that a new class declares itself. -/
def ownSlots (r : Registry) (decl : ClassDecl) : Except EvalError (List Slot) :=
  decl.data.mapM fun d ↦ do
    return { name := d.name, valueClass := ← r.resolveDataClass decl.name ⟨r.size⟩ d, owner := ⟨r.size⟩ : Slot }

/-- The registry with one class more that has no class data, whether or not the checks pass. -/
def adding (r : Registry) (decl : ClassDecl) : Registry :=
  r.addRecord (r.newRecord decl ((r.resolveSupertypes decl.supertypes).toOption.getD [])
    ((r.ownSlots decl).toOption.getD []) [])

/-- The checks of a class without class data pass. -/
def accepts (r : Registry) (decl : ClassDecl) : Bool :=
  match r.checkName decl, r.resolveSupertypes decl.supertypes, r.ownSlots decl with
  | .ok (), .ok supertypes, .ok _ =>
    decide (r.size < maxSize) && decl.classData.isEmpty && decl.members.all fun m ↦
      (checkLifecycle m decl.name).isOk && supertypes.all fun s ↦
        (r.search s m.name).all fun inherited ↦ inherited.kind == m.kind
  | _, _, _ => false

/-- The checks of each class in turn pass. -/
def acceptsAll (r : Registry) : List ClassDecl → Bool
  | [] => true
  | decl :: rest => r.accepts decl && (r.adding decl).acceptsAll rest

/-- What the checks depend on is the same in every registry with these classes, so the class is registered there. -/
theorem register_of_accepts {r r' : Registry} (h : r.Remembers r') {decl : ClassDecl} (haccepts : r.accepts decl = true) :
    ∃ r'', register decl r' = (.ok ⟨r.size⟩, r'') ∧ (r.adding decl).Remembers r'' := by
  obtain ⟨classes, cache⟩ := r
  obtain ⟨classes', cache'⟩ := r'
  obtain rfl : classes' = classes := h.classes
  unfold accepts at haccepts
  split at haccepts
  · next supertypes own hname hsuper hown =>
    simp only [Bool.and_eq_true, decide_eq_true_eq, List.isEmpty_iff, List.all_eq_true] at haccepts
    obtain ⟨⟨hroom, hclassData⟩, hmembers⟩ := haccepts
    have hadmits : ∀ m ∈ decl.members, Admits ⟨classes', cache'⟩ supertypes decl.name m := by
      intro m hm
      obtain ⟨hlifecycle, hkinds⟩ := hmembers m hm
      refine ⟨?_, fun s hs inherited hfound ↦ ?_⟩
      · cases hcheck : checkLifecycle m decl.name with
        | ok _ => rfl
        | error e => simp [hcheck, Except.isOk, Except.toBool] at hlifecycle
      · have hsame : (⟨classes', cache⟩ : Registry).search s m.name = some inherited := hfound
        simpa [hsame] using hkinds s hs
    obtain ⟨r'', hregister, hremembers⟩ :=
      register_of_checks ⟨rfl, h.sound⟩ hname hsuper hroom hown (by rw [hclassData]; rfl) hadmits
    have hadding : (adding ⟨classes', cache⟩ decl).classes =
        (addRecord ⟨classes', cache'⟩ (newRecord ⟨classes', cache'⟩ decl supertypes own [])).classes := by
      rw [adding, hsuper, hown]
      rfl
    exact ⟨r'', hregister, hremembers.classes.trans hadding.symm, hremembers.sound⟩
  · cases haccepts

/-- So a member that passes its checks in one of these registries is stored in the others too. -/
theorem define_of_admits {r r' : Registry} (h : r.Remembers r') {c : ClassId} (hc : c.index < r.size)
    {decl : MemberDecl} (hadmits : r.Admits (r.supertypes c) (r.nameOf c) decl)
    (hreplace : r.checkReplace c decl = .ok ()) :
    ∃ r'', define c decl r' = (.ok (), r'') ∧ (r.storeMember c decl).Remembers r'' := by
  have hname : r'.nameOf c = r.nameOf c := congrArg ClassRecord.name (congrFun h.record c)
  obtain ⟨r'', hdefine, hremembers⟩ := define_ok h.sound (h.size.symm ▸ hc) (by rwa [h.supertypes, hname, h.admits_iff])
    (by rwa [h.checkReplace])
  exact ⟨r'', hdefine, hremembers.classes.trans (h.storeMember hc).classes, hremembers.sound⟩

theorem foldl_register_of_accepts {r r' : Registry} (h : r.Remembers r') {decls : List ClassDecl}
    (haccepts : r.acceptsAll decls = true) :
    (decls.foldl adding r).Remembers (decls.foldl (fun r decl ↦ (register decl r).2) r') := by
  induction decls generalizing r r' with
  | nil => exact h
  | cons decl rest ih =>
    rw [acceptsAll, Bool.and_eq_true] at haccepts
    obtain ⟨r'', hregister, hremembers⟩ := register_of_accepts h haccepts.1
    rw [List.foldl_cons, List.foldl_cons, hregister]
    exact ih hremembers haccepts.2

end MindScript.Registry

namespace MindScript.CoreClass

theorem registry_remembers : (all.foldl Registry.adding {}).Remembers registry :=
  Registry.foldl_register_of_accepts ⟨rfl, .empty⟩ (by decide +kernel)

/-- There are eleven core classes, without slots and without data of their own. -/
theorem plain_foldl : (all.foldl Registry.adding {}).size = 11 ∧
    ∀ i < 11, (all.foldl Registry.adding {}).layout ⟨i⟩ = [] ∧ (all.foldl Registry.adding {}).classDataOf ⟨i⟩ = [] := by
  decide +kernel

theorem lt_size {i : ℕ} (hi : i < 11) : i < (all.foldl Registry.adding {}).size := plain_foldl.1 ▸ hi

theorem size_registry : registry.size = 11 :=
  (Registry.Remembers.size registry_remembers).trans plain_foldl.1

theorem layout_registry {c : ClassId} (hc : c.index < registry.size) : registry.layout c = [] := by
  rw [Registry.Remembers.layout registry_remembers]
  exact (plain_foldl.2 c.index (size_registry ▸ hc)).1

theorem classDataOf_registry (c : ClassId) : registry.classDataOf c = [] := by
  by_cases hc : c.index < registry.size
  · rw [Registry.Remembers.classDataOf registry_remembers]
    exact (plain_foldl.2 c.index (size_registry ▸ hc)).2
  · rw [Registry.classDataOf, Registry.record_of_size_le (Nat.le_of_not_lt hc)]
    rfl

end MindScript.CoreClass
