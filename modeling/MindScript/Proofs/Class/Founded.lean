import MindScript.Proofs.Class.Declared
import MindScript.Proofs.Class.Foundation

/-!
# Names that the core classes keep

A registry grows out of the core classes.  Unless a member is defined on one of them under a certain name, dispatch of that
name on a core class finds what it found in a new interpreter, whatever other classes and members there are by then.
-/

namespace MindScript.Registry

/-- The request defines no member of that name on a core class. -/
def Request.Spares (name : String) : Request → Prop
  | define c decl => decl.name = name → CoreClass.registry.size ≤ c.index
  | register _ | find _ _ | resolve _ _ _ => True

/-- Registries that requests and changes to class data make out of the core classes, which keep their members of one name. -/
inductive Founded (name : String) : Registry → Prop
  | core : Founded name CoreClass.registry
  | request {r : Registry} {q : Request} (founded : Founded name r) (fits : q.Fits r) (spares : q.Spares name) :
      Founded name (q.after r)
  | setClassData {r : Registry} (founded : Founded name r) (c : ClassId) (i : Nat) (value : Ref) :
      Founded name (r.setClassData c i value).2
  | clearClassData {r : Registry} (founded : Founded name r) : Founded name r.clearClassData

variable {name : String} {r r' : Registry} {c : ClassId}

/-! ### What every step keeps -/

/-- Searches for the name on core classes go the way that they went at first. -/
structure Grounded (name : String) (r : Registry) : Prop where
  size : CoreClass.registry.size ≤ r.size
  ancestors : ∀ c : ClassId, c.index < CoreClass.registry.size → r.ancestors c = CoreClass.registry.ancestors c
  lookup : ∀ c : ClassId, c.index < CoreClass.registry.size →
    Member.lookup (r.ownMembers c) name = Member.lookup (CoreClass.registry.ownMembers c) name

namespace Grounded

theorem of_classes (h : r.Grounded name) (hclasses : r'.classes = r.classes) : r'.Grounded name := by
  refine ⟨?_, ?_, ?_⟩
  · simpa only [Registry.size, hclasses] using h.size
  · simpa only [Registry.ancestors, record, hclasses] using h.ancestors
  · simpa only [ownMembers, record, hclasses] using h.lookup

theorem addRecord (h : r.Grounded name) (new : ClassRecord) : (r.addRecord new).Grounded name := by
  have hne : ∀ c : ClassId, c.index < CoreClass.registry.size → c.index ≠ r.size := fun c hc ↦
    Nat.ne_of_lt (Nat.lt_of_lt_of_le hc h.size)
  refine ⟨?_, fun c hc ↦ ?_, fun c hc ↦ ?_⟩
  · rw [size_addRecord]
    exact Nat.le_succ_of_le h.size
  · rw [ancestors_addRecord_of_ne (hne c hc), h.ancestors c hc]
  · rw [ownMembers_addRecord_of_ne (hne c hc), h.lookup c hc]

theorem storeMember (h : r.Grounded name) {decl : MemberDecl} (hspares : (Request.define c decl).Spares name) :
    (r.storeMember c decl).Grounded name := by
  have hlt : ∀ d : ClassId, d.index < CoreClass.registry.size → d.index < r.size := fun d hd ↦
    Nat.lt_of_lt_of_le hd h.size
  refine ⟨?_, fun d hd ↦ ?_, fun d hd ↦ ?_⟩
  · rw [size_storeMember]
    exact h.size
  · rw [ancestors_storeMember r c decl (hlt d hd), h.ancestors d hd]
  · rw [lookup_storeMember r c decl (hlt d hd), if_neg, h.lookup d hd]
    rintro ⟨rfl, rfl⟩
    exact Nat.not_le_of_lt hd (hspares rfl)

theorem revalued (h : r.Grounded name) (hr : r.Revalued r') : r'.Grounded name := by
  refine ⟨hr.size ▸ h.size, fun c hc ↦ ?_, fun c hc ↦ ?_⟩ <;> obtain ⟨classData, heq⟩ := hr.record c
  · rw [Registry.ancestors, heq]
    exact h.ancestors c hc
  · rw [ownMembers, heq]
    exact h.lookup c hc

theorem request (h : r.Grounded name) {q : Request} (hspares : q.Spares name) : (q.after r).Grounded name := by
  cases q with
  | register decl =>
    rcases classes_register decl r with hclasses | ⟨supertypes, own, classData, hclasses⟩
    · exact h.of_classes hclasses
    · exact (h.addRecord _).of_classes hclasses
  | define c decl =>
    have hchecked := h.of_classes (classes_checkMembers (r.supertypes c) (r.nameOf c) [decl] r)
    obtain ⟨_, rfl, heq | heq⟩ := define_cases c decl r <;> rw [Request.after, heq]
    · exact hchecked
    · exact hchecked.storeMember hspares
  | find c name => exact h.of_classes (classes_find r c name)
  | resolve c name qualifier =>
    rcases resolve_cases r c name qualifier with ⟨start, heq⟩ | ⟨note, heq⟩ <;> rw [Request.after, heq]
    · exact h.of_classes (classes_find r start name)
    · exact h

end Grounded

/-! ### Registering the core classes -/

theorem Asked.foldl_register (h : Asked r) (decls : List ClassDecl) :
    Asked (decls.foldl (fun r decl ↦ (register decl r).2) r) := by
  induction decls generalizing r with
  | nil => exact h
  | cons decl rest ih => exact ih (h.request (q := .register decl) trivial)

theorem asked_registry : Asked CoreClass.registry := Asked.empty.foldl_register CoreClass.all

/-! ### Dispatch on core classes -/

namespace Founded

theorem sound_marked (h : r.Founded name) : r.Sound ∧ r.Marked := by
  induction h with
  | core => exact asked_registry.sound
  | request _ hfits _ ih => exact Request.sound_after ih.1 ih.2 hfits
  | setClassData _ c i value ih => exact (Revalued.of_setClassData _ c i value).sound ih.1 ih.2
  | clearClassData _ ih => exact (Revalued.of_clearClassData _).sound ih.1 ih.2

theorem sound (h : r.Founded name) : r.Sound := h.sound_marked.1

theorem grounded (h : r.Founded name) : r.Grounded name := by
  induction h with
  | core => exact ⟨Nat.le_refl _, fun _ _ ↦ rfl, fun _ _ ↦ rfl⟩
  | request _ _ hspares ih => exact ih.request hspares
  | setClassData _ c i value ih => exact ih.revalued (.of_setClassData _ c i value)
  | clearClassData _ ih => exact ih.revalued (.of_clearClassData _)

/-- On a core class a search for the name finds what it found in a new interpreter. -/
theorem search (h : r.Founded name) (hc : c.index < CoreClass.registry.size) :
    r.search c name = (CoreClass.all.foldl adding {}).search c name := by
  have hsound : CoreClass.registry.Sound := asked_registry.sound.1
  rw [← Registry.Remembers.search CoreClass.registry_remembers, Registry.search, Registry.search, h.grounded.ancestors c hc]
  exact findSome?_congr fun a ha ↦
    h.grounded.lookup a (Nat.lt_of_le_of_lt (hsound.index_le_of_mem hc ha) hc)

end Founded

end MindScript.Registry
