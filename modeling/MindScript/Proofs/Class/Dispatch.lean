import MindScript.Class.Registry
import Mathlib.Data.List.Basic

/-!
# Dispatch without memory

The registry remembers the answers of its searches.  A registry is sound if its classes are well-founded
and everything it remembers is what a new search would find; registering classes and defining members keep
it sound.  For a sound registry the two operations are described here without any mention of the memory:
when they succeed, and what the classes are afterwards.
-/

namespace MindScript.Registry

/-! ### Actions -/

namespace Action

variable {α β : Type} {f : Action α} {F : α → Action β} {r r' : Registry}

theorem bind_of_ok {a : α} (h : f r = (.ok a, r')) : (f >>= F) r = F a r' := by
  simp only [bind, ExceptT.bind, ExceptT.mk, StateT.bind, h]
  rfl

theorem bind_of_error {e : EvalError} (h : f r = (.error e, r')) : (f >>= F) r = (.error e, r') := by
  simp only [bind, ExceptT.bind, ExceptT.mk, StateT.bind, h]
  rfl

theorem get_bind {F : Registry → Action β} : (get >>= F) r = F r r := rfl

theorem bind_eq_ok_iff {b : β} :
    (f >>= F) r = (.ok b, r') ↔ ∃ a r₁, f r = (.ok a, r₁) ∧ F a r₁ = (.ok b, r') := by
  constructor
  · intro h
    rcases hf : f r with ⟨e | a, r₁⟩
    · rw [bind_of_error hf] at h
      cases h
    · rw [bind_of_ok hf] at h
      exact ⟨a, r₁, rfl, h⟩
  · rintro ⟨a, r₁, hf, hF⟩
    rw [bind_of_ok hf, hF]

theorem ofExcept_bind_eq_ok_iff {x : Except EvalError α} {b : β} :
    (register.ofExcept x >>= F) r = (.ok b, r') ↔ ∃ a, x = .ok a ∧ F a r = (.ok b, r') := by
  rw [bind_eq_ok_iff]
  constructor
  · rintro ⟨a, r₁, ha, hF⟩
    cases ha
    exact ⟨a, rfl, hF⟩
  · rintro ⟨a, rfl, hF⟩
    exact ⟨a, r, rfl, hF⟩

end Action

/-! ### Sound registries -/

/-- Supertypes are registered before the classes that derive from them and list these as their subclasses, the
ancestors of a class are itself and those of its supertypes, and what is remembered is true. -/
structure Sound (r : Registry) : Prop where
  supertypes : ∀ c, c.index < r.size → ∀ s ∈ r.supertypes c, s.index < c.index
  subclasses : ∀ c, c.index < r.size → ∀ d, d ∈ r.subclasses c ↔ d.index < r.size ∧ c ∈ r.supertypes d
  ancestors : ∀ c, c.index < r.size → ∀ a, a ∈ r.ancestors c ↔ a = c ∨ ∃ s ∈ r.supertypes c, a ∈ r.ancestors s
  cache : ∀ c name answer, r.cache[(c, name)]? = some answer → c.index < r.size ∧ answer = r.search c name

theorem record_of_size_le {r : Registry} {c : ClassId} (h : r.size ≤ c.index) : r.record c = default := by
  rw [record, Array.getD_eq_getD_getElem?, Array.getElem?_eq_none h, Option.getD_none]

theorem hasDestructor_setClassData (r : Registry) (c d : ClassId) (i : Nat) (value : Ref) :
    (r.setClassData c i value).2.hasDestructor d = r.hasDestructor d := by
  simp only [hasDestructor, record, setClassData, Array.getD_eq_getD_getElem?, Array.getElem?_modify]
  split
  · cases r.classes[d.index]? <;> rfl
  · rfl

theorem findSome?_congr {α β : Type} {f g : α → Option β} {as : List α} (h : ∀ a ∈ as, f a = g a) :
    as.findSome? f = as.findSome? g := by
  induction as with
  | nil => rfl
  | cons a rest ih =>
    rw [List.forall_mem_cons] at h
    rw [List.findSome?_cons, List.findSome?_cons, h.1, ih h.2]

theorem search_congr {r r' : Registry} (h : r'.classes = r.classes) : r'.search = r.search := by
  funext c name
  simp only [search, ancestors, ownMembers, record_congr h]

theorem Sound.empty : Sound {} := by
  refine ⟨fun c hc ↦ ?_, fun c hc ↦ ?_, fun c hc ↦ ?_, fun c name answer h ↦ by simp at h⟩ <;>
    exact absurd hc (Nat.not_lt_zero _)

namespace Sound

variable {r r' : Registry} {c : ClassId}

theorem of_classes (h : r.Sound) (hclasses : r'.classes = r.classes)
    (hcache : ∀ c name answer, r'.cache[(c, name)]? = some answer →
      c.index < r'.size ∧ answer = r'.search c name) : r'.Sound := by
  refine ⟨?_, ?_, ?_, hcache⟩
  · simpa only [size, Registry.supertypes, record, hclasses] using h.supertypes
  · simpa only [size, Registry.subclasses, Registry.supertypes, record, hclasses] using h.subclasses
  · simpa only [size, Registry.supertypes, Registry.ancestors, record, hclasses] using h.ancestors

theorem self_mem_ancestors (h : r.Sound) (hc : c.index < r.size) : c ∈ r.ancestors c :=
  (h.ancestors c hc c).mpr (.inl rfl)

/-- An ancestor is not registered after its descendant. -/
theorem index_le_of_mem (h : r.Sound) (hc : c.index < r.size) {a : ClassId} (ha : a ∈ r.ancestors c) :
    a.index ≤ c.index := by
  obtain ⟨n⟩ := c
  induction n using Nat.strongRecOn with
  | _ n ih =>
    rcases (h.ancestors ⟨n⟩ hc a).mp ha with rfl | ⟨s, hs, has⟩
    · exact Nat.le_refl _
    · have hlt := h.supertypes ⟨n⟩ hc s hs
      exact Nat.le_trans (ih s.index hlt (Nat.lt_trans hlt hc) has) (Nat.le_of_lt hlt)

/-- The ancestors of an ancestor are ancestors. -/
theorem ancestors_trans (h : r.Sound) (hc : c.index < r.size) {a b : ClassId} (ha : a ∈ r.ancestors c)
    (hb : b ∈ r.ancestors a) : b ∈ r.ancestors c := by
  obtain ⟨n⟩ := c
  induction n using Nat.strongRecOn with
  | _ n ih =>
    rcases (h.ancestors ⟨n⟩ hc a).mp ha with rfl | ⟨s, hs, has⟩
    · exact hb
    · have hlt := h.supertypes ⟨n⟩ hc s hs
      exact (h.ancestors ⟨n⟩ hc b).mpr (.inr ⟨s, hs, ih s.index hlt (Nat.lt_trans hlt hc) has⟩)

end Sound

/-! ### Descendants -/

section descend

variable {r : Registry} {found stack : List ClassId}

theorem mem_descend {d : ClassId} (h : d ∈ found ∨ d ∈ stack) : d ∈ r.descend found stack := by
  induction found, stack using descend.induct r with
  | case1 found => simpa [descend] using h
  | case2 found c rest hfound ih =>
    rw [descend, if_pos hfound]
    apply ih
    rcases h with h | h
    · exact .inl h
    · rcases List.mem_cons.mp h with rfl | h
      · exact .inl (List.contains_iff_mem.mp hfound)
      · exact .inr h
  | case3 found c rest hfound ih =>
    rw [descend, if_neg hfound]
    apply ih
    simp only [List.mem_cons, List.mem_append] at h ⊢
    tauto

/-- Whatever holds of the start and is handed on to subclasses holds of everything that is found. -/
theorem forall_descend {p : ClassId → Prop} (hstep : ∀ c, p c → ∀ d ∈ r.subclasses c, p d)
    (hfound : ∀ d ∈ found, p d) (hstack : ∀ d ∈ stack, p d) : ∀ d ∈ r.descend found stack, p d := by
  induction found, stack using descend.induct r with
  | case1 found => simpa [descend] using hfound
  | case2 found c rest hc ih =>
    rw [descend, if_pos hc]
    exact ih hfound fun d hd ↦ hstack d (List.mem_cons_of_mem c hd)
  | case3 found c rest hc ih =>
    rw [descend, if_neg hc]
    have hpc := hstack c List.mem_cons_self
    refine ih (List.forall_mem_cons.mpr ⟨hpc, hfound⟩) fun d hd ↦ ?_
    rcases List.mem_append.mp hd with hd | hd
    · exact hstep c hpc d (List.mem_reverse.mp hd)
    · exact hstack d (List.mem_cons_of_mem c hd)

/-- The subclasses of a class that was found are found, now or later. -/
theorem descend_closed (hfound : ∀ c ∈ found, ∀ d ∈ r.subclasses c, d ∈ found ∨ d ∈ stack) :
    ∀ c ∈ r.descend found stack, ∀ d ∈ r.subclasses c, d ∈ r.descend found stack := by
  induction found, stack using descend.induct r with
  | case1 found => simpa [descend] using hfound
  | case2 found c rest hc ih =>
    rw [descend, if_pos hc]
    refine ih fun b hb d hd ↦ ?_
    rcases hfound b hb d hd with h | h
    · exact .inl h
    · rcases List.mem_cons.mp h with rfl | h
      · exact .inl (List.contains_iff_mem.mp hc)
      · exact .inr h
  | case3 found c rest hc ih =>
    rw [descend, if_neg hc]
    refine ih fun b hb d hd ↦ ?_
    simp only [List.mem_cons, List.mem_append, List.mem_reverse] at hb hfound ⊢
    rcases hb with rfl | hb
    · exact .inr (.inl hd)
    · have hseen := hfound b hb d hd
      tauto

/-- The descendants of a class are the classes that have it among their ancestors. -/
theorem Sound.mem_descendants_iff (h : r.Sound) {c : ClassId} (hc : c.index < r.size) {d : ClassId} :
    d ∈ r.descendants c ↔ d.index < r.size ∧ c ∈ r.ancestors d := by
  constructor
  · refine forall_descend (p := fun d ↦ d.index < r.size ∧ c ∈ r.ancestors d) ?_ (by simp) ?_ d
    · intro b ⟨hb, hcb⟩ d hd
      obtain ⟨hd, hbd⟩ := (h.subclasses b hb d).mp hd
      exact ⟨hd, (h.ancestors d hd c).mpr (.inr ⟨b, hbd, hcb⟩)⟩
    · simpa using ⟨hc, (h.ancestors c hc c).mpr (.inl rfl)⟩
  · -- Down a chain of supertypes each class lists the next one.
    obtain ⟨n⟩ := d
    induction n using Nat.strongRecOn with
    | _ n ih =>
      intro ⟨hd, hcd⟩
      rcases (h.ancestors ⟨n⟩ hd c).mp hcd with rfl | ⟨s, hs, hcs⟩
      · exact mem_descend (.inr List.mem_cons_self)
      · have hlt : s.index < n := h.supertypes ⟨n⟩ hd s hs
        have hsize : s.index < r.size := Nat.lt_trans hlt hd
        exact descend_closed (by simp) s (ih s.index hlt ⟨hsize, hcs⟩) ⟨n⟩ ((h.subclasses s hsize ⟨n⟩).mpr ⟨hd, hs⟩)

end descend

/-! ### Searching -/

/-- A search finds a member that an ancestor declares, as soon as there is one. -/
theorem search_eq_some {r : Registry} {c : ClassId} {name : String} {m : Member}
    (h : r.search c name = some m) :
    ∃ a ∈ r.ancestors c, Member.lookup (r.ownMembers a) name = some m :=
  List.exists_of_findSome?_eq_some h

theorem exists_search {r : Registry} {c a : ClassId} {name : String} {m : Member} (ha : a ∈ r.ancestors c)
    (hm : Member.lookup (r.ownMembers a) name = some m) : ∃ m', r.search c name = some m' := by
  rw [← Option.isSome_iff_exists, search, List.findSome?_isSome_iff]
  exact ⟨a, ha, by rw [hm, Option.isSome_some]⟩

/-- Only the memory has changed, for the better. -/
structure Remembers (r r' : Registry) : Prop where
  classes : r'.classes = r.classes
  sound : r'.Sound

namespace Remembers

variable {r r' : Registry}

theorem size (h : r.Remembers r') : r'.size = r.size := congrArg Array.size h.classes

theorem record (h : r.Remembers r') : r'.record = r.record := record_congr h.classes

theorem supertypes (h : r.Remembers r') (c : ClassId) : r'.supertypes c = r.supertypes c :=
  congrArg ClassRecord.supertypes (congrFun h.record c)

theorem ancestors (h : r.Remembers r') (c : ClassId) : r'.ancestors c = r.ancestors c :=
  congrArg ClassRecord.ancestors (congrFun h.record c)

theorem layout (h : r.Remembers r') (c : ClassId) : r'.layout c = r.layout c :=
  congrArg ClassRecord.layout (congrFun h.record c)

theorem classDataOf (h : r.Remembers r') (c : ClassId) : r'.classDataOf c = r.classDataOf c :=
  congrArg ClassRecord.classData (congrFun h.record c)

theorem hasDestructor (h : r.Remembers r') (c : ClassId) : r'.hasDestructor c = r.hasDestructor c :=
  congrArg ClassRecord.hasDestructor (congrFun h.record c)

theorem search (h : r.Remembers r') : r'.search = r.search := search_congr h.classes

end Remembers

theorem classes_find (r : Registry) (c : ClassId) (name : String) : (r.find c name).2.classes = r.classes := by
  unfold find
  split <;> rfl

theorem find_of_sound {r : Registry} (h : r.Sound) {c : ClassId} (hc : c.index < r.size) (name : String) :
    (r.find c name).1 = r.search c name ∧ r.Remembers (r.find c name).2 := by
  unfold find
  cases hcache : r.cache[(c, name)]? with
  | some answer => exact ⟨(h.cache c name answer hcache).2, rfl, h⟩
  | none =>
    refine ⟨rfl, rfl, h.of_classes rfl fun c' name' answer h' ↦ ?_⟩
    simp only [Std.HashMap.getElem?_insert] at h'
    split at h'
    · next heq =>
      obtain ⟨rfl, rfl⟩ := Prod.mk.inj (eq_of_beq heq)
      exact ⟨hc, (Option.some.inj h').symm⟩
    · exact h.cache c' name' answer h'

theorem Remembers.find {r r' : Registry} (h : r.Remembers r') {c : ClassId} (hc : c.index < r.size) (name : String) :
    r.Remembers (r'.find c name).2 := by
  obtain ⟨-, hremembers⟩ := find_of_sound h.sound (h.size.symm ▸ hc) name
  exact ⟨hremembers.classes.trans h.classes, hremembers.sound⟩

/-- What a search finds is the answer, and the name is unknown if it finds nothing. -/
theorem findMember_bind (r : Registry) (c start : ClassId) (name : String) :
    (findMember start name >>= fun
      | some m => pure m
      | none => throw (r.notFound c name) : Action Member) r =
        ((r.find start name).1.elim (.error (r.notFound c name)) .ok, (r.find start name).2) := by
  have hfind : findMember start name r = (.ok (r.find start name).1, (r.find start name).2) := rfl
  rw [Action.bind_of_ok hfind]
  cases (r.find start name).1 <;> rfl

/-- Dispatch is a search from the qualifier on, or from the class if there is none. -/
theorem resolve_of_isSubtype {r : Registry} {c : ClassId} {qualifier : Option ClassId}
    (h : ∀ q ∈ qualifier, r.isSubtype c q = true) (name : String) :
    resolve c name qualifier r = ((r.find (qualifier.getD c) name).1.elim (.error (r.notFound c name)) .ok,
      (r.find (qualifier.getD c) name).2) := by
  cases qualifier with
  | none => exact r.findMember_bind c c name
  | some q =>
    refine .trans ?_ (r.findMember_bind c q name)
    change (if r.isSubtype c q = true then _ else _ : Action Member) r = _
    rw [h q rfl]
    rfl

/-- A qualifier that is not an ancestor is refused before any search. -/
theorem resolve_of_not_isSubtype {r : Registry} {c q : ClassId} (h : r.isSubtype c q = false) (name : String) :
    ∃ note, resolve c name (some q) r = (.error ((r.notFound c name).withNote note), r) := by
  refine ⟨"`" ++ r.nameOf q ++ "` is not an ancestor of `" ++ r.nameOf c ++ "`", ?_⟩
  change (if r.isSubtype c q = true then _ else _ : Action Member) r = _
  rw [h]
  rfl

theorem resolve_cases (r : Registry) (c : ClassId) (name : String) (qualifier : Option ClassId) :
    (∃ start, resolve c name qualifier r =
      ((r.find start name).1.elim (.error (r.notFound c name)) .ok, (r.find start name).2)) ∨
    ∃ note, resolve c name qualifier r = (.error ((r.notFound c name).withNote note), r) := by
  cases qualifier with
  | none => exact .inl ⟨c, resolve_of_isSubtype (by simp) name⟩
  | some q =>
    cases hq : r.isSubtype c q with
    | true => exact .inl ⟨q, resolve_of_isSubtype (by simpa using hq) name⟩
    | false => exact .inr (resolve_of_not_isSubtype hq name)

/-! ### Checking members -/

/-- A member may be declared below the given supertypes: it is not a constructor or destructor that
suspends, and what dispatch on each of the supertypes finds is of its kind. -/
def Admits (r : Registry) (supertypes : List ClassId) (className : String) (m : MemberDecl) : Prop :=
  checkLifecycle m className = .ok () ∧
    ∀ s ∈ supertypes, ∀ inherited, r.search s m.name = some inherited → inherited.kind = m.kind

instance (r : Registry) (supertypes : List ClassId) (className : String) (m : MemberDecl) :
    Decidable (r.Admits supertypes className m) :=
  inferInstanceAs (Decidable (_ ∧ _))

theorem Remembers.admits_iff {r r' : Registry} (h : r.Remembers r') {supertypes : List ClassId}
    {className : String} {m : MemberDecl} :
    r'.Admits supertypes className m ↔ r.Admits supertypes className m := by
  rw [Admits, Admits, h.search]

theorem checkOverride_of_sound {r : Registry} (h : r.Sound) {supertypes : List ClassId}
    (hs : ∀ s ∈ supertypes, s.index < r.size) (m : MemberDecl) (className : String) :
    r.Remembers (checkOverride supertypes m className r).2 ∧
      ((checkOverride supertypes m className r).1 = .ok () ↔
        ∀ s ∈ supertypes, ∀ inherited, r.search s m.name = some inherited → inherited.kind = m.kind) := by
  induction supertypes generalizing r with
  | nil => exact ⟨⟨rfl, h⟩, by simp [checkOverride]; rfl⟩
  | cons s rest ih =>
    obtain ⟨hanswer, hfound⟩ := find_of_sound h (hs s List.mem_cons_self) m.name
    have hrest := ih hfound.sound fun s' hs' ↦ by
      simpa only [hfound.size] using hs s' (List.mem_cons_of_mem s hs')
    have hfind : findMember s m.name r = (.ok (r.search s m.name), (r.find s m.name).2) := by
      rw [findMember, ← hanswer]
    rw [hfound.search] at hrest
    have hgo : r.Remembers (checkOverride rest m className (r.find s m.name).2).2 :=
      ⟨hrest.1.classes.trans hfound.classes, hrest.1.sound⟩
    rw [checkOverride, Action.bind_of_ok hfind]
    cases hsearch : r.search s m.name with
    | none =>
      refine ⟨hgo, hrest.2.trans ?_⟩
      simp [hsearch]
    | some inherited =>
      by_cases hkind : inherited.kind = m.kind
      · simp only [hkind, bne_self_eq_false, Bool.false_eq_true, if_false]
        refine ⟨hgo, hrest.2.trans ?_⟩
        simp [hsearch, hkind]
      · simp only [bne_iff_ne, ne_eq, hkind, not_false_eq_true, if_true]
        refine ⟨hfound, ?_⟩
        simp [hsearch, hkind]
        rintro ⟨⟩

theorem checkMembers_of_sound {r : Registry} (h : r.Sound) {supertypes : List ClassId}
    (hs : ∀ s ∈ supertypes, s.index < r.size) (className : String) (ms : List MemberDecl) :
    r.Remembers (checkMembers supertypes className ms r).2 ∧
      ((checkMembers supertypes className ms r).1 = .ok () ↔
        ∀ m ∈ ms, r.Admits supertypes className m) := by
  induction ms generalizing r with
  | nil => exact ⟨⟨rfl, h⟩, by simp [checkMembers]; rfl⟩
  | cons m rest ih =>
    rw [checkMembers, List.forall_mem_cons]
    cases hlife : checkLifecycle m className with
    | error e =>
      rw [Action.bind_of_error (f := checkMembers.liftExcept (.error e)) rfl]
      refine ⟨⟨rfl, h⟩, iff_of_false (by rintro ⟨⟩) fun hall ↦ ?_⟩
      have hok := hall.1.1
      rw [hlife] at hok
      cases hok
    | ok done =>
      rw [Action.bind_of_ok (f := checkMembers.liftExcept (.ok done)) rfl]
      obtain ⟨hremembers, hok⟩ := checkOverride_of_sound h hs m className
      rcases hover : checkOverride supertypes m className r with ⟨e | _, r₁⟩
      · rw [hover] at hremembers hok
        rw [Action.bind_of_error hover]
        refine ⟨hremembers, iff_of_false (by rintro ⟨⟩) fun hall ↦ ?_⟩
        have hfail := hok.mpr hall.1.2
        cases hfail
      · rw [hover] at hremembers hok
        rw [Action.bind_of_ok hover]
        obtain ⟨hrest, hiff⟩ := ih hremembers.sound fun s hmem ↦ by
          rw [hremembers.size]
          exact hs s hmem
        refine ⟨⟨hrest.classes.trans hremembers.classes, hrest.sound⟩, hiff.trans ?_⟩
        simp only [hremembers.admits_iff]
        exact ⟨fun hall ↦ ⟨⟨hlife, hok.mp rfl⟩, hall⟩, fun hall ↦ hall.2⟩

/-! ### Registering a class -/

theorem except_bind_eq_ok {α β : Type} {x : Except EvalError α} {f : α → Except EvalError β} {b : β}
    (h : x >>= f = .ok b) : ∃ a, x = .ok a ∧ f a = .ok b := by
  cases x with
  | error e => cases h
  | ok a => exact ⟨a, rfl, h⟩

theorem index_of_classNamed {r : Registry} {name : String} {c : ClassId} (h : r.classNamed name = some c) :
    c.index < r.size := by
  obtain ⟨i, hi, rfl⟩ := Option.map_eq_some_iff.mp h
  exact (Array.findIdx?_eq_some_iff_getElem.mp hi).1

theorem foldlM_ok_of_step {α β : Type} {p : β → Prop} {f : β → α → Except EvalError β}
    (hstep : ∀ acc a out, p acc → f acc a = .ok out → p out) (as : List α) {acc out : β} (hacc : p acc)
    (h : as.foldlM f acc = .ok out) : p out := by
  induction as generalizing acc with
  | nil =>
    cases h
    exact hacc
  | cons a rest ih =>
    rw [List.foldlM_cons] at h
    cases hf : f acc a with
    | error e =>
      rw [hf] at h
      cases h
    | ok next =>
      rw [hf] at h
      exact ih (hstep acc a next hacc hf) h

theorem index_of_mem_root {r : Registry} {c : ClassId} (h : c ∈ r.root.toList) : c.index < r.size := by
  unfold root at h
  split at h
  · simp at h
  · next hne =>
    obtain rfl : c = ⟨0⟩ := by simpa using h
    simpa [Array.isEmpty_iff_size_eq_zero, Nat.pos_iff_ne_zero, size] using hne

theorem index_of_resolveSupertypes {r : Registry} {names : List String} {ids : List ClassId}
    (h : r.resolveSupertypes names = .ok ids) : ∀ s ∈ ids, s.index < r.size := by
  obtain ⟨found, hfound, hids⟩ := except_bind_eq_ok h
  have hindex : ∀ s ∈ found, s.index < r.size := by
    refine foldlM_ok_of_step (p := fun acc ↦ ∀ s ∈ acc, s.index < r.size) ?_ names (by simp) hfound
    intro acc name out hacc hout
    cases hname : r.classNamed name with
    | none =>
      simp only [hname] at hout
      cases hout
    | some id =>
      simp only [hname, Except.ok.injEq] at hout
      subst hout
      intro s hs
      split at hs
      · exact hacc s hs
      · rcases List.mem_append.mp hs with hs | hs
        · exact hacc s hs
        · rw [List.mem_singleton.mp hs]
          exact index_of_classNamed hname
  cases hids
  intro s hs
  split at hs
  · exact index_of_mem_root hs
  · exact hindex s hs

/-- The record of a new class. -/
def newRecord (r : Registry) (decl : ClassDecl) (supertypes : List ClassId) (own : List Slot)
    (classData : List ClassDatum) : ClassRecord where
  name := decl.name
  supertypes
  subclasses := []
  ancestors := r.linearize ⟨r.size⟩ supertypes
  layout := r.mergeLayout supertypes own
  members := (decl.members.map fun m ↦ Member.ofDecl m ⟨r.size⟩).foldl Member.insert []
  classData
  hasDestructor := (decl.members.any fun m ↦ m.name == destructorName) || supertypes.any r.hasDestructor

theorem newRecord_congr {r r' : Registry} (h : r'.classes = r.classes) (decl : ClassDecl)
    (supertypes : List ClassId) (own : List Slot) (classData : List ClassDatum) :
    r'.newRecord decl supertypes own classData = r.newRecord decl supertypes own classData := by
  have hdestructor : r'.hasDestructor = r.hasDestructor := by
    funext c
    simp only [hasDestructor, record, h]
  have hancestors : r'.ancestors = r.ancestors := by
    funext c
    simp only [ancestors, record, h]
  simp only [newRecord, linearize, mergeLayout, layout, record, size, h, hdestructor, hancestors]

theorem addRecord_congr {r r' : Registry} (h : r'.classes = r.classes) (decl : ClassDecl)
    (supertypes : List ClassId) (own : List Slot) (classData : List ClassDatum) :
    (r'.addRecord (r'.newRecord decl supertypes own classData)).classes =
      (r.addRecord (r.newRecord decl supertypes own classData)).classes := by
  rw [newRecord_congr h]
  simp only [addRecord, h]

theorem size_foldl_modify {α β : Type} (index : β → Nat) (f : α → α) (bs : List β) (as : Array α) :
    (bs.foldl (fun as b ↦ as.modify (index b) f) as).size = as.size := by
  induction bs generalizing as with
  | nil => rfl
  | cons b rest ih => rw [List.foldl_cons, ih, Array.size_modify]

theorem size_addRecord (r : Registry) (new : ClassRecord) : (r.addRecord new).size = r.size + 1 := by
  simp only [addRecord, size, Array.size_push, size_foldl_modify]

/-- Registering a class changes an earlier one only in its list of subclasses. -/
theorem record_addRecord (r : Registry) (new : ClassRecord) (c : ClassId) :
    (c.index = r.size ∧ (r.addRecord new).record c = new) ∨
      c.index ≠ r.size ∧ ∃ subclasses, (r.addRecord new).record c = { r.record c with subclasses } := by
  have hfold : ∀ (ss : List ClassId) (classes : Array ClassRecord) (id : ClassId),
      let out := ss.foldl (fun cs s ↦ cs.modify s.index fun parent ↦
        { parent with subclasses := parent.subclasses ++ [id] }) classes
      out.size = classes.size ∧
        ∀ i, ∃ subclasses, out.getD i default = { classes.getD i default with subclasses } := by
    intro ss
    induction ss with
    | nil => exact fun classes id ↦ ⟨rfl, fun i ↦ ⟨_, rfl⟩⟩
    | cons s rest ih =>
      intro classes id
      obtain ⟨hsize, hrest⟩ := ih (classes.modify s.index fun parent ↦
        { parent with subclasses := parent.subclasses ++ [id] }) id
      refine ⟨hsize.trans Array.size_modify, fun i ↦ ?_⟩
      obtain ⟨subclasses, hi⟩ := hrest i
      refine ⟨subclasses, hi.trans ?_⟩
      simp only [Array.getD_eq_getD_getElem?, Array.getElem?_modify]
      split
      · cases classes[i]? <;> rfl
      · rfl
  obtain ⟨hsize, hrecords⟩ := hfold new.supertypes r.classes ⟨r.classes.size⟩
  obtain ⟨i⟩ := c
  by_cases hi : i = r.size
  · refine .inl ⟨hi, ?_⟩
    simp only [record, addRecord, Array.getD_eq_getD_getElem?, Array.getElem?_push, hsize, hi, size, if_true,
      Option.getD_some]
  · refine .inr ⟨hi, ?_⟩
    obtain ⟨subclasses, heq⟩ := hrecords i
    refine ⟨subclasses, ?_⟩
    have hne : ¬ i = r.classes.size := hi
    simp only [record, addRecord, Array.getD_eq_getD_getElem?, Array.getElem?_push, hsize, hne, if_false] at heq ⊢
    exact heq

theorem ancestors_addRecord_of_ne {r : Registry} {c : ClassId} (h : c.index ≠ r.size) (new : ClassRecord) :
    (r.addRecord new).ancestors c = r.ancestors c := by
  rcases record_addRecord r new c with ⟨heq, -⟩ | ⟨-, subclasses, heq⟩
  · exact absurd heq h
  · rw [ancestors, heq]
    rfl

theorem supertypes_addRecord_of_ne {r : Registry} {c : ClassId} (h : c.index ≠ r.size) (new : ClassRecord) :
    (r.addRecord new).supertypes c = r.supertypes c := by
  rcases record_addRecord r new c with ⟨heq, -⟩ | ⟨-, subclasses, heq⟩
  · exact absurd heq h
  · rw [supertypes, heq]
    rfl

theorem ownMembers_addRecord_of_ne {r : Registry} {c : ClassId} (h : c.index ≠ r.size) (new : ClassRecord) :
    (r.addRecord new).ownMembers c = r.ownMembers c := by
  rcases record_addRecord r new c with ⟨heq, -⟩ | ⟨-, subclasses, heq⟩
  · exact absurd heq h
  · rw [ownMembers, heq]
    rfl

theorem record_addRecord_self (r : Registry) (new : ClassRecord) : (r.addRecord new).record ⟨r.size⟩ = new := by
  rcases record_addRecord r new ⟨r.size⟩ with ⟨-, heq⟩ | ⟨hne, -⟩
  · exact heq
  · exact absurd rfl hne

/-- A new class is listed with its supertypes, and with nothing else. -/
theorem mem_subclasses_addRecord {r : Registry} {c : ClassId} (hc : c.index < r.size) (new : ClassRecord) {d : ClassId} :
    d ∈ (r.addRecord new).subclasses c ↔ d ∈ r.subclasses c ∨ d = ⟨r.size⟩ ∧ c ∈ new.supertypes := by
  have hfold : ∀ (ss : List ClassId) (classes : Array ClassRecord) (id : ClassId), c.index < classes.size →
      let out := ss.foldl (fun cs s ↦ cs.modify s.index fun parent ↦
        { parent with subclasses := parent.subclasses ++ [id] }) classes
      d ∈ (out.getD c.index default).subclasses ↔
        d ∈ (classes.getD c.index default).subclasses ∨ d = id ∧ c ∈ ss := by
    intro ss
    induction ss with
    | nil => simp
    | cons s rest ih =>
      intro classes id hlt
      have hget : classes[c.index]? = some classes[c.index] := Array.getElem?_eq_getElem hlt
      have hindex : s.index = c.index ↔ c = s := by
        cases c
        cases s
        simp [eq_comm]
      refine (ih _ id (Nat.lt_of_lt_of_eq hlt Array.size_modify.symm)).trans ?_
      simp only [Array.getD_eq_getD_getElem?, Array.getElem?_modify, hindex, hget, List.mem_cons]
      by_cases hcs : c = s
      · simp [hcs]
        tauto
      · simp [hcs]
  obtain ⟨i⟩ := c
  have hne : ¬ i = r.classes.size := Nat.ne_of_lt hc
  have hsize := size_addRecord r new
  simp only [size, addRecord, Array.size_push, Nat.add_right_cancel_iff] at hsize
  have hold := hfold new.supertypes r.classes ⟨r.classes.size⟩ hc
  simp only [subclasses, record, addRecord, Array.getD_eq_getD_getElem?, Array.getElem?_push, hsize, hne, if_false]
    at hold ⊢
  exact hold

theorem Sound.addRecord {r : Registry} (h : r.Sound) {new : ClassRecord}
    (hs : ∀ s ∈ new.supertypes, s.index < r.size) (hsubclasses : new.subclasses = [])
    (hancestors : new.ancestors = r.linearize ⟨r.size⟩ new.supertypes) : (r.addRecord new).Sound := by
  -- Everything about an earlier class is as before, since its ancestors are earlier classes.
  have hold : ∀ c : ClassId, c.index < (r.addRecord new).size → c.index ≠ r.size → c.index < r.size := by
    intro c hc hne
    rw [size_addRecord] at hc
    omega
  have hnew : ∀ a, a ∈ r.linearize ⟨r.size⟩ new.supertypes ↔
      a = ⟨r.size⟩ ∨ ∃ s ∈ new.supertypes, a ∈ (r.addRecord new).ancestors s := by
    intro a
    rw [mem_linearize]
    refine or_congr_right (exists_congr fun s ↦ and_congr_right fun hmem ↦ ?_)
    rw [ancestors_addRecord_of_ne (Nat.ne_of_lt (hs s hmem))]
  refine ⟨fun c hc s hmem ↦ ?_, fun c hc d ↦ ?_, fun c hc a ↦ ?_, fun c name answer hanswer ↦ ?_⟩
  · by_cases hci : c.index = r.size
    · obtain rfl : c = ⟨r.size⟩ := by cases c; simp_all
      rw [Registry.supertypes, record_addRecord_self] at hmem
      exact hs s hmem
    · rw [supertypes_addRecord_of_ne hci] at hmem
      exact h.supertypes c (hold c hc hci) s hmem
  · -- The new class has no subclasses and is no supertype; an earlier one may have it for a subclass.
    have hsuper : ∀ c ∈ (r.addRecord new).supertypes d, d.index < (r.addRecord new).size → c.index < r.size := by
      intro c hmem hd
      by_cases hdi : d.index = r.size
      · obtain rfl : d = ⟨r.size⟩ := by cases d; simp_all
        rw [Registry.supertypes, record_addRecord_self] at hmem
        exact hs c hmem
      · rw [supertypes_addRecord_of_ne hdi] at hmem
        exact Nat.lt_trans (h.supertypes d (hold d hd hdi) c hmem) (hold d hd hdi)
    by_cases hci : c.index = r.size
    · obtain rfl : c = ⟨r.size⟩ := by cases c; simp_all
      rw [Registry.subclasses, record_addRecord_self, hsubclasses]
      refine iff_of_false List.not_mem_nil fun ⟨hd, hmem⟩ ↦ ?_
      exact Nat.lt_irrefl _ (hsuper _ hmem hd)
    · rw [mem_subclasses_addRecord (hold c hc hci), h.subclasses c (hold c hc hci), size_addRecord]
      by_cases hdi : d.index = r.size
      · obtain rfl : d = ⟨r.size⟩ := by cases d; simp_all
        have hself : (r.addRecord new).supertypes ⟨r.size⟩ = new.supertypes := by
          rw [Registry.supertypes, record_addRecord_self]
        simp [hself]
      · have hne : d ≠ ⟨r.size⟩ := fun heq ↦ hdi (congrArg ClassId.index heq)
        rw [supertypes_addRecord_of_ne hdi]
        simp only [hne, false_and, or_false]
        refine and_congr_left fun _ ↦ ?_
        omega
  · by_cases hci : c.index = r.size
    · obtain rfl : c = ⟨r.size⟩ := by cases c; simp_all
      have hself : (r.addRecord new).ancestors ⟨r.size⟩ = r.linearize ⟨r.size⟩ new.supertypes := by
        rw [Registry.ancestors, record_addRecord_self, hancestors]
      have hsuper : (r.addRecord new).supertypes ⟨r.size⟩ = new.supertypes := by
        rw [Registry.supertypes, record_addRecord_self]
      rw [hself, hsuper]
      exact hnew a
    · rw [ancestors_addRecord_of_ne hci, supertypes_addRecord_of_ne hci, h.ancestors c (hold c hc hci)]
      refine or_congr_right (exists_congr fun s ↦ and_congr_right fun hmem ↦ ?_)
      have hlt := h.supertypes c (hold c hc hci) s hmem
      have hlt' := hold c hc hci
      rw [ancestors_addRecord_of_ne (by omega)]
  · obtain ⟨hc, rfl⟩ := h.cache c name answer hanswer
    refine ⟨by rw [size_addRecord]; omega, ?_⟩
    rw [search, search, ancestors_addRecord_of_ne (Nat.ne_of_lt hc)]
    refine findSome?_congr fun a ha ↦ ?_
    have hle := h.index_le_of_mem hc ha
    rw [ownMembers_addRecord_of_ne (by omega)]

/-- Adding a class after a few searches is adding it before them. -/
theorem Remembers.addRecord {r r₁ : Registry} (h : r.Remembers r₁) {supertypes : List ClassId}
    (hs : ∀ s ∈ supertypes, s.index < r.size) (decl : ClassDecl) (own : List Slot)
    (classData : List ClassDatum) :
    (r.addRecord (r.newRecord decl supertypes own classData)).Remembers
      (r₁.addRecord (r₁.newRecord decl supertypes own classData)) := by
  refine ⟨addRecord_congr h.classes decl supertypes own classData, h.sound.addRecord (fun s hmem ↦ ?_) rfl rfl⟩
  rw [h.size]
  exact hs s hmem

theorem checkRoom_of_lt {r : Registry} (h : r.size < maxSize) : r.checkRoom = .ok () := if_pos h

/-- What was checked, one after the other, when a class is registered, and what is recorded then. -/
theorem exists_of_register_eq_ok {r r' : Registry} {decl : ClassDecl} {id : ClassId}
    (hreg : register decl r = (.ok id, r')) :
    ∃ supertypes own classData r₁, r.checkName decl = .ok () ∧ r.resolveSupertypes decl.supertypes = .ok supertypes ∧
      (decl.data.mapM fun d ↦ do
        return { name := d.name, valueClass := ← r.resolveDataClass decl.name ⟨r.size⟩ d, owner := ⟨r.size⟩ : Slot }) =
          .ok own ∧
      checkMembers supertypes decl.name decl.members r = (.ok (), r₁) ∧
      (r₁.size = r.size → r' = r₁.addRecord (r₁.newRecord decl supertypes own classData)) := by
  rw [register, Action.get_bind, Action.ofExcept_bind_eq_ok_iff] at hreg
  obtain ⟨_, hname, hreg⟩ := hreg
  rw [Action.ofExcept_bind_eq_ok_iff] at hreg
  obtain ⟨supertypes, hsuper, hreg⟩ := hreg
  rw [Action.ofExcept_bind_eq_ok_iff] at hreg
  obtain ⟨_, -, hreg⟩ := hreg
  rw [Action.ofExcept_bind_eq_ok_iff] at hreg
  obtain ⟨own, hown, hreg⟩ := hreg
  rw [Action.ofExcept_bind_eq_ok_iff] at hreg
  obtain ⟨classData, -, hreg⟩ := hreg
  rw [Action.bind_eq_ok_iff] at hreg
  obtain ⟨_, r₁, hcheck, hreg⟩ := hreg
  refine ⟨supertypes, own, classData, r₁, hname, hsuper, hown, hcheck, fun hsize ↦ ?_⟩
  rw [newRecord, hsize]
  exact (Prod.mk.inj hreg).2.symm

/-- A registered class: its id is the number of classes so far, what it declares was admitted, and the
classes are the earlier ones and its own record. -/
theorem register_eq_ok {r r' : Registry} (h : r.Sound) {decl : ClassDecl} {id : ClassId}
    (hreg : register decl r = (.ok id, r')) :
    ∃ supertypes own classData, r.resolveSupertypes decl.supertypes = .ok supertypes ∧
      (∀ m ∈ decl.members, r.Admits supertypes decl.name m) ∧
      (r.addRecord (r.newRecord decl supertypes own classData)).Remembers r' := by
  obtain ⟨supertypes, own, classData, r₁, -, hsuper, -, hcheck, hadded⟩ := exists_of_register_eq_ok hreg
  have hindex := index_of_resolveSupertypes hsuper
  obtain ⟨hremembers, hadmits⟩ := checkMembers_of_sound h hindex decl.name decl.members
  rw [hcheck] at hremembers hadmits
  refine ⟨supertypes, own, classData, hsuper, hadmits.mp rfl, ?_⟩
  rw [hadded hremembers.size]
  exact hremembers.addRecord hindex decl own classData

/-- A class is registered if its name is free, its supertypes and the classes of its data are known, a number is left for
it and its members are admitted; what the registry remembers does not matter. -/
theorem register_of_checks {r r' : Registry} (h : r.Remembers r') {decl : ClassDecl} {supertypes : List ClassId}
    {own : List Slot} {classData : List ClassDatum} (hname : r.checkName decl = .ok ())
    (hsuper : r.resolveSupertypes decl.supertypes = .ok supertypes) (hroom : r.size < maxSize)
    (hown : (decl.data.mapM fun d ↦ do
      return { name := d.name, valueClass := ← r.resolveDataClass decl.name ⟨r.size⟩ d, owner := ⟨r.size⟩ : Slot }) =
        .ok own)
    (hclassData : (decl.classData.mapM fun d ↦ do
      return { name := d.name, valueClass := ← r.resolveDataClass decl.name ⟨r.size⟩ d, value := none : ClassDatum }) =
        .ok classData)
    (hadmits : ∀ m ∈ decl.members, r.Admits supertypes decl.name m) :
    ∃ r'', register decl r' = (.ok ⟨r.size⟩, r'') ∧
      (r.addRecord (r.newRecord decl supertypes own classData)).Remembers r'' := by
  have hindex := index_of_resolveSupertypes hsuper
  have hindex' : ∀ s ∈ supertypes, s.index < r'.size := fun s hs ↦ by
    rw [h.size]
    exact hindex s hs
  obtain ⟨hremembers, hok⟩ := checkMembers_of_sound h.sound hindex' decl.name decl.members
  rcases hcheck : checkMembers supertypes decl.name decl.members r' with ⟨e | _, r₁⟩
  · rw [hcheck] at hok
    cases hok.mpr fun m hm ↦ h.admits_iff.mpr (hadmits m hm)
  · replace hremembers : r'.Remembers r₁ := by rwa [hcheck] at hremembers
    have hall : r.Remembers r₁ := ⟨hremembers.classes.trans h.classes, hremembers.sound⟩
    have hsize : r₁.size = r.size := hall.size
    refine ⟨r₁.addRecord (r₁.newRecord decl supertypes own classData), ?_, hall.addRecord hindex decl own classData⟩
    obtain ⟨classes, cache⟩ := r
    obtain ⟨classes', cache'⟩ := r'
    obtain rfl : classes' = classes := h.classes
    rw [register, Action.get_bind, newRecord, hsize]
    refine (Action.bind_of_ok (f := register.ofExcept _) (congrArg (·, _) hname)).trans ?_
    refine (Action.bind_of_ok (f := register.ofExcept _) (congrArg (·, _) hsuper)).trans ?_
    refine (Action.bind_of_ok (f := register.ofExcept _) (congrArg (·, _) (checkRoom_of_lt hroom))).trans ?_
    refine (Action.bind_of_ok (f := register.ofExcept _) (congrArg (·, _) hown)).trans ?_
    refine (Action.bind_of_ok (f := register.ofExcept _) (congrArg (·, _) hclassData)).trans ?_
    exact Action.bind_of_ok hcheck

/-- A class without data is registered if its name is free, its supertypes are known, a number is left for it and its
members are admitted. -/
theorem register_ok {r : Registry} (h : r.Sound) {decl : ClassDecl} {supertypes : List ClassId}
    (hdata : decl.data = []) (hclassData : decl.classData = []) (hname : r.checkName decl = .ok ())
    (hsuper : r.resolveSupertypes decl.supertypes = .ok supertypes) (hroom : r.size < maxSize)
    (hadmits : ∀ m ∈ decl.members, r.Admits supertypes decl.name m) :
    ∃ r', register decl r = (.ok ⟨r.size⟩, r') ∧
      (r.addRecord (r.newRecord decl supertypes [] [])).Remembers r' :=
  register_of_checks ⟨rfl, h⟩ hname hsuper hroom (hdata ▸ rfl) (hclassData ▸ rfl) hadmits

/-! ### Defining a member -/

section storeMember

variable (r : Registry) (c : ClassId) (decl : MemberDecl)

theorem size_storeMember : (r.storeMember c decl).size = r.size := by
  unfold storeMember size
  split <;> simp [size_foldl_modify]

/-- Storing a member changes the table of its class and, for a destructor, what is noted with the descendants. -/
theorem record_storeMember {d : ClassId} (hd : d.index < r.size) :
    (r.storeMember c decl).record d = { r.record d with
      members := if d = c then Member.insert (r.ownMembers d) (Member.ofDecl decl c) else r.ownMembers d
      hasDestructor := r.hasDestructor d || (decl.name == destructorName && (r.descendants c).contains d) } := by
  have hindex : ∀ b : ClassId, b.index = d.index ↔ d = b := by
    rintro ⟨i⟩
    cases d
    simp [eq_comm]
  have hfold : ∀ (ds : List ClassId) (classes : Array ClassRecord), d.index < classes.size →
      (ds.foldl (fun cs b ↦ cs.modify b.index fun record ↦ { record with hasDestructor := true }) classes).getD
          d.index default =
        { classes.getD d.index default with
          hasDestructor := (classes.getD d.index default).hasDestructor || ds.contains d } := by
    intro ds
    induction ds with
    | nil => simp
    | cons b rest ih =>
      intro classes hlt
      have hget : classes[d.index]? = some classes[d.index] := Array.getElem?_eq_getElem hlt
      refine (ih _ (Nat.lt_of_lt_of_eq hlt Array.size_modify.symm)).trans ?_
      simp only [Array.getD_eq_getD_getElem?, Array.getElem?_modify, hindex, hget]
      by_cases hdb : d = b
      · simp [hdb]
      · simp [hdb]
  have hget : r.classes[d.index]? = some r.classes[d.index] := Array.getElem?_eq_getElem hd
  have htable : (r.classes.modify c.index fun record ↦
      { record with members := Member.insert record.members (Member.ofDecl decl c) }).getD d.index default =
      { r.record d with
        members := if d = c then Member.insert (r.ownMembers d) (Member.ofDecl decl c) else r.ownMembers d } := by
    simp only [ownMembers, record, Array.getD_eq_getD_getElem?, Array.getElem?_modify, hindex, hget]
    by_cases hdc : d = c
    · simp [hdc]
    · simp [hdc]
  rw [record, storeMember]
  dsimp only
  split
  · next hname =>
    rw [hfold _ _ (Nat.lt_of_lt_of_eq hd Array.size_modify.symm), htable]
    simp [hname, hasDestructor]
  · next hname =>
    rw [htable]
    simp [hname, hasDestructor]

theorem supertypes_storeMember {d : ClassId} (hd : d.index < r.size) :
    (r.storeMember c decl).supertypes d = r.supertypes d := by
  rw [supertypes, record_storeMember r c decl hd]
  rfl

theorem subclasses_storeMember {d : ClassId} (hd : d.index < r.size) :
    (r.storeMember c decl).subclasses d = r.subclasses d := by
  rw [subclasses, record_storeMember r c decl hd]
  rfl

theorem ancestors_storeMember {d : ClassId} (hd : d.index < r.size) :
    (r.storeMember c decl).ancestors d = r.ancestors d := by
  rw [ancestors, record_storeMember r c decl hd]
  rfl

theorem ownMembers_storeMember {d : ClassId} (hd : d.index < r.size) :
    (r.storeMember c decl).ownMembers d =
      if d = c then Member.insert (r.ownMembers d) (Member.ofDecl decl c) else r.ownMembers d := by
  rw [ownMembers, record_storeMember r c decl hd]

/-- The member tables answer as before, but for the new member's name in its class. -/
theorem lookup_storeMember {d : ClassId} (hd : d.index < r.size) (name : String) :
    Member.lookup ((r.storeMember c decl).ownMembers d) name =
      if d = c ∧ name = decl.name then some (Member.ofDecl decl c) else Member.lookup (r.ownMembers d) name := by
  rw [ownMembers_storeMember r c decl hd]
  by_cases hdc : d = c
  · by_cases hname : name = decl.name
    · rw [if_pos hdc, if_pos ⟨hdc, hname⟩, hname]
      exact Member.lookup_insert_self _ (Member.ofDecl decl c)
    · rw [if_pos hdc, if_neg fun h ↦ hname h.2]
      exact Member.lookup_insert_of_ne hname
  · rw [if_neg hdc, if_neg fun h ↦ hdc h.1]

variable {r c decl}

theorem Sound.storeMember (h : r.Sound) (hc : c.index < r.size) : (r.storeMember c decl).Sound := by
  have hsize := size_storeMember r c decl
  refine ⟨fun d hd s hs ↦ ?_, fun d hd b ↦ ?_, fun d hd a ↦ ?_, fun d name answer hanswer ↦ ?_⟩
  · rw [hsize] at hd
    rw [supertypes_storeMember r c decl hd] at hs
    exact h.supertypes d hd s hs
  · rw [hsize] at hd ⊢
    rw [subclasses_storeMember r c decl hd, h.subclasses d hd]
    refine and_congr_right fun hb ↦ ?_
    rw [supertypes_storeMember r c decl hb]
  · rw [hsize] at hd
    rw [ancestors_storeMember r c decl hd, supertypes_storeMember r c decl hd, h.ancestors d hd]
    refine or_congr_right (exists_congr fun s ↦ and_congr_right fun hs ↦ ?_)
    rw [ancestors_storeMember r c decl (Nat.lt_trans (h.supertypes d hd s hs) hd)]
  · -- An answer that is kept is about another name, or about a class that does not inherit from `c`.
    obtain ⟨hold, hkept⟩ : r.cache[(d, name)]? = some answer ∧ (name ≠ decl.name ∨ d ∉ r.descendants c) := by
      simpa [Registry.storeMember, Std.HashMap.getElem?_filter] using hanswer
    obtain ⟨hd, rfl⟩ := h.cache d name answer hold
    refine ⟨hsize ▸ hd, ?_⟩
    rw [search, search, ancestors_storeMember r c decl hd]
    refine findSome?_congr fun a ha ↦ ?_
    have hlt := Nat.lt_of_le_of_lt (h.index_le_of_mem hd ha) hd
    rw [lookup_storeMember r c decl hlt, if_neg]
    rintro ⟨rfl, hname⟩
    rcases hkept with hne | hsub
    · exact hne hname
    · exact hsub ((h.mem_descendants_iff hc).mpr ⟨hd, ha⟩)

theorem descend_congr {r₁ : Registry} (h : r₁.classes = r.classes) : r₁.descend = r.descend := by
  funext found stack
  have hsub : r₁.subclasses = r.subclasses := by
    funext c
    simp only [subclasses, record_congr h]
  induction found, stack using descend.induct r with
  | case1 found => simp only [descend]
  | case2 found b rest hb ih => rw [descend, descend, if_pos hb, if_pos hb, ih]
  | case3 found b rest hb ih => rw [descend, descend, if_neg hb, if_neg hb, hsub, ih]

theorem Remembers.storeMember {r₁ : Registry} (h : r.Remembers r₁) (hc : c.index < r.size) :
    (r.storeMember c decl).Remembers (r₁.storeMember c decl) := by
  refine ⟨?_, h.sound.storeMember ?_⟩
  · simp only [Registry.storeMember, descendants, descend_congr h.classes, h.classes]
  · rwa [h.size]

end storeMember

theorem checkReplace_eq_ok_iff {r : Registry} {c : ClassId} {decl : MemberDecl} :
    r.checkReplace c decl = .ok () ↔
      ∀ existing, Member.lookup (r.ownMembers c) decl.name = some existing → existing.kind = decl.kind := by
  unfold checkReplace
  cases Member.lookup (r.ownMembers c) decl.name with
  | none => simp
  | some existing => by_cases hkind : existing.kind = decl.kind <;> simp [hkind]

theorem Remembers.checkReplace {r r₁ : Registry} (h : r.Remembers r₁) (c : ClassId) (decl : MemberDecl) :
    r₁.checkReplace c decl = r.checkReplace c decl := by
  simp only [Registry.checkReplace, ownMembers, nameOf, h.record]

/-- A defined member was admitted below the supertypes of its class, and has the kind of the one it replaces. -/
theorem define_eq_ok {r r' : Registry} (h : r.Sound) {c : ClassId} (hc : c.index < r.size) {decl : MemberDecl}
    (hdef : define c decl r = (.ok (), r')) :
    r.Admits (r.supertypes c) (r.nameOf c) decl ∧ r.checkReplace c decl = .ok () ∧
      (r.storeMember c decl).Remembers r' := by
  rw [define, Action.get_bind, Action.bind_eq_ok_iff] at hdef
  obtain ⟨_, r₁, hcheck, hdef⟩ := hdef
  rw [Action.bind_eq_ok_iff] at hdef
  obtain ⟨_, r₂, hreplace, hdef⟩ := hdef
  have hindex : ∀ s ∈ r.supertypes c, s.index < r.size :=
    fun s hs ↦ Nat.lt_trans (h.supertypes c hc s hs) hc
  obtain ⟨hremembers, hadmits⟩ := checkMembers_of_sound h hindex (r.nameOf c) [decl]
  rw [hcheck] at hremembers hadmits
  obtain ⟨hok, rfl⟩ := Prod.mk.inj hreplace
  cases hdef
  refine ⟨hadmits.mp rfl decl List.mem_cons_self, ?_, hremembers.storeMember hc⟩
  rw [← hremembers.checkReplace, hok]

/-- Both checks are all that defining a member asks for. -/
theorem define_ok {r : Registry} (h : r.Sound) {c : ClassId} (hc : c.index < r.size) {decl : MemberDecl}
    (hadmits : r.Admits (r.supertypes c) (r.nameOf c) decl) (hreplace : r.checkReplace c decl = .ok ()) :
    ∃ r', define c decl r = (.ok (), r') ∧ (r.storeMember c decl).Remembers r' := by
  have hindex : ∀ s ∈ r.supertypes c, s.index < r.size :=
    fun s hs ↦ Nat.lt_trans (h.supertypes c hc s hs) hc
  obtain ⟨hremembers, hok⟩ := checkMembers_of_sound h hindex (r.nameOf c) [decl]
  rcases hcheck : checkMembers (r.supertypes c) (r.nameOf c) [decl] r with ⟨e | _, r₁⟩
  · rw [hcheck] at hok
    cases hok.mpr (by simpa using hadmits)
  · replace hremembers : r.Remembers r₁ := by rwa [hcheck] at hremembers
    refine ⟨r₁.storeMember c decl, ?_, hremembers.storeMember hc⟩
    rw [define, Action.get_bind, Action.bind_of_ok hcheck, Action.bind_of_ok]
    · rfl
    · rw [hremembers.checkReplace, hreplace]

end MindScript.Registry
