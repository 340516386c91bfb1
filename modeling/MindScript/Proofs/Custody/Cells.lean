import MindScript.Proofs.Bare

/-!
# Who holds the references to a cell

The count of a cell says how many references to it there are.  Some are held by other cells, as long as these are
not free, and some by the queue of due destructors; the others are held outside of the heap.  A heap covers what is
held outside if every cell counts at least the references to it.  Whatever is done to the heap takes references
over or hands them back, and what it leaves is covered again.

A cell may count more references than are held.  A reference that is lost only keeps a cell longer than
needed.
-/

namespace MindScript

/-! ### Occurrences of links -/

/-- One where the links are the same. -/
def Link.hits (l l' : Link) : Nat := if l = l' then 1 else 0

theorem Link.hits_self (l : Link) : l.hits l = 1 := if_pos rfl

theorem Link.hits_of_ne {l l' : Link} (h : l ≠ l') : l.hits l' = 0 := if_neg h

theorem count_cons_hits (x : Link) (ls : List Link) (l : Link) : (x :: ls).count l = x.hits l + ls.count l := by
  rw [List.count_cons, Link.hits, Nat.add_comm]
  simp

theorem count_flatMap_list_modify {α : Type} (g : α → List Link) {as : List α} {i : Nat} {a : α}
    (h : as[i]? = some a) (f : α → α) (l : Link) :
    ((as.modify i f).flatMap g).count l + (g a).count l = (as.flatMap g).count l + (g (f a)).count l := by
  induction as generalizing i with
  | nil => simp at h
  | cons b rest ih =>
    cases i with
    | zero =>
      obtain rfl : b = a := by simpa using h
      simp only [List.modify_zero_cons, List.flatMap_cons, List.count_append]
      omega
    | succ i =>
      have hrest := ih (by simpa using h)
      simp only [List.modify_succ_cons, List.flatMap_cons, List.count_append]
      omega

/-- Changing one item of an array changes what hangs on that item. -/
theorem count_flatMap_modify {α : Type} (g : α → List Link) {as : Array α} {i : Nat} {a : α}
    (h : as[i]? = some a) (f : α → α) (l : Link) :
    ((as.modify i f).toList.flatMap g).count l + (g a).count l =
      (as.toList.flatMap g).count l + (g (f a)).count l := by
  rw [Array.toList_modify]
  exact count_flatMap_list_modify g (by simpa using h) f l

theorem flatMap_modify_of_eq {α β : Type} {g : α → List β} {f : α → α} (h : ∀ a, g (f a) = g a) (as : Array α)
    (i : Nat) : (as.modify i f).toList.flatMap g = as.toList.flatMap g := by
  rw [Array.toList_modify]
  generalize as.toList = xs
  induction xs generalizing i with
  | nil => simp
  | cons b rest ih => cases i <;> simp [h, ih]

/-- Links that are among others, also where one occurs several times. -/
@[grind] def Within (B A : List Link) : Prop := ∀ l, B.count l ≤ A.count l

namespace Within

variable {A B C : List Link}

theorem refl (A : List Link) : Within A A := fun _ ↦ Nat.le_refl _

theorem trans (h : Within C B) (h' : Within B A) : Within C A := fun l ↦ Nat.le_trans (h l) (h' l)

theorem mem (h : Within B A) {l : Link} (hl : l ∈ B) : l ∈ A :=
  List.count_pos_iff.mp (Nat.lt_of_lt_of_le (List.count_pos_iff.mpr hl) (h l))

theorem append_left (B A : List Link) : Within A (B ++ A) := fun l ↦ by
  rw [List.count_append]
  omega

theorem append (h : Within B A) (C : List Link) : Within (C ++ B) (C ++ A) := fun l ↦ by
  have hl := h l
  simp only [List.count_append]
  omega

end Within

/-- The way in which two lists are put together shows that the first is within the second. -/
class Part (B A : List Link) : Prop where
  within : Within B A

namespace Part

variable {A B : List Link}

instance (l : Link) [h : Part B A] : Part B (l :: A) := ⟨h.within.trans (.append_left [l] A)⟩

instance (C : List Link) [h : Part B A] : Part B (C ++ A) := ⟨h.within.trans (.append_left C A)⟩

instance (C : List Link) [h : Part B A] : Part B (C.append A) := ⟨h.within.trans (.append_left C A)⟩

instance (l : Link) [h : Part B A] : Part (l :: B) (l :: A) := ⟨h.within.append [l]⟩

instance (C : List Link) [h : Part B A] : Part (C ++ B) (C ++ A) := ⟨h.within.append C⟩

instance nil_append [h : Part B A] : Part ([] ++ B) A := h

instance refl (A : List Link) : Part A A := ⟨.refl A⟩

end Part

/-! ### What the heap holds -/

/-- The links that an instance holds unless it is free. -/
def Object.held (o : Object) : List Link := if o.count = 0 then [] else o.links

def Scope.held (s : Scope) : List Link := if s.count = 0 then [] else s.links

def Outcome.held (o : Outcome) : List Link := if o.count = 0 then [] else o.links

namespace Heap

def held (h : Heap) : List Link :=
  h.objects.toList.flatMap Object.held ++ h.scopes.toList.flatMap Scope.held
    ++ h.outcomes.toList.flatMap Outcome.held ++ h.due.toList.map .object

/-- The count of the cell behind a link. -/
def counted (h : Heap) : Link → Nat
  | .object r => h.refCount r
  | .scope s => ((h.scope? s).map Scope.count).getD 0
  | .outcome o => ((h.outcome? o).map Outcome.count).getD 0

/-- Each scope is younger than the scope that it lies in. -/
def Nested (h : Heap) : Prop := ∀ s scope parent, h.scope? s = some scope → scope.parent = some parent → parent.index < s.index

/-- Every cell counts the references to it that the heap itself holds and those that are held outside. -/
structure Covers (h : Heap) (outside : List Link) : Prop where
  counts : ∀ l, h.held.count l + outside.count l ≤ h.counted l
  nested : h.Nested

/-- A cell that somebody refers to. -/
def Alive (h : Heap) (l : Link) : Prop := 0 < h.counted l

variable {h : Heap} {A B : List Link} {l : Link}

theorem Covers.mono (hc : h.Covers A) (hB : Within B A) : h.Covers B := by
  refine ⟨fun l ↦ ?_, hc.nested⟩
  have hl := hc.counts l
  have hle := hB l
  omega

theorem Covers.alive (hc : h.Covers A) (hl : l ∈ A) : h.Alive l := by
  have hpos := List.count_pos_iff.mpr hl
  have hle := hc.counts l
  simp only [Alive]
  omega

theorem Covers.alive_of_held (hc : h.Covers A) (hl : l ∈ h.held) : h.Alive l := by
  have hpos := List.count_pos_iff.mpr hl
  have hle := hc.counts l
  simp only [Alive]
  omega

theorem object?_of_alive {r : Ref} (hr : h.Alive (.object r)) : ∃ o, h.object? r = some o ∧ o.count ≠ 0 := by
  simp only [Alive, counted, refCount] at hr
  cases ho : h.object? r with
  | none => simp [ho] at hr
  | some o =>
    simp only [ho, Option.map_some, Option.getD_some] at hr
    exact ⟨o, rfl, Nat.ne_of_gt hr⟩

theorem scope?_of_alive {s : ScopeId} (hs : h.Alive (.scope s)) : ∃ o, h.scope? s = some o ∧ o.count ≠ 0 := by
  simp only [Alive, counted] at hs
  cases ho : h.scope? s with
  | none => simp [ho] at hs
  | some o =>
    simp only [ho, Option.map_some, Option.getD_some] at hs
    exact ⟨o, rfl, Nat.ne_of_gt hs⟩

theorem outcome?_of_alive {c : OutcomeId} (hc : h.Alive (.outcome c)) :
    ∃ o, h.outcome? c = some o ∧ o.count ≠ 0 := by
  simp only [Alive, counted] at hc
  cases ho : h.outcome? c with
  | none => simp [ho] at hc
  | some o =>
    simp only [ho, Option.map_some, Option.getD_some] at hc
    exact ⟨o, rfl, Nat.ne_of_gt hc⟩

theorem index_of_alive {r : Ref} (hr : h.Alive (.object r)) : r.index < h.objects.size := by
  obtain ⟨o, ho, -⟩ := object?_of_alive hr
  exact (Array.getElem?_eq_some_iff.mp ho).1

/-- What a live instance holds is alive. -/
theorem Covers.alive_of_object (hc : h.Covers A) {r : Ref} {o : Object} (hr : h.Alive (.object r))
    (ho : h.object? r = some o) (hl : l ∈ o.links) : h.Alive l := by
  obtain ⟨o', ho', hcount⟩ := object?_of_alive hr
  obtain rfl := Option.some.inj (ho.symm.trans ho')
  refine hc.alive_of_held ?_
  have hmem : l ∈ h.objects.toList.flatMap Object.held :=
    List.mem_flatMap.mpr ⟨o, by simpa using Array.mem_of_getElem? ho, by rwa [Object.held, if_neg hcount]⟩
  simp only [held, List.mem_append]
  exact .inl (.inl (.inl hmem))

theorem Covers.alive_of_scope (hc : h.Covers A) {s : ScopeId} {o : Scope} (hs : h.Alive (.scope s))
    (ho : h.scope? s = some o) (hl : l ∈ o.links) : h.Alive l := by
  obtain ⟨o', ho', hcount⟩ := scope?_of_alive hs
  obtain rfl := Option.some.inj (ho.symm.trans ho')
  refine hc.alive_of_held ?_
  have hmem : l ∈ h.scopes.toList.flatMap Scope.held :=
    List.mem_flatMap.mpr ⟨o, by simpa using Array.mem_of_getElem? ho, by rwa [Scope.held, if_neg hcount]⟩
  simp only [held, List.mem_append]
  exact .inl (.inl (.inr hmem))

theorem Covers.alive_of_outcome (hc : h.Covers A) {c : OutcomeId} {o : Outcome} (halive : h.Alive (.outcome c))
    (ho : h.outcome? c = some o) (hl : l ∈ o.links) : h.Alive l := by
  obtain ⟨o', ho', hcount⟩ := outcome?_of_alive halive
  obtain rfl := Option.some.inj (ho.symm.trans ho')
  refine hc.alive_of_held ?_
  have hmem : l ∈ h.outcomes.toList.flatMap Outcome.held :=
    List.mem_flatMap.mpr ⟨o, by simpa using Array.mem_of_getElem? ho, by rwa [Outcome.held, if_neg hcount]⟩
  simp only [held, List.mem_append]
  exact .inl (.inr hmem)

/-! ### Changing a cell -/

/-- Of all cells only one has changed: what it holds, and its count. -/
structure Changes (h h' : Heap) (cell : Link) (before after : List Link) (count : Nat) : Prop where
  held : ∀ l, h'.held.count l + before.count l = h.held.count l + after.count l
  counted : ∀ l, h'.counted l = if l = cell then count else h.counted l
  nested : h.Nested → h'.Nested

theorem Nested.of_scopes {h' : Heap} (hn : h.Nested) (hscopes : h'.scopes = h.scopes) : h'.Nested := fun s scope parent hs ↦
  hn s scope parent (by rwa [scope?, ← hscopes])

theorem Nested.modifyScope (hn : h.Nested) (s : ScopeId) {f : Scope → Scope} (hf : ∀ o, (f o).parent = o.parent) :
    (h.modifyScope s f).Nested := by
  intro s' scope parent hs' hparent
  rw [scope?_modifyScope] at hs'
  split at hs'
  · obtain ⟨o, ho, rfl⟩ := Option.map_eq_some_iff.mp hs'
    exact hn s' o parent ho ((hf o).symm.trans hparent)
  · exact hn s' scope parent hs' hparent

theorem changes_modifyObject {r : Ref} {o : Object} (ho : h.object? r = some o) (f : Object → Object) :
    h.Changes (h.modifyObject r f) (.object r) o.held (f o).held (f o).count := by
  refine ⟨fun l ↦ ?_, fun l ↦ ?_, fun hn ↦ hn.of_scopes rfl⟩
  · have hchange := count_flatMap_modify Object.held ho f l
    simp only [held, modifyObject, List.count_append]
    omega
  · cases l with
    | object r' =>
      simp only [counted, refCount, object?_modifyObject, Link.object.injEq, eq_comm (a := r')]
      split
      · next heq => simp [← heq, ho]
      · rfl
    | scope s => simp [counted, scope?, modifyObject]
    | outcome c => simp [counted, outcome?, modifyObject]

theorem changes_modifyScope {s : ScopeId} {o : Scope} (ho : h.scope? s = some o) (f : Scope → Scope)
    (hf : ∀ o, (f o).parent = o.parent) : h.Changes (h.modifyScope s f) (.scope s) o.held (f o).held (f o).count := by
  refine ⟨fun l ↦ ?_, fun l ↦ ?_, fun hn ↦ hn.modifyScope s hf⟩
  · have hchange := count_flatMap_modify Scope.held ho f l
    simp only [held, modifyScope, List.count_append]
    omega
  · cases l with
    | object r => simp [counted, refCount, object?, modifyScope]
    | scope s' =>
      simp only [counted, scope?_modifyScope, Link.scope.injEq, eq_comm (a := s')]
      split
      · next heq => simp [← heq, ho]
      · rfl
    | outcome c => simp [counted, outcome?, modifyScope]

theorem changes_modifyOutcome {c : OutcomeId} {o : Outcome} (ho : h.outcome? c = some o) (f : Outcome → Outcome) :
    h.Changes (h.modifyOutcome c f) (.outcome c) o.held (f o).held (f o).count := by
  refine ⟨fun l ↦ ?_, fun l ↦ ?_, fun hn ↦ hn.of_scopes rfl⟩
  · have hchange := count_flatMap_modify Outcome.held ho f l
    simp only [held, modifyOutcome, List.count_append]
    omega
  · cases l with
    | object r => simp [counted, refCount, object?, modifyOutcome]
    | scope s => simp [counted, scope?, modifyOutcome]
    | outcome c' =>
      simp only [counted, outcome?_modifyOutcome, Link.outcome.injEq, eq_comm (a := c')]
      split
      · next heq => simp [← heq, ho]
      · rfl

/-- A change that leaves the count alone moves references between the cell and the outside. -/
theorem Covers.change (hc : h.Covers A) {h' : Heap} {cell : Link} {before after : List Link} {n : Nat}
    (hchange : h.Changes h' cell before after n) (hn : n = h.counted cell)
    (hB : ∀ l, after.count l + B.count l ≤ before.count l + A.count l) : h'.Covers B := by
  refine ⟨fun l ↦ ?_, hchange.nested hc.nested⟩
  have hl := hc.counts l
  have hheld := hchange.held l
  have hle := hB l
  have hcounted : h'.counted l = h.counted l := by
    rw [hchange.counted]
    split
    · next heq => rw [heq, hn]
    · rfl
  omega

/-! ### Taking and giving up references -/

theorem changes_retain (hl : h.Alive l) : ∃ links, h.Changes (h.retain l) l links links (h.counted l + 1) := by
  cases l with
  | object r =>
    obtain ⟨o, ho, hcount⟩ := object?_of_alive hl
    have hchange := changes_modifyObject ho fun o ↦ { o with count := o.count + 1 }
    have hcounted : h.counted (.object r) = o.count := by simp [counted, refCount, ho]
    simp only [Object.held, hcount, Nat.add_one_ne_zero, if_false, Object.links] at hchange
    exact ⟨_, hcounted ▸ hchange⟩
  | scope s =>
    obtain ⟨o, ho, hcount⟩ := scope?_of_alive hl
    have hchange := changes_modifyScope ho (fun o ↦ { o with count := o.count + 1 }) fun _ ↦ rfl
    have hcounted : h.counted (.scope s) = o.count := by simp [counted, ho]
    simp only [Scope.held, hcount, Nat.add_one_ne_zero, if_false, Scope.links] at hchange
    exact ⟨_, hcounted ▸ hchange⟩
  | outcome c =>
    obtain ⟨o, ho, hcount⟩ := outcome?_of_alive hl
    have hchange := changes_modifyOutcome ho fun o ↦ { o with count := o.count + 1 }
    have hcounted : h.counted (.outcome c) = o.count := by simp [counted, ho]
    simp only [Outcome.held, hcount, Nat.add_one_ne_zero, if_false, Outcome.links] at hchange
    exact ⟨_, hcounted ▸ hchange⟩

/-- One more reference to a live cell. -/
theorem Covers.retain (hc : h.Covers A) (hl : h.Alive l) : (h.retain l).Covers (l :: A) := by
  obtain ⟨links, hchange⟩ := changes_retain hl
  refine ⟨fun l' ↦ ?_, hchange.nested hc.nested⟩
  have hl' := hc.counts l'
  have hheld := hchange.held l'
  rw [count_cons_hits, hchange.counted]
  split
  · next heq =>
    subst heq
    rw [Link.hits_self]
    omega
  · next hne =>
    rw [Link.hits_of_ne (Ne.symm hne)]
    omega

/-- Giving up a reference puts an instance on the queue, or takes one from the count of the cell.  The cell hands
back what it held if that was the last one. -/
theorem unlink_of_alive (hl : h.Alive l) :
    (∃ r o, l = .object r ∧ h.object? r = some o ∧ o.count = 1 ∧ o.armed = true ∧ o.destructed = false ∧
      h.unlink l = (none, { h.modifyObject r fun o ↦ { o with destructed := true } with due := h.due.push r })) ∨
    ∃ links, h.Changes (h.unlink l).2 l links (if h.counted l = 1 then [] else links) (h.counted l - 1) ∧
      (h.unlink l).1 = if h.counted l = 1 then some links else none := by
  cases l with
  | object r =>
    obtain ⟨o, ho, hcount⟩ := object?_of_alive hl
    have hcounted : h.counted (.object r) = o.count := by simp [counted, refCount, ho]
    simp only [unlink, ho, hcount, if_false]
    split
    · next harmed =>
      simp only [Bool.and_eq_true, decide_eq_true_eq, Bool.not_eq_true'] at harmed
      exact .inl ⟨r, o, rfl, ho, harmed.1.1.1, harmed.1.1.2, harmed.1.2, rfl⟩
    · refine .inr ⟨o.links, ?_, by rw [hcounted]⟩
      have hchange := changes_modifyObject ho fun o ↦ { o with count := o.count - 1 }
      have hiff : o.count - 1 = 0 ↔ o.count = 1 := by omega
      simpa only [Object.held, hcount, if_false, hiff, hcounted, Object.links] using hchange
  | scope s =>
    obtain ⟨o, ho, hcount⟩ := scope?_of_alive hl
    have hcounted : h.counted (.scope s) = o.count := by simp [counted, ho]
    simp only [unlink, ho, hcount, if_false]
    refine .inr ⟨o.links, ?_, by rw [hcounted]⟩
    have hchange := changes_modifyScope ho (fun o ↦ { o with count := o.count - 1 }) fun _ ↦ rfl
    have hiff : o.count - 1 = 0 ↔ o.count = 1 := by omega
    simpa only [Scope.held, hcount, if_false, hiff, hcounted, Scope.links] using hchange
  | outcome c =>
    obtain ⟨o, ho, hcount⟩ := outcome?_of_alive hl
    have hcounted : h.counted (.outcome c) = o.count := by simp [counted, ho]
    simp only [unlink, ho, hcount, if_false]
    refine .inr ⟨o.links, ?_, by rw [hcounted]⟩
    have hchange := changes_modifyOutcome ho fun o ↦ { o with count := o.count - 1 }
    have hiff : o.count - 1 = 0 ↔ o.count = 1 := by omega
    simpa only [Outcome.held, hcount, if_false, hiff, hcounted, Outcome.links] using hchange

/-- An instance whose destructor becomes due goes from the outside to the queue. -/
theorem Covers.enqueue {r : Ref} (hc : h.Covers (.object r :: A)) {o : Object} (ho : h.object? r = some o) :
    Covers { h.modifyObject r fun o ↦ { o with destructed := true } with due := h.due.push r } A := by
  have hmarked : (h.modifyObject r fun o ↦ { o with destructed := true }).Covers (.object r :: A) :=
    hc.change (changes_modifyObject ho _) (by simp [counted, refCount, ho]) fun l ↦ Nat.le_refl _
  refine ⟨fun l ↦ ?_, hmarked.nested.of_scopes rfl⟩
  have hl := hmarked.counts l
  have hheld : held { h.modifyObject r fun o ↦ { o with destructed := true } with due := h.due.push r } =
      (h.modifyObject r fun o ↦ { o with destructed := true }).held ++ [.object r] := by
    simp [held, modifyObject]
  have hcounted : counted { h.modifyObject r fun o ↦ { o with destructed := true } with due := h.due.push r } =
      (h.modifyObject r fun o ↦ { o with destructed := true }).counted := by
    funext l
    cases l <;> rfl
  rw [hheld, hcounted, List.count_append, count_cons_hits, List.count_nil]
  rw [count_cons_hits] at hl
  omega

/-- Giving up a reference to a cell hands back what the cell held, if it is free now. -/
theorem Covers.unlink (hc : h.Covers (l :: A)) : (h.unlink l).2.Covers ((h.unlink l).1.getD [] ++ A) := by
  rcases unlink_of_alive (hc.alive List.mem_cons_self) with ⟨r, o, rfl, ho, -, -, -, heq⟩ | ⟨links, hchange, hlinks⟩
  · rw [heq]
    exact hc.enqueue ho
  · refine ⟨fun l' ↦ ?_, hchange.nested hc.nested⟩
    have hl' := hc.counts l'
    have hheld := hchange.held l'
    rw [hlinks, hchange.counted]
    rw [count_cons_hits] at hl'
    by_cases hone : h.counted l = 1
    · simp only [hone, if_true, Option.getD_some, List.count_append, List.count_nil] at hheld ⊢
      split
      · next heq =>
        -- The last reference was the one given up, so nobody else holds one.
        subst heq
        rw [Link.hits_self] at hl'
        omega
      · next hne =>
        rw [Link.hits_of_ne (Ne.symm hne)] at hl'
        omega
    · simp only [hone, if_false, Option.getD_none, List.nil_append] at hheld ⊢
      split
      · next heq =>
        subst heq
        rw [Link.hits_self] at hl'
        omega
      · next hne =>
        rw [Link.hits_of_ne (Ne.symm hne)] at hl'
        omega

/-! ### New cells and the queue -/

theorem Covers.newObject {o : Object} (hc : h.Covers (o.links ++ A)) (hone : o.count = 1) :
    (h.newObject o).2.Covers (.object (h.newObject o).1 :: A) := by
  refine ⟨fun l ↦ ?_, hc.nested.of_scopes rfl⟩
  have hl := hc.counts l
  have hcounted : (h.newObject o).2.counted l = h.counted l + Link.hits (.object ⟨h.objects.size⟩) l := by
    cases l with
    | object r =>
      obtain ⟨i⟩ := r
      simp only [counted, refCount, object?, Heap.newObject, Array.getElem?_push, Link.hits, Link.object.injEq,
        Ref.mk.injEq, eq_comm (a := h.objects.size)]
      split
      · next heq => simp [heq, hone]
      · simp
    | scope s => simp [counted, scope?, Heap.newObject, Link.hits]
    | outcome c => simp [counted, outcome?, Heap.newObject, Link.hits]
  have hheld : (h.newObject o).2.held.count l = h.held.count l + o.links.count l := by
    simp only [held, Heap.newObject, Array.toList_push, List.flatMap_append, List.count_append, List.flatMap_cons,
      List.flatMap_nil, Object.held, hone]
    simp
    omega
  rw [hcounted, hheld, count_cons_hits]
  rw [List.count_append] at hl
  simp only [Heap.newObject]
  omega

theorem Nested.newScope {parent : Option ScopeId} (hn : h.Nested) (hparent : ∀ p ∈ parent, p.index < h.scopes.size) :
    (h.newScope parent).2.Nested := by
  intro s scope p hs hp
  simp only [scope?, Heap.newScope, Array.getElem?_push] at hs
  split at hs
  · next heq =>
    cases hs
    exact heq ▸ hparent p hp
  · exact hn s scope p hs hp

theorem Covers.newScope {parent : Option ScopeId} (hc : h.Covers (parent.toList.map .scope ++ A)) :
    (h.newScope parent).2.Covers (.scope (h.newScope parent).1 :: A) := by
  have hparent : ∀ p ∈ parent, p.index < h.scopes.size := fun p hp ↦ by
    obtain ⟨o, ho, -⟩ := scope?_of_alive (hc.alive (l := .scope p) (by simp [Option.mem_def.mp hp]))
    exact (Array.getElem?_eq_some_iff.mp ho).1
  refine ⟨fun l ↦ ?_, hc.nested.newScope hparent⟩
  have hl := hc.counts l
  have hcounted : (h.newScope parent).2.counted l = h.counted l + Link.hits (.scope ⟨h.scopes.size⟩) l := by
    cases l with
    | object r => simp [counted, refCount, object?, Heap.newScope, Link.hits]
    | scope s =>
      obtain ⟨i⟩ := s
      simp only [counted, scope?, Heap.newScope, Array.getElem?_push, Link.hits, Link.scope.injEq,
        ScopeId.mk.injEq, eq_comm (a := h.scopes.size)]
      split
      · next heq => simp [heq]
      · simp
    | outcome c => simp [counted, outcome?, Heap.newScope, Link.hits]
  have hheld : (h.newScope parent).2.held.count l = h.held.count l + (parent.toList.map Link.scope).count l := by
    simp only [held, Heap.newScope, Array.toList_push, List.flatMap_append, List.count_append, List.flatMap_cons,
      List.flatMap_nil, Scope.held, Scope.links]
    simp
    omega
  rw [hcounted, hheld, count_cons_hits]
  rw [List.count_append] at hl
  simp only [Heap.newScope]
  omega

theorem Covers.newOutcome (hc : h.Covers A) (status : FrameStatus) :
    (h.newOutcome status).2.Covers (.outcome (h.newOutcome status).1 :: A) := by
  refine ⟨fun l ↦ ?_, hc.nested.of_scopes rfl⟩
  have hl := hc.counts l
  have hcounted : (h.newOutcome status).2.counted l = h.counted l + Link.hits (.outcome ⟨h.outcomes.size⟩) l := by
    cases l with
    | object r => simp [counted, refCount, object?, Heap.newOutcome, Link.hits]
    | scope s => simp [counted, scope?, Heap.newOutcome, Link.hits]
    | outcome c =>
      obtain ⟨i⟩ := c
      simp only [counted, outcome?, Heap.newOutcome, Array.getElem?_push, Link.hits, Link.outcome.injEq,
        OutcomeId.mk.injEq, eq_comm (a := h.outcomes.size)]
      split
      · next heq => simp [heq]
      · simp
  have hheld : (h.newOutcome status).2.held = h.held := by
    simp [held, Heap.newOutcome, Outcome.held, Outcome.links]
  rw [hcounted, hheld, count_cons_hits]
  simp only [Heap.newOutcome]
  omega

/-- The queue hands over the references to the due instances. -/
theorem Covers.takeDue (hc : h.Covers A) : h.takeDue.2.Covers (h.takeDue.1.map .object ++ A) := by
  refine ⟨fun l ↦ ?_, hc.nested.of_scopes rfl⟩
  have hl := hc.counts l
  have hcounted : h.takeDue.2.counted l = h.counted l := by cases l <;> rfl
  rw [hcounted]
  simp only [held, Heap.takeDue, List.count_append, List.map_nil, List.count_nil] at hl ⊢
  omega

end Heap

end MindScript
