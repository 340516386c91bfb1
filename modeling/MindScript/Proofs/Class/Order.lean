import Mathlib.Data.List.Pairwise
import Mathlib.Logic.Relation
import MindScript.Proofs.Class.Answers

/-!
# The order of the ancestors

The ancestors of a class are put together from those of its supertypes, where a class that occurs several times keeps
its last place.  Each part is in order already and holds the ancestors of whatever it holds, so a class that loses its
place to a later part loses it together with everything behind it that the later part lacks.

Registering and defining leave the orders of the earlier classes alone.  That suffices to carry the order through
every registry, and dispatch, which takes the first definition on its way, never comes upon one that is overridden.
-/

namespace MindScript.Registry

open Relation

/-! ### Last places -/

theorem keepLast_cons {c : ClassId} {cs : List ClassId} (h : c ∉ cs) : keepLast (c :: cs) = c :: keepLast cs := by
  simp [keepLast, h]

/-- A class of the first list stays there unless it occurs in the second one. -/
theorem keepLast_append {cs : List ClassId} (h : cs.Nodup) (ds : List ClassId) :
    keepLast (cs ++ ds) = cs.filter (fun c ↦ !ds.contains c) ++ keepLast ds := by
  induction cs with
  | nil => rfl
  | cons c cs ih =>
    obtain ⟨hc, hcs⟩ := List.nodup_cons.mp h
    by_cases hd : c ∈ ds
    · simp [keepLast, hd, ih hcs]
    · simp [keepLast, hd, hc, ih hcs]

/-! ### Orders that are put together -/

/-- One class is declared with the other as a supertype. -/
def Derives (r : Registry) (c s : ClassId) : Prop := s ∈ r.supertypes c

/-- No class stands in front of one that it is an ancestor of. -/
def InOrder (r : Registry) (cs : List ClassId) : Prop := cs.Pairwise fun a b ↦ a ∉ r.ancestors b

/-- The ancestors of a registered class are those that it was given on registration. -/
def Linear (r : Registry) : Prop := ∀ c, c.index < r.size → r.ancestors c = r.linearize c (r.supertypes c)

namespace Sound

variable {r : Registry} {c : ClassId}

theorem index_of_mem (h : r.Sound) (hc : c.index < r.size) {a : ClassId} (ha : a ∈ r.ancestors c) : a.index < r.size :=
  Nat.lt_of_le_of_lt (h.index_le_of_mem hc ha) hc

theorem index_of_supertype (h : r.Sound) (hc : c.index < r.size) {s : ClassId} (hs : s ∈ r.supertypes c) :
    s.index < r.size :=
  Nat.lt_trans (h.supertypes c hc s hs) hc

/-- Two classes that are ancestors of each other are one. -/
theorem ancestors_antisymm (h : r.Sound) (hc : c.index < r.size) {a : ClassId} (ha : a ∈ r.ancestors c)
    (hback : c ∈ r.ancestors a) : a = c := by
  rcases (h.ancestors c hc a).mp ha with rfl | ⟨s, hs, has⟩
  · rfl
  · have hlt : s.index < c.index := h.supertypes c hc s hs
    have hle : a.index ≤ s.index := h.index_le_of_mem (h.index_of_supertype hc hs) has
    have hge : c.index ≤ a.index := h.index_le_of_mem (h.index_of_mem hc ha) hback
    omega

theorem nodup_of_inOrder (h : r.Sound) {cs : List ClassId} (hcs : ∀ d ∈ cs, d.index < r.size) (horder : r.InOrder cs) :
    cs.Nodup := by
  refine horder.imp_of_mem ?_
  intro a b _ hb hab heq
  subst heq
  exact hab (h.self_mem_ancestors (hcs a hb))

/-- What supertypes bring holds the ancestors of whatever it holds. -/
theorem mem_flatMap_ancestors (h : r.Sound) {ss : List ClassId} (hss : ∀ s ∈ ss, s.index < r.size) {a b : ClassId}
    (hb : b ∈ ss.flatMap r.ancestors) (ha : a ∈ r.ancestors b) : a ∈ ss.flatMap r.ancestors := by
  obtain ⟨s, hs, hbs⟩ := List.mem_flatMap.mp hb
  exact List.mem_flatMap.mpr ⟨s, hs, h.ancestors_trans (hss s hs) hbs ha⟩

/-- Parts that are in order are put together in order. -/
theorem inOrder_keepLast (h : r.Sound) {ss : List ClassId} (hss : ∀ s ∈ ss, s.index < r.size)
    (hparts : ∀ s ∈ ss, r.InOrder (r.ancestors s)) : r.InOrder (keepLast (ss.flatMap r.ancestors)) := by
  induction ss with
  | nil => exact List.Pairwise.nil
  | cons s rest ih =>
    obtain ⟨hs, hrest⟩ := List.forall_mem_cons.mp hss
    obtain ⟨hpart, hlater⟩ := List.forall_mem_cons.mp hparts
    have hnodup : (r.ancestors s).Nodup := h.nodup_of_inOrder (fun a ha ↦ h.index_of_mem hs ha) hpart
    rw [List.flatMap_cons, keepLast_append hnodup, InOrder, List.pairwise_append]
    refine ⟨hpart.sublist List.filter_sublist, ih hrest hlater, ?_⟩
    -- What stays in the first part is no ancestor of the later parts, which hold all of theirs.
    intro a ha b hb hab
    have hkept : a ∉ rest.flatMap r.ancestors := by simpa using (List.mem_filter.mp ha).2
    exact hkept (h.mem_flatMap_ancestors hrest (mem_keepLast.mp hb) hab)

/-- Supertypes of which none is an ancestor of a later one keep their places. -/
theorem sublist_keepLast (h : r.Sound) {ss : List ClassId} (hss : ∀ s ∈ ss, s.index < r.size)
    (hparts : ∀ s ∈ ss, r.InOrder (r.ancestors s)) (hsep : r.InOrder ss) :
    ss.Sublist (keepLast (ss.flatMap r.ancestors)) := by
  induction ss with
  | nil => exact List.Sublist.slnil
  | cons s rest ih =>
    obtain ⟨hs, hrest⟩ := List.forall_mem_cons.mp hss
    obtain ⟨hpart, hlater⟩ := List.forall_mem_cons.mp hparts
    obtain ⟨hfirst, hsep⟩ := List.pairwise_cons.mp hsep
    have hnodup : (r.ancestors s).Nodup := h.nodup_of_inOrder (fun a ha ↦ h.index_of_mem hs ha) hpart
    have hnew : s ∉ rest.flatMap r.ancestors := by
      intro hmem
      obtain ⟨s', hs', hss'⟩ := List.mem_flatMap.mp hmem
      exact hfirst s' hs' hss'
    have hstays : s ∈ (r.ancestors s).filter fun c ↦ !(rest.flatMap r.ancestors).contains c := by
      refine List.mem_filter.mpr ⟨h.self_mem_ancestors hs, ?_⟩
      simpa using hnew
    rw [List.flatMap_cons, keepLast_append hnodup]
    exact (List.singleton_sublist.mpr hstays).append (ih hrest hlater hsep)

/-! ### Orders of registered classes -/

/-- A class comes first among its ancestors, and the others are put together from those of its supertypes. -/
theorem ancestors_eq_cons (h : r.Sound) (hlinear : r.Linear) (hc : c.index < r.size) :
    r.ancestors c = c :: keepLast ((r.supertypes c).flatMap r.ancestors) := by
  rw [hlinear c hc, linearize]
  apply keepLast_cons
  intro hmem
  obtain ⟨s, hs, hcs⟩ := List.mem_flatMap.mp hmem
  have hlt : s.index < c.index := h.supertypes c hc s hs
  exact Nat.not_lt_of_le (h.index_le_of_mem (h.index_of_supertype hc hs) hcs) hlt

/-- By induction on the registration: the supertypes of a class come before it. -/
theorem inOrder_ancestors (h : r.Sound) (hlinear : r.Linear) (hc : c.index < r.size) : r.InOrder (r.ancestors c) := by
  obtain ⟨n⟩ := c
  induction n using Nat.strongRecOn with
  | _ n ih =>
    have hss : ∀ s ∈ r.supertypes ⟨n⟩, s.index < r.size := fun s hs ↦ h.index_of_supertype hc hs
    have hparts : ∀ s ∈ r.supertypes ⟨n⟩, r.InOrder (r.ancestors s) :=
      fun s hs ↦ ih s.index (h.supertypes ⟨n⟩ hc s hs) (hss s hs)
    rw [h.ancestors_eq_cons hlinear hc]
    refine List.pairwise_cons.mpr ⟨?_, h.inOrder_keepLast hss hparts⟩
    intro a ha hback
    obtain ⟨s, hs, has⟩ := List.mem_flatMap.mp (mem_keepLast.mp ha)
    have hlt : s.index < n := h.supertypes ⟨n⟩ hc s hs
    have hmem : (⟨n⟩ : ClassId) ∈ r.ancestors s := h.ancestors_trans (hss s hs) has hback
    exact Nat.not_lt_of_le (h.index_le_of_mem (hss s hs) hmem) hlt

/-- A class stands in front of its proper ancestors. -/
theorem sublist_ancestors (h : r.Sound) (hlinear : r.Linear) (hc : c.index < r.size) {a b : ClassId}
    (ha : a ∈ r.ancestors c) (hb : b ∈ r.ancestors a) (hne : b ≠ a) : [a, b].Sublist (r.ancestors c) := by
  obtain ⟨front, back, heq⟩ := List.append_of_mem ha
  have horder := h.inOrder_ancestors hlinear hc
  have hbc : b ∈ r.ancestors c := h.ancestors_trans hc ha hb
  rw [heq, InOrder, List.pairwise_append] at horder
  rw [heq] at hbc ⊢
  rcases List.mem_append.mp hbc with hfront | hrest
  · exact absurd hb (horder.2.2 b hfront a List.mem_cons_self)
  · have hback : b ∈ back := (List.mem_cons.mp hrest).resolve_left hne
    exact ((List.singleton_sublist.mpr hback).cons_cons a).trans (List.sublist_append_right front _)

/-- Ancestors are what is reached along supertypes. -/
theorem mem_ancestors_iff (h : r.Sound) (hc : c.index < r.size) {a : ClassId} :
    a ∈ r.ancestors c ↔ ReflTransGen r.Derives c a := by
  constructor
  · intro ha
    obtain ⟨n⟩ := c
    induction n using Nat.strongRecOn with
    | _ n ih =>
      rcases (h.ancestors ⟨n⟩ hc a).mp ha with rfl | ⟨s, hs, has⟩
      · exact ReflTransGen.refl
      · exact ReflTransGen.head hs (ih s.index (h.supertypes ⟨n⟩ hc s hs) (h.index_of_supertype hc hs) has)
  · intro hreach
    induction hreach with
    | refl => exact h.self_mem_ancestors hc
    | tail _ hlast ih =>
      have hmid := h.index_of_mem hc ih
      exact h.ancestors_trans hc ih ((h.ancestors _ hmid _).mpr (.inr ⟨_, hlast, h.self_mem_ancestors
        (h.index_of_supertype hmid hlast)⟩))

/-- A class that is not registered has neither supertypes nor ancestors. -/
theorem isSubtype_iff_reaches (h : r.Sound) {a : ClassId} :
    r.isSubtype c a = true ↔ ReflTransGen r.Derives c a := by
  rw [isSubtype_iff]
  by_cases hc : c.index < r.size
  · rw [h.mem_ancestors_iff hc]
    constructor
    · rintro (rfl | hreach)
      · exact ReflTransGen.refl
      · exact hreach
    · exact .inr
  · have hrecord : r.record c = default := record_of_size_le (Nat.le_of_not_lt hc)
    have hancestors : r.ancestors c = [] := by
      rw [Registry.ancestors, hrecord]
      rfl
    have hsupertypes : ∀ s, ¬ r.Derives c s := by
      intro s hs
      rw [Derives, Registry.supertypes, hrecord] at hs
      exact absurd hs List.not_mem_nil
    rw [hancestors, ReflTransGen.cases_head_iff]
    simp [hsupertypes]

/-- A chain of supertypes does not come back to where it starts. -/
theorem not_transGen_self (h : r.Sound) : ¬ TransGen r.Derives c c := by
  have hstep : ∀ {a b}, r.Derives a b → b.index < a.index := by
    intro a b hab
    by_cases ha : a.index < r.size
    · exact h.supertypes a ha b hab
    · rw [Derives, Registry.supertypes, record_of_size_le (Nat.le_of_not_lt ha)] at hab
      exact absurd hab List.not_mem_nil
  have hdown : ∀ {a b}, TransGen r.Derives a b → b.index < a.index := by
    intro a b hab
    induction hab with
    | single hab => exact hstep hab
    | tail _ hlast ih => exact Nat.lt_trans (hstep hlast) ih
  exact fun hcycle ↦ Nat.lt_irrefl _ (hdown hcycle)

theorem isSubtype_antisymm (h : r.Sound) {a : ClassId} (hsub : r.isSubtype c a = true)
    (hback : r.isSubtype a c = true) : a = c := by
  rw [h.isSubtype_iff_reaches] at hsub hback
  rcases reflTransGen_iff_eq_or_transGen.mp hsub with rfl | hdown
  · rfl
  · exact absurd (hdown.trans_left hback) h.not_transGen_self

/-- A search ends at a definition that no other class on its way overrides. -/
theorem search_of_inOrder (h : r.Sound) (hlinear : r.Linear) (hc : c.index < r.size) {name : String} {m : Member}
    (hm : r.search c name = some m) : ∃ a ∈ r.ancestors c, Member.lookup (r.ownMembers a) name = some m ∧
      ∀ b ∈ r.ancestors c, b ≠ a → a ∈ r.ancestors b → Member.lookup (r.ownMembers b) name = none := by
  obtain ⟨front, a, back, heq, ha, hfront⟩ := List.findSome?_eq_some_iff.mp hm
  have hmem : a ∈ r.ancestors c := by simp [heq]
  refine ⟨a, hmem, ha, ?_⟩
  intro b hb hne hab
  have horder := h.inOrder_ancestors hlinear hc
  rw [heq, InOrder, List.pairwise_append, List.pairwise_cons] at horder
  rw [heq, List.mem_append, List.mem_cons] at hb
  rcases hb with hb | rfl | hb
  · exact hfront b hb
  · exact absurd rfl hne
  · exact absurd hab (horder.2.1.1 b hb)

end Sound

/-! ### Requests keep the orders -/

section requests

variable {r r' : Registry}

theorem Linear.empty : Linear {} := fun _ hc ↦ absurd hc (Nat.not_lt_zero _)

theorem Linear.of_classes (h : r.Linear) (hclasses : r'.classes = r.classes) : r'.Linear := by
  have hancestors : r'.ancestors = r.ancestors := by
    funext c
    simp only [ancestors, record_congr hclasses]
  intro c hc
  rw [size, hclasses] at hc
  rw [linearize, hancestors, supertypes, record_congr hclasses]
  exact h c hc

/-- A new class is given its order; the orders of earlier classes only look at earlier classes. -/
theorem Linear.addRecord (h : r.Linear) (hsound : r.Sound) {new : ClassRecord}
    (hs : ∀ s ∈ new.supertypes, s.index < r.size)
    (hancestors : new.ancestors = r.linearize ⟨r.size⟩ new.supertypes) : (r.addRecord new).Linear := by
  have hlinearize : ∀ c (ss : List ClassId), (∀ s ∈ ss, s.index < r.size) →
      (r.addRecord new).linearize c ss = r.linearize c ss := by
    intro c ss hss
    have hparts : ss.map (r.addRecord new).ancestors = ss.map r.ancestors :=
      List.map_congr_left fun s hs ↦ ancestors_addRecord_of_ne (Nat.ne_of_lt (hss s hs)) new
    rw [linearize, linearize, List.flatMap, List.flatMap, hparts]
  intro c hc
  by_cases hci : c.index = r.size
  · obtain rfl : c = ⟨r.size⟩ := by
      cases c
      exact congrArg ClassId.mk hci
    rw [ancestors, supertypes, record_addRecord_self, hancestors, hlinearize _ _ hs]
  · have hold : c.index < r.size := by
      rw [size_addRecord] at hc
      omega
    rw [ancestors_addRecord_of_ne hci, supertypes_addRecord_of_ne hci,
      hlinearize _ _ fun s hs ↦ hsound.index_of_supertype hold hs]
    exact h c hold

/-- Members do not matter for the order. -/
theorem Linear.storeMember (h : r.Linear) (hsound : r.Sound) (c : ClassId) (decl : MemberDecl) :
    (r.storeMember c decl).Linear := by
  intro d hd
  rw [size_storeMember] at hd
  have hparts : (r.supertypes d).map (r.storeMember c decl).ancestors = (r.supertypes d).map r.ancestors :=
    List.map_congr_left fun s hs ↦ ancestors_storeMember r c decl (hsound.index_of_supertype hd hs)
  rw [ancestors_storeMember r c decl hd, supertypes_storeMember r c decl hd, linearize, List.flatMap, hparts]
  exact h d hd

/-- Granted or refused, a request leaves every class with the order that it was given. -/
theorem Request.linear_after (hsound : r.Sound) (h : r.Linear) {q : Request} (hfits : q.Fits r) : (q.after r).Linear := by
  cases q with
  | register decl =>
    rw [after]
    rcases register_cases decl r with heq | ⟨supertypes, r₁, hsuper, rfl, hrest⟩
    · rwa [heq]
    · have hindex := index_of_resolveSupertypes hsuper
      have hremembers := (checkMembers_of_sound hsound hindex decl.name decl.members).1
      have h₁ := h.of_classes hremembers.classes
      rcases hrest with heq | ⟨own, classData, -, heq⟩
      · rwa [heq]
      · rw [heq]
        refine h₁.addRecord hremembers.sound ?_ rfl
        intro s hs
        rw [hremembers.size]
        exact hindex s hs
  | define c decl =>
    have hremembers := (checkMembers_of_sound hsound (fun s hs ↦ hsound.index_of_supertype hfits hs) (r.nameOf c) [decl]).1
    have h₁ := h.of_classes hremembers.classes
    obtain ⟨_, rfl, heq | heq⟩ := define_cases c decl r
    · rwa [after, heq]
    · rw [after, heq]
      exact h₁.storeMember hremembers.sound c decl
  | find c name => exact h.of_classes (classes_find r c name)
  | resolve c name qualifier =>
    by_cases hq : ∀ q ∈ qualifier, r.isSubtype c q = true
    · rw [after, resolve_of_isSubtype hq]
      exact h.of_classes (classes_find r _ name)
    · simp only [not_forall] at hq
      obtain ⟨q, rfl, hq⟩ := hq
      obtain ⟨note, heq⟩ := resolve_of_not_isSubtype (Bool.eq_false_iff.mpr hq) name
      rwa [after, heq]

theorem Asked.linear (h : Asked r) : r.Linear := by
  induction h with
  | empty => exact Linear.empty
  | request hasked hfits ih => exact Request.linear_after hasked.sound.1 ih hfits

end requests

/-! ### The order that dispatch follows -/

/-- The ancestors of a class are what it reaches along supertypes, itself first, each once and in front of its own
proper ancestors; supertypes none of which is an ancestor of a later one stand as they were declared; being a subtype
is a partial order without cycles; and what dispatch finds is overridden by nobody on its way. -/
theorem ancestors_in_order {r : Registry} (h : Asked r) :
    (∀ c, c.index < r.size →
      (∃ rest, r.ancestors c = c :: rest) ∧ (r.ancestors c).Nodup ∧
      (∀ a, a ∈ r.ancestors c ↔ ReflTransGen r.Derives c a) ∧
      (∀ a ∈ r.ancestors c, ∀ b ∈ r.ancestors a, b ≠ a → [a, b].Sublist (r.ancestors c)) ∧
      ((r.supertypes c).Pairwise (fun s s' ↦ r.isSubtype s' s = false) → (r.supertypes c).Sublist (r.ancestors c)) ∧
      ∀ name qualifier m r', resolve c name qualifier r = (.ok m, r') →
        ∃ a ∈ r.ancestors (qualifier.getD c), Member.lookup (r.ownMembers a) name = some m ∧
          ∀ b ∈ r.ancestors (qualifier.getD c), b ≠ a → a ∈ r.ancestors b →
            Member.lookup (r.ownMembers b) name = none) ∧
    (∀ c a, r.isSubtype c a = true ↔ ReflTransGen r.Derives c a) ∧
    (∀ c, r.isSubtype c c = true) ∧
    (∀ a b c, r.isSubtype a b = true → r.isSubtype b c = true → r.isSubtype a c = true) ∧
    (∀ a b, r.isSubtype a b = true → r.isSubtype b a = true → a = b) ∧
    ∀ c, ¬ TransGen r.Derives c c := by
  have hsound := h.sound.1
  have hlinear := h.linear
  refine ⟨?_, fun c a ↦ hsound.isSubtype_iff_reaches, r.isSubtype_self, ?_, ?_, fun c ↦ hsound.not_transGen_self⟩
  · intro c hc
    have hss : ∀ s ∈ r.supertypes c, s.index < r.size := fun s hs ↦ hsound.index_of_supertype hc hs
    have horder := hsound.inOrder_ancestors hlinear hc
    refine ⟨⟨_, hsound.ancestors_eq_cons hlinear hc⟩, ?_, fun a ↦ hsound.mem_ancestors_iff hc, ?_, ?_, ?_⟩
    · exact hsound.nodup_of_inOrder (fun a ha ↦ hsound.index_of_mem hc ha) horder
    · intro a ha b hb hne
      exact hsound.sublist_ancestors hlinear hc ha hb hne
    · intro hsep
      have hsep' : r.InOrder (r.supertypes c) := by
        refine hsep.imp ?_
        intro s s' hnot hmem
        rw [isSubtype_iff.mpr (.inr hmem)] at hnot
        cases hnot
      rw [hsound.ancestors_eq_cons hlinear hc]
      apply List.Sublist.cons
      exact hsound.sublist_keepLast hss (fun s hs ↦ hsound.inOrder_ancestors hlinear (hss s hs)) hsep'
    · intro name qualifier m r' hresolve
      obtain ⟨hq, hm⟩ := (resolve_eq_ok_iff hsound hc).mp ⟨r', hresolve⟩
      have hstart := hsound.index_of_qualifier hc fun q hmem ↦ isSubtype_iff.mpr (.inr (hq q hmem))
      exact hsound.search_of_inOrder hlinear hstart hm
  · intro a b c hab hbc
    rw [hsound.isSubtype_iff_reaches] at hab hbc ⊢
    exact hab.trans hbc
  · intro a b hab hba
    exact (hsound.isSubtype_antisymm hab hba).symm

/-! ### A diamond -/

section diamond

/-- A class is registered under a free name if its supertypes are known. -/
theorem Asked.derive {r : Registry} (h : Asked r) (name : String) (names : List String) (supertypes : List ClassId)
    (hname : r.checkName { name, supertypes := names } = .ok ())
    (hsuper : r.resolveSupertypes names = .ok supertypes) (hroom : r.size < maxSize) :
    ∃ r', Asked r' ∧
      r'.classes = (r.addRecord (r.newRecord { name, supertypes := names } supertypes [] [])).classes := by
  have hadmits : ∀ m ∈ ([] : List MemberDecl), r.Admits supertypes name m := by simp
  obtain ⟨r', hreg, hremembers⟩ := register_ok h.sound.1 rfl rfl hname hsuper hroom hadmits
  refine ⟨r', ?_, hremembers.classes⟩
  simpa only [Request.after, hreg] using h.request (q := .register { name, supertypes := names }) trivial

def diamond : Array ClassRecord := #[
  ⟨"Thing", [], [⟨1⟩, ⟨2⟩], [⟨0⟩], [], [], [], false⟩,
  ⟨"Left", [⟨0⟩], [⟨3⟩], [⟨1⟩, ⟨0⟩], [], [], [], false⟩,
  ⟨"Right", [⟨0⟩], [⟨3⟩], [⟨2⟩, ⟨0⟩], [], [], [], false⟩,
  ⟨"Both", [⟨1⟩, ⟨2⟩], [], [⟨3⟩, ⟨1⟩, ⟨2⟩, ⟨0⟩], [], [], [], false⟩]

theorem exists_diamond : ∃ r, Asked r ∧ r.classes = diamond := by
  obtain ⟨⟨cs₁, cache₁⟩, h₁, hclasses₁⟩ := Asked.empty.derive "Thing" [] [] (by simp [checkName, classNamed]) rfl (by decide)
  obtain rfl : cs₁ = #[⟨"Thing", [], [], [⟨0⟩], [], [], [], false⟩] := hclasses₁
  obtain ⟨⟨cs₂, cache₂⟩, h₂, hclasses₂⟩ := h₁.derive "Left" ["Thing"] [⟨0⟩]
    (by simp [checkName, classNamed]) (by simp [resolveSupertypes, classNamed, List.foldlM]) (by simp [size, maxSize, UInt32.size])
  obtain rfl : cs₂ = #[⟨"Thing", [], [⟨1⟩], [⟨0⟩], [], [], [], false⟩,
    ⟨"Left", [⟨0⟩], [], [⟨1⟩, ⟨0⟩], [], [], [], false⟩] := hclasses₂
  obtain ⟨⟨cs₃, cache₃⟩, h₃, hclasses₃⟩ := h₂.derive "Right" ["Thing"] [⟨0⟩]
    (by simp [checkName, classNamed, List.findIdx?_cons])
    (by simp [resolveSupertypes, classNamed, List.foldlM, List.findIdx?_cons]) (by simp [size, maxSize, UInt32.size])
  obtain rfl : cs₃ = #[⟨"Thing", [], [⟨1⟩, ⟨2⟩], [⟨0⟩], [], [], [], false⟩,
    ⟨"Left", [⟨0⟩], [], [⟨1⟩, ⟨0⟩], [], [], [], false⟩,
    ⟨"Right", [⟨0⟩], [], [⟨2⟩, ⟨0⟩], [], [], [], false⟩] := hclasses₃
  obtain ⟨r, h₄, hclasses₄⟩ := h₃.derive "Both" ["Left", "Right"] [⟨1⟩, ⟨2⟩]
    (by simp [checkName, classNamed, List.findIdx?_cons])
    (by simp [resolveSupertypes, classNamed, List.foldlM, List.findIdx?_cons]; rfl) (by simp [size, maxSize, UInt32.size])
  exact ⟨r, h₄, hclasses₄⟩

/-- Both sides of the diamond stand in front of what they share, and as they were declared. -/
theorem ancestors_in_order_diamond : ∃ r, Asked r ∧ r.ancestors ⟨3⟩ = [⟨3⟩, ⟨1⟩, ⟨2⟩, ⟨0⟩] ∧
    ReflTransGen r.Derives ⟨3⟩ ⟨0⟩ ∧ [⟨1⟩, ⟨0⟩].Sublist (r.ancestors ⟨3⟩) ∧ [⟨1⟩, ⟨2⟩].Sublist (r.ancestors ⟨3⟩) ∧
    ¬ TransGen r.Derives ⟨3⟩ ⟨3⟩ := by
  obtain ⟨r, hasked, hclasses⟩ := exists_diamond
  have hancestors : r.ancestors ⟨3⟩ = [⟨3⟩, ⟨1⟩, ⟨2⟩, ⟨0⟩] := by simp [ancestors, record, hclasses, diamond]
  have hleft : r.ancestors ⟨1⟩ = [⟨1⟩, ⟨0⟩] := by simp [ancestors, record, hclasses, diamond]
  have hright : r.ancestors ⟨2⟩ = [⟨2⟩, ⟨0⟩] := by simp [ancestors, record, hclasses, diamond]
  have hsupertypes : r.supertypes ⟨3⟩ = [⟨1⟩, ⟨2⟩] := by simp [supertypes, record, hclasses, diamond]
  have hsize : r.size = 4 := by simp [size, hclasses, diamond]
  obtain ⟨horders, -, -, -, -, hacyclic⟩ := ancestors_in_order hasked
  obtain ⟨-, -, hreach, hfront, hdeclared, -⟩ := horders ⟨3⟩ (by rw [hsize]; decide)
  refine ⟨r, hasked, hancestors, (hreach ⟨0⟩).mp (by simp [hancestors]), ?_, ?_, hacyclic ⟨3⟩⟩
  · exact hfront ⟨1⟩ (by simp [hancestors]) ⟨0⟩ (by simp [hleft]) (by decide)
  · rw [← hsupertypes]
    apply hdeclared
    simp [hsupertypes, isSubtype, hright]

end diamond

end MindScript.Registry
