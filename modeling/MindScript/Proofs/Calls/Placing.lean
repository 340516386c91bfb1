import Mathlib.Data.List.Perm.Basic
import MindScript.Machine.Arguments

/-!
# Where arguments go

Each argument is meant for one parameter, whatever comes before or after it.  Placing the arguments one by one succeeds
exactly if each is meant for a parameter that there is, and no two are meant for the same one.
-/

namespace MindScript

open Machine

/-- The parameter that an argument is meant for: a positional one for the parameter of its rank among the positional ones, a
named one for the first parameter of the name. -/
def paramOf (names : List String) (args : ArgValues) (j : ℕ) : Option ℕ :=
  match args[j]? with
  | some (none, _) => some ((args.take j).countP fun a ↦ a.1.isNone)
  | some (some name, _) => names.findIdx? (· == name)
  | none => none

/-- Each argument is meant for a parameter, and no two are meant for the same one. -/
structure Placeable (names : List String) (args : ArgValues) : Prop where
  known : ∀ j < args.length, ∃ i < names.length, paramOf names args j = some i
  apart : ∀ j j' i, paramOf names args j = some i → paramOf names args j' = some i → j = j'

/-- Each parameter holds the argument that is meant for it, if one is, and every argument is held once. -/
structure Placed (names : List String) (args : ArgValues) (slots : List (Option Ref)) : Prop where
  length : slots.length = names.length
  holds : ∀ i value, slots[i]? = some (some value) ↔
    ∃ j, paramOf names args j = some i ∧ (args[j]?).map Prod.snd = some value
  once : (slots.filterMap id).Perm (args.map Prod.snd)

section

variable {names : List String} {done : ArgValues} {name : Option String} {value : Ref} {rest : ArgValues}

/-- What comes later has no part in where an argument goes. -/
theorem paramOf_append {j : ℕ} (hj : j < done.length) : paramOf names (done ++ rest) j = paramOf names done j := by
  unfold paramOf
  rw [List.getElem?_append_left hj, List.take_append_of_le_length (Nat.le_of_lt hj)]

theorem lt_of_paramOf {args : ArgValues} {j i : ℕ} (h : paramOf names args j = some i) : j < args.length := by
  by_contra hj
  rw [paramOf, List.getElem?_eq_none (Nat.not_lt.mp hj)] at h
  cases h

theorem paramOf_length : paramOf names (done ++ (name, value) :: rest) done.length = match name with
    | none => some (done.countP fun a ↦ a.1.isNone)
    | some name => names.findIdx? (· == name) := by
  unfold paramOf
  rw [List.getElem?_append_right (Nat.le_refl _), Nat.sub_self, List.take_left]
  cases name <;> rfl

theorem paramIndex_eq_ok_iff {member : String} {given i : ℕ} (value : Ref) (rest : ArgValues) :
    paramIndex member names given (done.countP fun a ↦ a.1.isNone) name = .ok i ↔
      paramOf names (done ++ (name, value) :: rest) done.length = some i ∧ i < names.length := by
  rw [paramOf_length]
  cases name with
  | none =>
    unfold paramIndex
    dsimp only
    split
    · next hlt =>
      rw [Except.ok.injEq, Option.some.injEq]
      exact ⟨fun h ↦ ⟨h, h ▸ hlt⟩, And.left⟩
    · next hge =>
      rw [Option.some.injEq]
      exact ⟨fun h ↦ (by cases h), fun ⟨h, hlt⟩ ↦ absurd (h ▸ hlt) hge⟩
  | some name =>
    unfold paramIndex
    dsimp only
    cases hfound : names.findIdx? (· == name) with
    | none => exact ⟨fun h ↦ (by cases h), fun ⟨h, _⟩ ↦ (by cases h)⟩
    | some k =>
      rw [Except.ok.injEq, Option.some.injEq]
      exact ⟨fun h ↦ ⟨h, h ▸ (List.findIdx?_eq_some_iff_getElem.mp hfound).1⟩, And.left⟩

theorem Placed.nil (names : List String) : Placed names [] (names.map fun _ ↦ none) where
  length := List.length_map ..
  holds i value := by
    constructor
    · intro h
      rw [List.getElem?_map] at h
      cases hi : names[i]? <;> rw [hi] at h <;> cases h
    · rintro ⟨j, hj, -⟩
      exact absurd (lt_of_paramOf hj) (Nat.not_lt_zero j)
  once := by
    have hnone : (names.map fun _ ↦ (none : Option Ref)).filterMap id = [] := by
      rw [List.filterMap_map]
      exact List.filterMap_eq_nil_iff.mpr fun _ _ ↦ rfl
    rw [hnone]
    exact .refl []

/-- Filling an empty place adds to what is held. -/
theorem perm_filterMap_set {slots : List (Option Ref)} {i : ℕ} (hi : slots[i]? = some none) (value : Ref) :
    ((slots.set i (some value)).filterMap id).Perm (value :: slots.filterMap id) := by
  induction slots generalizing i with
  | nil => cases hi
  | cons slot rest ih =>
    cases i with
    | zero =>
      obtain rfl : slot = none := by simpa using hi
      exact .refl _
    | succ i =>
      have hrest := ih (i := i) (by simpa using hi)
      cases slot with
      | none => exact hrest
      | some v => exact (hrest.cons v).trans (.swap value v _)

/-- No argument so far is meant for an empty place. -/
theorem Placed.free {slots : List (Option Ref)} {i : ℕ} (h : Placed names done slots) (hi : slots[i]? = some none) (j : ℕ) :
    paramOf names done j ≠ some i := by
  intro hj
  obtain ⟨a, ha⟩ : ∃ a, done[j]? = some a := ⟨_, List.getElem?_eq_getElem (lt_of_paramOf hj)⟩
  cases hi.symm.trans ((h.holds i a.2).mpr ⟨j, hj, by rw [ha]; rfl⟩)

/-- An argument is put into an empty place. -/
theorem Placed.snoc {slots : List (Option Ref)} {i : ℕ} (h : Placed names done slots) (hi : slots[i]? = some none)
    (hparam : paramOf names (done ++ [(name, value)]) done.length = some i) :
    Placed names (done ++ [(name, value)]) (slots.set i (some value)) where
  length := by rw [List.length_set, h.length]
  holds k v := by
    have hlast : (done ++ [(name, value)])[done.length]? = some (name, value) := by simp
    constructor
    · intro hk
      by_cases hik : i = k
      · subst hik
        have hlt : i < slots.length := (List.getElem?_eq_some_iff.mp hi).1
        rw [List.getElem?_set_self hlt] at hk
        cases hk
        exact ⟨done.length, hparam, by rw [hlast]; rfl⟩
      · rw [List.getElem?_set_ne hik] at hk
        obtain ⟨j, hj, hvalue⟩ := (h.holds k v).mp hk
        have hlt := lt_of_paramOf hj
        exact ⟨j, paramOf_append hlt ▸ hj, by rwa [List.getElem?_append_left hlt]⟩
    · rintro ⟨j, hj, hvalue⟩
      have hlt := lt_of_paramOf hj
      rw [List.length_append, List.length_singleton] at hlt
      rcases Nat.lt_or_eq_of_le (Nat.le_of_lt_succ hlt) with hlt | rfl
      · rw [paramOf_append hlt] at hj
        rw [List.getElem?_append_left hlt] at hvalue
        have hik : i ≠ k := fun heq ↦ h.free hi j (heq ▸ hj)
        rw [List.getElem?_set_ne hik]
        exact (h.holds k v).mpr ⟨j, hj, hvalue⟩
      · cases hparam.symm.trans hj
        rw [hlast] at hvalue
        cases hvalue
        exact List.getElem?_set_self (List.getElem?_eq_some_iff.mp hi).1
  once := by
    have hset := (perm_filterMap_set hi value).trans (h.once.cons value)
    rw [List.map_append]
    exact hset.trans (List.perm_append_singleton value _).symm

theorem Placeable.snoc {slots : List (Option Ref)} {i : ℕ} (h : Placeable names done) (hplaced : Placed names done slots)
    (hi : slots[i]? = some none) (hlt : i < names.length)
    (hparam : paramOf names (done ++ [(name, value)]) done.length = some i) : Placeable names (done ++ [(name, value)]) := by
  have hcases {j : ℕ} (hj : j < (done ++ [(name, value)]).length) : j < done.length ∨ j = done.length := by
    rw [List.length_append, List.length_singleton] at hj
    omega
  constructor
  · intro j hj
    rcases hcases hj with hj | rfl
    · obtain ⟨k, hk, hparam⟩ := h.known j hj
      exact ⟨k, hk, by rwa [paramOf_append hj]⟩
    · exact ⟨i, hlt, hparam⟩
  · intro j j' k hj hj'
    rcases hcases (lt_of_paramOf hj) with hlt | rfl <;> rcases hcases (lt_of_paramOf hj') with hlt' | rfl
    · rw [paramOf_append hlt] at hj
      rw [paramOf_append hlt'] at hj'
      exact h.apart j j' k hj hj'
    · cases hparam.symm.trans hj'
      exact absurd (paramOf_append hlt ▸ hj) (hplaced.free hi j)
    · cases hparam.symm.trans hj
      exact absurd (paramOf_append hlt' ▸ hj') (hplaced.free hi j')
    · rfl

/-- What is handed back when an argument cannot be placed is every argument, once. -/
theorem perm_unplaced {slots : List (Option Ref)} (h : Placed names done slots) :
    (unplaced value rest slots).Perm ((done ++ (name, value) :: rest).map Prod.snd) := by
  have hlater : (unplaced value rest slots).Perm ((value :: rest.map Prod.snd) ++ done.map Prod.snd) :=
    (h.once.append_left (value :: rest.map Prod.snd))
  rw [List.map_append, List.map_cons]
  exact hlater.trans List.perm_append_comm

theorem placeArgs_cases {member : String} {given : ℕ} {slots : List (Option Ref)} (h : Placeable names done)
    (hplaced : Placed names done slots) :
    match placeArgs member names given (done.countP fun a ↦ a.1.isNone) slots rest with
    | .ok slots' => Placeable names (done ++ rest) ∧ Placed names (done ++ rest) slots'
    | .error (_, values) => ¬ Placeable names (done ++ rest) ∧ values.Perm ((done ++ rest).map Prod.snd) := by
  induction rest generalizing done slots with
  | nil =>
    rw [List.append_nil]
    exact ⟨h, hplaced⟩
  | cons a rest ih =>
    obtain ⟨name, value⟩ := a
    rw [placeArgs]
    cases hindex : paramIndex member names given (done.countP fun a ↦ a.1.isNone) name with
    | error e =>
      refine ⟨fun hall ↦ ?_, perm_unplaced hplaced⟩
      obtain ⟨i, hi, hparam⟩ := hall.known done.length (by simp)
      cases hindex.symm.trans ((paramIndex_eq_ok_iff value rest).mpr ⟨hparam, hi⟩)
    | ok i =>
      obtain ⟨hparam, hi⟩ := (paramIndex_eq_ok_iff value rest).mp hindex
      dsimp only
      by_cases htaken : (slots[i]?.join).isSome = true
      · rw [if_pos htaken]
        refine ⟨fun hall ↦ ?_, perm_unplaced hplaced⟩
        obtain ⟨v, hv⟩ := Option.isSome_iff_exists.mp htaken
        obtain ⟨j, hj, -⟩ := (hplaced.holds i v).mp (Option.join_eq_some_iff.mp hv)
        have hlt := lt_of_paramOf hj
        exact absurd (hall.apart j done.length i (by rwa [paramOf_append hlt]) hparam) (Nat.ne_of_lt hlt)
      · have hempty : slots[i]? = some none := by
          obtain ⟨slot, hslot⟩ : ∃ slot, slots[i]? = some slot := ⟨_, List.getElem?_eq_getElem (hplaced.length ▸ hi)⟩
          rw [hslot] at htaken ⊢
          cases slot with
          | none => rfl
          | some v => exact absurd rfl htaken
        have hparam' : paramOf names (done ++ [(name, value)]) done.length = some i := by
          rw [paramOf_length] at hparam ⊢
          exact hparam
        have hcount : (if name.isNone then (done.countP fun a ↦ a.1.isNone) + 1 else done.countP fun a ↦ a.1.isNone) =
            (done ++ [(name, value)]).countP fun a ↦ a.1.isNone := by
          rw [List.countP_append, List.countP_singleton]
          cases name <;> rfl
        have hnext := ih (h.snoc hplaced hempty hi hparam') (hplaced.snoc hempty hparam')
        rw [if_neg htaken, hcount]
        rwa [List.append_assoc, List.singleton_append] at hnext

end

theorem orderArgs_cases (member : String) (names : List String) (args : ArgValues) :
    match orderArgs member names args with
    | .ok slots => Placeable names args ∧ Placed names args slots
    | .error (_, values) => ¬ Placeable names args ∧ values.Perm (args.map Prod.snd) := by
  have hnothing : Placeable names [] := ⟨fun j hj ↦ absurd hj (Nat.not_lt_zero j), fun j _ _ hj _ ↦
    absurd (lt_of_paramOf hj) (Nat.not_lt_zero j)⟩
  exact placeArgs_cases hnothing (.nil names)

theorem orderArgs_eq_ok {member : String} {names : List String} {args : ArgValues} {slots : List (Option Ref)}
    (h : orderArgs member names args = .ok slots) : Placeable names args ∧ Placed names args slots := by
  have hplaced := orderArgs_cases member names args
  rwa [h] at hplaced

theorem exists_orderArgs_iff (member : String) (names : List String) (args : ArgValues) :
    (∃ slots, orderArgs member names args = .ok slots) ↔ Placeable names args := by
  refine ⟨fun ⟨_, h⟩ ↦ (orderArgs_eq_ok h).1, fun hall ↦ ?_⟩
  cases h : orderArgs member names args with
  | ok slots => exact ⟨slots, rfl⟩
  | error e =>
    have hrefused := orderArgs_cases member names args
    rw [h] at hrefused
    exact absurd hall hrefused.1

end MindScript
