import Mathlib.Data.Finset.Card
import Mathlib.Logic.Relation
import MindScript.Machine.Lifecycle
import MindScript.Proofs.Scheduler.Slab

/-!
# Searching for a frame that waits

A frame may not wait for one that waits for it.  The search that finds this out expands every frame of the
Mind at most once, so its bound is never reached, and it finds exactly the frames that can be reached.
-/

namespace MindScript.World

open Relation

variable {w : World} {m : MindId} {target : FrameId} {seen : Std.HashSet FrameId} {todo : List FrameId}

/-- The second frame is one of those that the first, which is not finished, waits for. -/
def Awaits (w : World) (m : MindId) (a b : FrameId) : Prop := ∃ next, w.waitsFor m a = some next ∧ b ∈ next

/-- A frame that the search has dealt with: it has been expanded, or there is nothing to expand. -/
def Spent (w : World) (m : MindId) (target : FrameId) (seen : Std.HashSet FrameId) (k : FrameId) : Prop :=
  seen.contains k = true ∨ k ≠ target ∧ w.waitsFor m k = none

/-- What lies behind expanded frames has been dealt with, or is still to come. -/
structure Explored (w : World) (m : MindId) (target : FrameId) (seen : Std.HashSet FrameId)
    (todo : List FrameId) : Prop where
  missed : seen.contains target = false
  next : ∀ k b, seen.contains k = true → w.Awaits m k b → b ∈ todo ∨ w.Spent m target seen b

/-- A path to the target that starts at a frame dealt with passes through one still to come. -/
theorem Explored.exists_todo (h : w.Explored m target seen todo) {k : FrameId}
    (hk : k ∈ todo ∨ w.Spent m target seen k) (hpath : ReflTransGen (w.Awaits m) k target) :
    ∃ b ∈ todo, ReflTransGen (w.Awaits m) b target := by
  induction hpath using ReflTransGen.head_induction_on with
  | refl =>
    rcases hk with hk | hseen | ⟨hne, -⟩
    · exact ⟨target, hk, .refl⟩
    · rw [h.missed] at hseen
      exact absurd hseen Bool.false_ne_true
    · exact absurd rfl hne
  | head hstep hrest ih =>
    rcases hk with hk | hseen | ⟨-, hnone⟩
    · exact ⟨_, hk, .head hstep hrest⟩
    · exact ih (h.next _ _ hseen hstep)
    · obtain ⟨next, hnext, -⟩ := hstep
      simp [hnone] at hnext

/-! ### One expansion -/

/-- What one round of the search comes to.  It skips what it has dealt with; then it finds the target, comes to
the end, or expands a frame. -/
inductive Searched (w : World) (m : MindId) (target : FrameId) (seen : Std.HashSet FrameId)
    (todo : List FrameId) : Bool × List FrameId × Std.HashSet FrameId → Prop where
  | found : target ∈ todo → Searched w m target seen todo (true, [], seen)
  | ended : (∀ k ∈ todo, w.Spent m target seen k) → Searched w m target seen todo (false, [], seen)
  | expanded {skipped rest next : List FrameId} {id : FrameId} : todo = skipped ++ id :: rest →
      (∀ k ∈ skipped, w.Spent m target seen k) → id ≠ target → seen.contains id = false →
      w.waitsFor m id = some next → Searched w m target seen todo (false, next ++ rest, seen.insert id)

theorem Searched.skip {r : Bool × List FrameId × Std.HashSet FrameId} (h : w.Searched m target seen todo r)
    {id : FrameId} (hid : w.Spent m target seen id) : w.Searched m target seen (id :: todo) r := by
  cases h with
  | found hmem => exact .found (List.mem_cons_of_mem id hmem)
  | ended hall => exact .ended (List.forall_mem_cons.mpr ⟨hid, hall⟩)
  | @expanded skipped rest next k htodo hskipped hk hseen hnext =>
    refine .expanded (by rw [htodo, List.cons_append]) ?_ hk hseen hnext
    exact List.forall_mem_cons.mpr ⟨hid, hskipped⟩

theorem searched_searchStep (w : World) (m : MindId) (target : FrameId) (seen : Std.HashSet FrameId)
    (todo : List FrameId) : w.Searched m target seen todo (w.searchStep m target seen todo) := by
  induction todo with
  | nil => exact .ended (by simp)
  | cons id rest ih =>
    unfold searchStep
    split
    · next hid => exact .found (hid ▸ List.mem_cons_self)
    · next hid =>
      split
      · next hseen => exact ih.skip (.inl hseen)
      · next hseen =>
        cases hnext : w.waitsFor m id with
        | none => exact ih.skip (.inr ⟨hid, hnext⟩)
        | some next =>
          have hnil : ∀ k ∈ ([] : List FrameId), w.Spent m target seen k := by simp
          exact .expanded (List.nil_append _).symm hnil hid (Bool.eq_false_iff.mpr hseen) hnext

theorem Spent.insert {k : FrameId} (h : w.Spent m target seen k) (id : FrameId) :
    w.Spent m target (seen.insert id) k := by
  rcases h with hseen | hdead
  · exact .inl (by simp [Std.HashSet.contains_insert, hseen])
  · exact .inr hdead

theorem Explored.expand {skipped rest next : List FrameId} {id : FrameId}
    (h : w.Explored m target seen (skipped ++ id :: rest)) (hskipped : ∀ k ∈ skipped, w.Spent m target seen k)
    (hid : id ≠ target) (hnext : w.waitsFor m id = some next) :
    w.Explored m target (seen.insert id) (next ++ rest) := by
  refine ⟨by simp [Std.HashSet.contains_insert, hid, h.missed], fun k b hk hb ↦ ?_⟩
  rw [Std.HashSet.contains_insert, Bool.or_eq_true, beq_iff_eq] at hk
  rcases hk with rfl | hk
  · obtain ⟨next', hnext', hmem⟩ := hb
    obtain rfl := Option.some.inj (hnext.symm.trans hnext')
    exact .inl (List.mem_append_left rest hmem)
  · rcases h.next k b hk hb with hmem | hspent
    · rcases List.mem_append.mp hmem with hmem | hmem
      · exact .inr ((hskipped b hmem).insert id)
      · rcases List.mem_cons.mp hmem with rfl | hmem
        · exact .inr (.inl (by simp))
        · exact .inl (List.mem_append_right next hmem)
    · exact .inr (hspent.insert id)

/-! ### The whole search -/

/-- The identity under which a slot would be found. -/
def slotId (w : World) (m : MindId) (i : Nat) : FrameId :=
  ⟨i, (((w.mind? m).bind fun mind ↦ mind.slots[i]?).map FrameSlot.generation).getD 0⟩

/-- The number of slots of a Mind that the search has not expanded. -/
def unseenSlots (w : World) (m : MindId) (seen : Std.HashSet FrameId) : Nat :=
  ((Finset.range (w.slotCount m)).filter fun i ↦ seen.contains (w.slotId m i) = false).card

theorem slotId_of_waitsFor {id : FrameId} {next : List FrameId} (h : w.waitsFor m id = some next) :
    id.index < w.slotCount m ∧ w.slotId m id.index = id := by
  unfold waitsFor at h
  cases he : w.entryAt m id with
  | none => simp [he] at h
  | some e =>
    obtain ⟨mind, hmind, he⟩ := Option.bind_eq_some_iff.mp he
    have hslot := Mind.entryAt_eq_some_iff.mp he
    refine ⟨?_, by simp [slotId, hmind, hslot]⟩
    rw [slotCount, hmind, Option.map_some, Option.getD_some]
    exact (Array.getElem?_eq_some_iff.mp hslot).1

theorem unseenSlots_insert {id : FrameId} {next : List FrameId} (h : w.waitsFor m id = some next)
    (hseen : seen.contains id = false) : w.unseenSlots m (seen.insert id) < w.unseenSlots m seen := by
  obtain ⟨hlt, hid⟩ := slotId_of_waitsFor h
  refine Finset.card_lt_card (Finset.ssubset_iff_of_subset ?_ |>.mpr ⟨id.index, ?_, ?_⟩)
  · intro i hi
    simp only [Finset.mem_filter, Std.HashSet.contains_insert, Bool.or_eq_false_iff] at hi ⊢
    exact ⟨hi.1, hi.2.2⟩
  · rw [Finset.mem_filter, Finset.mem_range, hid]
    exact ⟨hlt, hseen⟩
  · simp [hid]

theorem reachesWithin_iff {n : Nat} (h : w.Explored m target seen todo) (hn : w.unseenSlots m seen < n) :
    reachesWithin n w m target seen todo = true ↔ ∃ k ∈ todo, ReflTransGen (w.Awaits m) k target := by
  induction n generalizing seen todo with
  | zero => exact absurd hn (Nat.not_lt_zero _)
  | succ n ih =>
    unfold reachesWithin
    have hstep := searched_searchStep w m target seen todo
    generalize w.searchStep m target seen todo = r at hstep ⊢
    cases hstep with
    | found hmem => exact iff_of_true rfl ⟨target, hmem, .refl⟩
    | ended hall =>
      refine iff_of_false Bool.false_ne_true ?_
      rintro ⟨k, hk, hpath⟩
      -- Everything has been dealt with, and no path leads out of that.
      have hdone : w.Explored m target seen [] := by
        refine ⟨h.missed, fun a b ha hb ↦ .inr ?_⟩
        rcases h.next a b ha hb with hmem | hspent
        · exact hall b hmem
        · exact hspent
      obtain ⟨b, hb, -⟩ := hdone.exists_todo (.inr (hall k hk)) hpath
      exact absurd hb List.not_mem_nil
    | @expanded skipped rest next id htodo hskipped hid hseen hnext =>
      subst htodo
      have hexp := h.expand hskipped hid hnext
      have hpaths : (∃ k ∈ next ++ rest, ReflTransGen (w.Awaits m) k target) ↔
          ∃ k ∈ skipped ++ id :: rest, ReflTransGen (w.Awaits m) k target := by
        constructor
        · rintro ⟨k, hk, hpath⟩
          rcases List.mem_append.mp hk with hk | hk
          · exact ⟨id, by simp, .head ⟨next, hnext, hk⟩ hpath⟩
          · exact ⟨k, by simp [hk], hpath⟩
        · rintro ⟨k, hk, hpath⟩
          refine hexp.exists_todo ?_ hpath
          rcases List.mem_append.mp hk with hk | hk
          · exact .inr ((hskipped k hk).insert id)
          · rcases List.mem_cons.mp hk with rfl | hk
            · exact .inr (.inl (by simp))
            · exact .inl (List.mem_append_right next hk)
      have hless := unseenSlots_insert hnext hseen
      have hiff := ih hexp (by omega)
      rw [← hpaths]
      cases htodo : next ++ rest with
      | nil => simp
      | cons k ks =>
        rw [htodo] at hiff
        exact hiff

/-- The search finds out whether one frame waits for another, directly or through others. -/
theorem waitsOn_iff (w : World) (m : MindId) (start target : FrameId) :
    w.waitsOn m start target = true ↔ ReflTransGen (w.Awaits m) start target := by
  have hunseen : w.unseenSlots m {} ≤ w.slotCount m :=
    (Finset.card_filter_le _ _).trans (Finset.card_range _).le
  rw [waitsOn, reachesWithin_iff ⟨by simp, by simp⟩ (Nat.lt_succ_of_le hunseen)]
  simp

/-- What a frame waits for lies within any list that is closed, and the target may lie outside. -/
theorem waitsOn_eq_false {start : FrameId} (l : List FrameId) (hstart : start ∈ l) (htarget : target ∉ l)
    (hclosed : (l.all fun a ↦ ((w.waitsFor m a).getD []).all l.contains) = true) : w.waitsOn m start target = false := by
  rw [Bool.eq_false_iff, Ne, waitsOn_iff]
  intro hpath
  have hstays : ∀ b, ReflTransGen (w.Awaits m) start b → b ∈ l := by
    intro b hb
    induction hb with
    | refl => exact hstart
    | tail _ hstep ih =>
      obtain ⟨next, hnext, hmem⟩ := hstep
      have hall := List.all_eq_true.mp hclosed _ ih
      rw [hnext, Option.getD_some, List.all_eq_true] at hall
      simpa using hall _ hmem
  exact htarget (hstays _ hpath)

end MindScript.World
