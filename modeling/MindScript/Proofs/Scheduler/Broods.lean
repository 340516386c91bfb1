import Mathlib.Logic.Relation
import MindScript.Proofs.Scheduler.Finish

/-!
# Broods

Who stops together with a frame.  Stopping goes from a frame to its children and further down, but not through a
frame that is running: that one is only told to stop.  Which frames settle, in which order, and which ones are told
is a matter of the cards before anything is stopped, and this module describes it without stopping anybody.
-/

namespace MindScript.World

/-- One frame is a child of another. -/
def IsChild (w : World) (m : MindId) (p k : FrameId) : Prop := ∃ c, w.card m p = some c ∧ k ∈ c.children

/-- A frame is in the middle of a step. -/
def Runs (w : World) (m : MindId) (k : FrameId) : Prop :=
  ∃ c, w.card m k = some c ∧ c.status = .running ∧ c.frame = none

/-- A frame is unfinished, and not in the middle of a step. -/
def Rests (w : World) (m : MindId) (k : FrameId) : Prop :=
  ∃ c, w.card m k = some c ∧ c.isFinished = false ∧ c.frame.isSome = true

/-- Stopping goes on from a frame to a child of it. -/
def Reaches (w : World) (m : MindId) (p k : FrameId) : Prop := w.IsChild m p k ∧ w.Rests m k

/-- A frame is another one or is below it. -/
abbrev Under (w : World) (m : MindId) : FrameId → FrameId → Prop := Relation.ReflTransGen (w.IsChild m)

/-- What it comes to when frames are stopped in turn: who settles, in that order, and who is told to stop. -/
inductive Falls (w : World) (m : MindId) : List FrameId → List FrameId → List FrameId → Prop where
  | nil : Falls w m [] [] []
  | told {k : FrameId} {c : Card} {ks order told : List FrameId} : w.card m k = some c → c.status = .running →
      c.frame = none → Falls w m ks order told → Falls w m (k :: ks) order (k :: told)
  | settled {k : FrameId} {c : Card} {ks below under order told : List FrameId} : w.card m k = some c →
      c.isFinished = false → c.frame.isSome = true → Falls w m c.children.toList below under →
      Falls w m ks order told → Falls w m (k :: ks) (below ++ k :: order) (under ++ told)

variable {X : Set FrameKey} {stack : List FrameKey} {w : World} {m : MindId}

theorem Rests.not_runs {k : FrameId} (h : w.Rests m k) : ¬ w.Runs m k := by
  obtain ⟨c, hc, -, hframe⟩ := h
  rintro ⟨c', hc', -, hnone⟩
  obtain rfl := Option.some.inj (hc.symm.trans hc')
  simp [hnone] at hframe

/-- Frames of which a certain number of generations is left. -/
theorem exists_falls (h : Sound X stack w) (n : Nat) (ks : List FrameId) (hks : ∀ k ∈ ks, ∃ c, w.card m k = some c ∧
    c.isFinished = false ∧ w.heap.outcomes.size ≤ c.age + n) : ∃ order told, Falls w m ks order told := by
  induction n generalizing ks with
  | zero =>
    cases ks with
    | nil => exact ⟨[], [], .nil⟩
    | cons k rest =>
      obtain ⟨c, hc, -, hsize⟩ := hks k List.mem_cons_self
      have hlt := index_of_cell? (Option.isSome_iff_exists.mpr ⟨_, cell_of_card hc⟩)
      exact absurd hsize (Nat.not_le_of_lt hlt)
  | succ n ih =>
    induction ks with
    | nil => exact ⟨[], [], .nil⟩
    | cons k rest ihrest =>
      obtain ⟨c, hc, hu, hsize⟩ := hks k List.mem_cons_self
      obtain ⟨order, told, hrest⟩ := ihrest fun j hj ↦ hks j (List.mem_cons_of_mem k hj)
      cases hframe : c.frame with
      | none => exact ⟨_, _, .told hc ((h.fits m k c hc).framed hu hframe).1 hframe hrest⟩
      | some frame =>
        obtain ⟨below, under, hbelow⟩ := ih c.children.toList fun j hj ↦ by
          obtain ⟨b, hb, hub, -, hage⟩ := h.child m k c j hc (Array.mem_toList_iff.mp hj)
          exact ⟨b, hb, hub, by omega⟩
        exact ⟨_, _, .settled hc hu (by rw [hframe, Option.isSome_some]) hbelow hrest⟩

namespace Falls

variable {ks order told : List FrameId}

theorem rests_of_mem (h : Falls w m ks order told) {k : FrameId} (hk : k ∈ order) : w.Rests m k := by
  induction h with
  | nil => exact absurd hk List.not_mem_nil
  | told hc hrun hframe _ ih => exact ih hk
  | settled hc hu hframe _ _ ihbelow ih =>
    rcases List.mem_append.mp hk with hk | hk
    · exact ihbelow hk
    · rcases List.mem_cons.mp hk with rfl | hk
      · exact ⟨_, hc, hu, hframe⟩
      · exact ih hk

/-- Everyone settles who is reached without passing through a running frame. -/
theorem mem_order_iff (h : Falls w m ks order told) {k : FrameId} :
    k ∈ order ↔ ∃ a ∈ ks, w.Rests m a ∧ Relation.ReflTransGen (w.Reaches m) a k := by
  induction h with
  | nil => simp
  | @told a c ks order told hc hrun hframe _ ih =>
    have hnot : ¬ w.Rests m a := fun hrests ↦ hrests.not_runs ⟨c, hc, hrun, hframe⟩
    rw [ih]
    constructor
    · rintro ⟨b, hb, hreach⟩
      exact ⟨b, List.mem_cons_of_mem a hb, hreach⟩
    · rintro ⟨b, hb, hrests, hreach⟩
      rcases List.mem_cons.mp hb with rfl | hb
      · exact absurd hrests hnot
      · exact ⟨b, hb, hrests, hreach⟩
  | @settled a c ks below under order told hc hu hframe _ _ ihbelow ih =>
    have hself : w.Rests m a := ⟨c, hc, hu, hframe⟩
    rw [List.mem_append, List.mem_cons, ihbelow, ih]
    constructor
    · rintro (⟨b, hb, hrests, hreach⟩ | rfl | ⟨b, hb, hreach⟩)
      · have hstep : w.Reaches m a b := ⟨⟨c, hc, Array.mem_toList_iff.mp hb⟩, hrests⟩
        exact ⟨a, List.mem_cons_self, hself, .head hstep hreach⟩
      · exact ⟨k, List.mem_cons_self, hself, .refl⟩
      · exact ⟨b, List.mem_cons_of_mem a hb, hreach⟩
    · rintro ⟨b, hb, hrests, hreach⟩
      rcases List.mem_cons.mp hb with rfl | hb
      · rcases Relation.ReflTransGen.cases_head hreach with rfl | ⟨j, ⟨⟨c', hc', hj⟩, hjrests⟩, hreach⟩
        · exact .inr (.inl rfl)
        · obtain rfl := Option.some.inj (hc.symm.trans hc')
          exact .inl ⟨j, Array.mem_toList_iff.mpr hj, hjrests, hreach⟩
      · exact .inr (.inr ⟨b, hb, hrests, hreach⟩)

/-- Those are told who run at the edge of what settles. -/
theorem mem_told_iff (h : Falls w m ks order told) {k : FrameId} :
    k ∈ told ↔ w.Runs m k ∧ (k ∈ ks ∨ ∃ p ∈ order, w.IsChild m p k) := by
  induction h with
  | nil => simp
  | @told a c ks order told hc hrun hframe _ ih =>
    rw [List.mem_cons, ih, List.mem_cons]
    constructor
    · rintro (rfl | ⟨hruns, hk⟩)
      · exact ⟨⟨c, hc, hrun, hframe⟩, .inl (.inl rfl)⟩
      · exact ⟨hruns, hk.imp_left .inr⟩
    · rintro ⟨hruns, (rfl | hk) | hk⟩
      · exact .inl rfl
      · exact .inr ⟨hruns, .inl hk⟩
      · exact .inr ⟨hruns, .inr hk⟩
  | @settled a c ks below under order told hc hu hframe _ _ ihbelow ih =>
    rw [List.mem_append, ihbelow, ih]
    constructor
    · rintro (⟨hruns, hk | ⟨p, hp, hchild⟩⟩ | ⟨hruns, hk | ⟨p, hp, hchild⟩⟩)
      · exact ⟨hruns, .inr ⟨a, by simp, c, hc, Array.mem_toList_iff.mp hk⟩⟩
      · exact ⟨hruns, .inr ⟨p, by simp [hp], hchild⟩⟩
      · exact ⟨hruns, .inl (List.mem_cons_of_mem a hk)⟩
      · exact ⟨hruns, .inr ⟨p, by simp [hp], hchild⟩⟩
    · rintro ⟨hruns, hk | ⟨p, hp, hchild⟩⟩
      · rcases List.mem_cons.mp hk with rfl | hk
        · exact absurd hruns (Rests.not_runs ⟨c, hc, hu, hframe⟩)
        · exact .inr ⟨hruns, .inl hk⟩
      · rcases List.mem_append.mp hp with hp | hp
        · exact .inl ⟨hruns, .inr ⟨p, hp, hchild⟩⟩
        · rcases List.mem_cons.mp hp with rfl | hp
          · obtain ⟨c', hc', hk⟩ := hchild
            obtain rfl := Option.some.inj (hc.symm.trans hc')
            exact .inl ⟨hruns, .inl (Array.mem_toList_iff.mpr hk)⟩
          · exact .inr ⟨hruns, .inr ⟨p, hp, hchild⟩⟩

theorem under_of_mem (h : Falls w m ks order told) {k : FrameId} (hk : k ∈ order ∨ k ∈ told) :
    ∃ a ∈ ks, w.Under m a k := by
  have horder : ∀ p ∈ order, ∃ a ∈ ks, w.Under m a p := by
    intro p hp
    obtain ⟨a, ha, -, hreach⟩ := h.mem_order_iff.mp hp
    exact ⟨a, ha, Relation.ReflTransGen.mono (fun _ _ hstep ↦ hstep.1) _ _ hreach⟩
  rcases hk with hk | hk
  · exact horder k hk
  · obtain ⟨-, hk | ⟨p, hp, hchild⟩⟩ := h.mem_told_iff.mp hk
    · exact ⟨k, hk, .refl⟩
    · obtain ⟨a, ha, hunder⟩ := horder p hp
      exact ⟨a, ha, hunder.tail hchild⟩

/-! ### The order -/

/-- Frames stopped in turn settle in turn. -/
theorem sublist_order (h : Falls w m ks order told) {sub : List FrameId} (hsub : sub.Sublist ks)
    (hrests : ∀ k ∈ sub, w.Rests m k) : sub.Sublist order := by
  induction h generalizing sub with
  | nil => exact hsub
  | @told a c ks order told hc hrun hframe _ ih =>
    rcases List.sublist_cons_iff.mp hsub with hsub | ⟨rest, rfl, -⟩
    · exact ih hsub hrests
    · exact absurd ⟨c, hc, hrun, hframe⟩ (hrests a List.mem_cons_self).not_runs
  | @settled a c ks below under order told hc hu hframe _ _ _ ih =>
    rcases List.sublist_cons_iff.mp hsub with hsub | ⟨rest, rfl, hrest⟩
    · exact ((ih hsub hrests).trans (List.sublist_cons_self a order)).trans (List.sublist_append_right _ _)
    · have hrest := ih hrest fun k hk ↦ hrests k (List.mem_cons_of_mem a hk)
      exact (hrest.cons_cons a).trans (List.sublist_append_right _ _)

/-- A frame settles after its children. -/
theorem sublist_of_mem (h : Falls w m ks order told) {p : FrameId} (hp : p ∈ order) {c : Card}
    (hc : w.card m p = some c) {sub : List FrameId} (hsub : sub.Sublist c.children.toList)
    (hrests : ∀ k ∈ sub, w.Rests m k) : (sub ++ [p]).Sublist order := by
  induction h with
  | nil => exact absurd hp List.not_mem_nil
  | told _ _ _ _ ih => exact ih hp
  | @settled a c' ks below under order told hc' hu hframe hbelow _ ihbelow ih =>
    rcases List.mem_append.mp hp with hp | hp
    · exact (ihbelow hp).trans (List.sublist_append_left _ _)
    · rcases List.mem_cons.mp hp with rfl | hp
      · obtain rfl := Option.some.inj (hc.symm.trans hc')
        exact (hbelow.sublist_order hsub hrests).append ((List.nil_sublist order).cons_cons p)
      · exact ((ih hp).trans (List.sublist_cons_self a order)).trans (List.sublist_append_right _ _)

end Falls

/-! ### Broods are apart -/

/-- Nobody is below two of the frames. -/
def Apart (w : World) (m : MindId) (ks : List FrameId) : Prop :=
  ks.Pairwise fun a b ↦ ∀ k, w.Under m a k → ¬ w.Under m b k

theorem age_le_of_under (h : Sound X stack w) {a k : FrameId} (hunder : w.Under m a k) {c : Card}
    (hc : w.card m a = some c) : ∃ b, w.card m k = some b ∧ (k ≠ a → c.age < b.age) := by
  induction hunder with
  | refl => exact ⟨c, hc, fun hne ↦ absurd rfl hne⟩
  | @tail j k _ hchild ih =>
    obtain ⟨b, hb, hage⟩ := ih
    obtain ⟨b', hb', hk⟩ := hchild
    obtain rfl := Option.some.inj (hb.symm.trans hb')
    obtain ⟨d, hd, -, -, hlt⟩ := h.child m j b k hb hk
    refine ⟨d, hd, fun _ ↦ ?_⟩
    by_cases hj : j = a
    · subst hj
      obtain rfl := Option.some.inj (hc.symm.trans hb)
      exact hlt
    · exact (hage hj).trans hlt

/-- Nobody is below a child of theirs. -/
theorem not_under_of_isChild (h : Sound X stack w) {p k : FrameId} (hchild : w.IsChild m p k) :
    ¬ w.Under m k p := by
  intro hunder
  obtain ⟨c, hc, hk⟩ := hchild
  obtain ⟨b, hb, -, -, hlt⟩ := h.child m p c k hc hk
  obtain ⟨c', hc', hle⟩ := age_le_of_under h hunder hb
  obtain rfl := Option.some.inj (hc.symm.trans hc')
  by_cases hpk : p = k
  · subst hpk
    obtain rfl := Option.some.inj (hc.symm.trans hb)
    exact Nat.lt_irrefl _ hlt
  · exact Nat.lt_irrefl _ (hlt.trans (hle hpk))

theorem parent_unique (h : Sound X stack w) {p p' k : FrameId} (hchild : w.IsChild m p k)
    (hchild' : w.IsChild m p' k) : p = p' := by
  obtain ⟨c, hc, hk⟩ := hchild
  obtain ⟨c', hc', hk'⟩ := hchild'
  obtain ⟨b, hb, -, hp, -⟩ := h.child m p c k hc hk
  obtain ⟨b', hb', -, hp', -⟩ := h.child m p' c' k hc' hk'
  obtain rfl := Option.some.inj (hb.symm.trans hb')
  exact Option.some.inj (hp.symm.trans hp')

/-- Of two frames above a third, one is above the other. -/
theorem under_total (h : Sound X stack w) {a b k : FrameId} (ha : w.Under m a k) (hb : w.Under m b k) :
    w.Under m a b ∨ w.Under m b a := by
  have hunique : Relator.RightUnique (Function.swap (w.IsChild m)) := fun _ _ _ hp hp' ↦ parent_unique h hp hp'
  have htotal := Relation.ReflTransGen.total_of_right_unique hunique
    (Relation.reflTransGen_swap.mpr ha) (Relation.reflTransGen_swap.mpr hb)
  exact htotal.symm.imp Relation.reflTransGen_swap.mp Relation.reflTransGen_swap.mp

/-- The children of a frame have nobody in common below them. -/
theorem apart_children (h : Sound X stack w) {p : FrameId} {c : Card} (hc : w.card m p = some c) :
    Apart w m c.children.toList := by
  have hbelow : ∀ a b, a ∈ c.children → b ∈ c.children → a ≠ b → ¬ w.Under m a b := by
    intro a b ha hb hne hunder
    rcases Relation.ReflTransGen.cases_tail hunder with heq | ⟨j, hunder, hchild⟩
    · exact hne heq.symm
    · obtain rfl := parent_unique h ⟨c, hc, hb⟩ hchild
      exact not_under_of_isChild h ⟨c, hc, ha⟩ hunder
  refine (h.once m p c hc).imp_of_mem fun {a b} ha hb hne k hka hkb ↦ ?_
  rw [Array.mem_toList_iff] at ha hb
  rcases under_total h hka hkb with hunder | hunder
  · exact hbelow a b ha hb hne hunder
  · exact hbelow b a hb ha hne.symm hunder

/-- Nobody settles twice. -/
theorem Falls.nodup {ks order told : List FrameId} (hf : Falls w m ks order told) (h : Sound X stack w)
    (hapart : Apart w m ks) : order.Nodup := by
  induction hf with
  | nil => exact List.nodup_nil
  | told _ _ _ _ ih => exact ih (List.pairwise_cons.mp hapart).2
  | @settled a c ks below under order told hc hu hframe hbelow hrest ihbelow ih =>
    obtain ⟨hfirst, hapart⟩ := List.pairwise_cons.mp hapart
    have hmine : ∀ k ∈ below, ∃ j, w.IsChild m a j ∧ w.Under m j k := by
      intro k hk
      obtain ⟨j, hj, hunder⟩ := hbelow.under_of_mem (.inl hk)
      exact ⟨j, ⟨c, hc, Array.mem_toList_iff.mp hj⟩, hunder⟩
    have hother : ∀ k ∈ order, ¬ w.Under m a k := by
      intro k hk hak
      obtain ⟨b, hb, hbk⟩ := hrest.under_of_mem (.inl hk)
      exact hfirst b hb k hak hbk
    refine List.nodup_append.mpr ⟨ihbelow (apart_children h hc), List.nodup_cons.mpr ⟨?_, ih hapart⟩, ?_⟩
    · exact fun hmem ↦ hother a hmem .refl
    · rintro k hk _ hj rfl
      obtain ⟨j, hchild, hunder⟩ := hmine k hk
      rcases List.mem_cons.mp hj with rfl | hj
      · exact not_under_of_isChild h hchild hunder
      · exact hother k hj (.head hchild hunder)

/-! ### The brood of a frame -/

/-- The frames that settle before a frame does, in that order, and those that are told to stop.  The former are reached
through children without passing through a running frame, and the latter run at the edge; everyone settles after their
children, and children settle in the order in which their parent has them. -/
structure Brood (w : World) (m : MindId) (f : FrameId) (order told : List FrameId) : Prop where
  reached : ∀ k, k ∈ order ↔ Relation.TransGen (w.Reaches m) f k
  edge : ∀ k, k ∈ told ↔ w.Runs m k ∧ ∃ p ∈ order ++ [f], w.IsChild m p k
  once : (order ++ [f]).Nodup
  turns : ∀ p ∈ order ++ [f], ∀ c, w.card m p = some c →
    (c.children.toList.filter (· ∈ order) ++ [p]).Sublist (order ++ [f])

variable {f : FrameId} {c : Card} {order told : List FrameId}

theorem Falls.below_of_mem (hf : Falls w m c.children.toList order told) (hc : w.card m f = some c) {k : FrameId}
    (hk : k ∈ order ∨ k ∈ told) : ∃ a, w.IsChild m f a ∧ w.Under m a k := by
  obtain ⟨a, ha, hak⟩ := hf.under_of_mem hk
  exact ⟨a, ⟨c, hc, Array.mem_toList_iff.mp ha⟩, hak⟩

/-- The frame is not among them, nor is its parent. -/
theorem Falls.apart_from (hf : Falls w m c.children.toList order told) (h : Sound X stack w)
    (hc : w.card m f = some c) {k : FrameId} (hk : k ∈ order ∨ k ∈ told) : k ≠ f ∧ ¬ w.IsChild m k f := by
  obtain ⟨a, hchild, hak⟩ := hf.below_of_mem hc hk
  constructor
  · rintro rfl
    exact not_under_of_isChild h hchild hak
  · intro hparent
    exact not_under_of_isChild h hparent (.head hchild hak)

theorem Falls.brood (hf : Falls w m c.children.toList order told) (h : Sound X stack w)
    (hc : w.card m f = some c) : Brood w m f order told := by
  have hchildren : ∀ k, k ∈ c.children.toList ↔ w.IsChild m f k := by
    intro k
    rw [Array.mem_toList_iff]
    constructor
    · exact fun hk ↦ ⟨c, hc, hk⟩
    · rintro ⟨c', hc', hk⟩
      obtain rfl := Option.some.inj (hc.symm.trans hc')
      exact hk
  refine ⟨fun k ↦ ?_, fun k ↦ ?_, ?_, fun p hp b hb ↦ ?_⟩
  · rw [hf.mem_order_iff, Relation.TransGen.head'_iff]
    simp only [Reaches, hchildren, and_assoc]
  · rw [hf.mem_told_iff, hchildren]
    simp only [List.mem_append, List.mem_singleton]
    constructor
    · rintro ⟨hruns, hk | ⟨p, hp, hk⟩⟩
      · exact ⟨hruns, f, .inr rfl, hk⟩
      · exact ⟨hruns, p, .inl hp, hk⟩
    · rintro ⟨hruns, p, hp | rfl, hk⟩
      · exact ⟨hruns, .inr ⟨p, hp, hk⟩⟩
      · exact ⟨hruns, .inl hk⟩
  · refine List.nodup_append.mpr ⟨hf.nodup h (apart_children h hc), List.pairwise_singleton _ f, ?_⟩
    rintro k hk _ hj rfl
    exact (hf.apart_from h hc (.inl hk)).1 (List.mem_singleton.mp hj)
  · have hrests : ∀ k ∈ b.children.toList.filter (· ∈ order), w.Rests m k := fun k hk ↦
      hf.rests_of_mem (by simpa using (List.mem_filter.mp hk).2)
    rcases List.mem_append.mp hp with hp | hp
    · exact (hf.sublist_of_mem hp hb List.filter_sublist hrests).trans (List.sublist_append_left _ _)
    · obtain rfl := List.mem_singleton.mp hp
      obtain rfl := Option.some.inj (hc.symm.trans hb)
      exact (hf.sublist_order List.filter_sublist hrests).append (.refl _)

end MindScript.World
