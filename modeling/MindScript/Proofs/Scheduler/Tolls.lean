import Mathlib.Data.List.Forall2
import Mathlib.Data.List.Nodup
import MindScript.Proofs.Scheduler.Mishaps

/-!
# The notes of a Mind are its last failures

Along a run the frames of a Mind fail one after the other.  What the Mind has noted of them since its host last took the notes
are the records of the last ones, in that order and one for each frame.
-/

namespace MindScript

open Machine

theorem exists_of_forall₂ {α β : Type} {R : α → β → Prop} {as : List α} {bs : List β} (h : List.Forall₂ R as bs) {a : α}
    (ha : a ∈ as) : ∃ b ∈ bs, R a b := by
  induction h with
  | nil => cases ha
  | @cons a' b as bs hab _ ih =>
    rcases List.mem_cons.mp ha with rfl | ha
    · exact ⟨b, List.mem_cons_self, hab⟩
    · obtain ⟨b', hb', hrel⟩ := ih ha
      exact ⟨b', List.mem_cons_of_mem b hb', hrel⟩

/-- What happens in an interpreter: an act, which leaves the notes alone if it does so with frames and outcomes, or a host
takes the notes of a Mind. -/
inductive Occurs : Moment → Moment → Prop where
  | act {M M' : Moment} : Act M M' → (M.world.Still M'.world → M.world.Silent M'.world) → Occurs M M'
  | take {s : List FrameKey} {w : World} (m : MindId) : Occurs ⟨s, w⟩ ⟨s, (w.takeFailures m).2⟩

/-- The frames of a Mind that have failed since its notes were last taken, in the order in which they did. -/
inductive Toll (m : MindId) : List Handle → Moment → Prop where
  | start (config : Config) : Toll m [] ⟨[], .new config⟩
  | act {l xs : List Handle} {M M' : Moment} : Toll m l M → Act M M' →
      (M.world.Still M'.world → M.world.Silent M'.world) → xs.Nodup →
      (∀ x, x ∈ xs ↔ World.Fails m x M.world M'.world) → Toll m (l ++ xs) M'
  | take {l : List Handle} {s : List FrameKey} {w : World} (m' : MindId) : Toll m l ⟨s, w⟩ →
      Toll m (if m' = m then [] else l) ⟨s, (w.takeFailures m').2⟩

variable {m : MindId} {l : List Handle} {M M' : Moment}

theorem act_takeFailures (s : List FrameKey) (w : World) (m : MindId) : Act ⟨s, w⟩ ⟨s, (w.takeFailures m).2⟩ :=
  .compute (World.still_modifyMind w m (fun _ ↦ rfl) fun _ ↦ rfl) (World.inward_modifyMind w m _).steady

theorem Occurs.toAct (h : Occurs M M') : Act M M' := by
  cases h with
  | act hact _ => exact hact
  | take m => exact act_takeFailures _ _ m

/-- An act in which nobody takes notes: it leaves them alone if it does so with frames and outcomes. -/
structure Untaken (M M' : Moment) : Prop where
  act : Act M M'
  silent : M.world.Still M'.world → M.world.Silent M'.world

theorem Untaken.occurs (h : Untaken M M') : Occurs M M' := .act h.act h.silent

namespace World

variable {w w' : World}

theorem failures_new (config : Config) (m : MindId) : (World.new config).failures m = [] := by
  unfold World.new
  dsimp only
  split
  · rfl
  · obtain ⟨_ | i⟩ := m <;> rfl

theorem failures_takeFailures_self (w : World) (m : MindId) : (w.takeFailures m).2.failures m = [] := by
  show ((w.modifyMind m fun mind ↦ { mind with failures := #[] }).mind? m |>.map _).getD [] = []
  rw [mind?_modifyMind, if_pos rfl]
  cases w.mind? m <;> rfl

theorem failures_takeFailures_of_ne (w : World) {m m' : MindId} (h : m' ≠ m) :
    (w.takeFailures m').2.failures m = w.failures m := by
  show ((w.modifyMind m' fun mind ↦ { mind with failures := #[] }).mind? m |>.map _).getD [] = _
  rw [mind?_modifyMind, if_neg h.symm]
  rfl

end World

/-- A record stays true. -/
theorem Moment.Valid.records (h : M.Valid) (hact : Act M M') {x : Handle} {r : FrameFailure}
    (hr : M.world.Records x r) : M'.world.Records x r :=
  ⟨hr.frame, hr.failed.later h (.single hact), hr.origin⟩

/-- Who fails in an act can be told, since at most one frame does. -/
theorem Untaken.exists_fails (h : Untaken M M') (hvalid : M.Valid) (m : MindId) :
    ∃ xs : List Handle, xs.Nodup ∧ ∀ x, x ∈ xs ↔ World.Fails m x M.world M'.world := by
  rcases hvalid.notes h.act h.silent with ⟨-, hnobody⟩ | ⟨m₀, x, r, hmishap⟩
  · exact ⟨[], .nil, fun y ↦ iff_of_false List.not_mem_nil (hnobody m y)⟩
  by_cases hm : m = m₀
  · subst hm
    refine ⟨[x], List.nodup_singleton x, fun y ↦ List.mem_singleton.trans ⟨?_, fun hy ↦ (hmishap.only m y hy).2⟩⟩
    rintro rfl
    exact hmishap.fails
  · exact ⟨[], .nil, fun y ↦ iff_of_false List.not_mem_nil fun hy ↦ hm (hmishap.only m y hy).1⟩

namespace Toll

theorem valid (h : Toll m l M) : M.Valid := by
  induction h with
  | start config => exact valid_new config
  | act _ hact _ _ _ ih => exact ih.act hact
  | take m' _ ih => exact ih.act (act_takeFailures _ _ m')

/-- Who has failed has, and has been noted. -/
theorem notes (h : Toll m l M) : l.Nodup ∧ ∃ rs, List.Forall₂ M.world.Records l rs ∧
    M.world.failures m = rs.rtake logLimit := by
  induction h with
  | start config => exact ⟨List.nodup_nil, [], .nil, World.failures_new config m⟩
  | @act l xs M M' h hact hstill hnodup hxs ih =>
    obtain ⟨hl, rs, hrs, hnoted⟩ := ih
    have hkept : List.Forall₂ M'.world.Records l rs := hrs.imp fun _ _ ↦ h.valid.records hact
    have hquiet : (∀ x, ¬ World.Fails m x M.world M'.world) → M'.world.failures m = M.world.failures m →
        (l ++ xs).Nodup ∧ ∃ rs, List.Forall₂ M'.world.Records (l ++ xs) rs ∧
          M'.world.failures m = rs.rtake logLimit := by
      intro hnobody hsame
      obtain rfl : xs = [] := List.eq_nil_iff_forall_not_mem.mpr fun x hx ↦ hnobody x ((hxs x).mp hx)
      rw [List.append_nil, hsame]
      exact ⟨hl, rs, hkept, hnoted⟩
    rcases h.valid.notes hact hstill with ⟨hsilent, hnobody⟩ | ⟨m₀, x, r, hmishap⟩
    · exact hquiet (hnobody m) (hsilent m)
    by_cases hm : m = m₀
    · subst hm
      -- The one that fails now was unfinished until now, so it has not failed before.
      have hnew : x ∉ l := by
        intro hx
        obtain ⟨r', -, hr'⟩ := exists_of_forall₂ hrs hx
        exact Bool.false_ne_true (hmishap.fails.unfinished.symm.trans hr'.failed.isFinished)
      obtain rfl : xs = [x] := by
        refine List.perm_singleton.mp ((List.perm_ext_iff_of_nodup hnodup (List.nodup_singleton x)).mpr fun y ↦ ?_)
        rw [hxs, List.mem_singleton]
        refine ⟨fun hy ↦ (hmishap.only m y hy).2, ?_⟩
        rintro rfl
        exact hmishap.fails
      refine ⟨hl.append (List.nodup_singleton x) (List.disjoint_singleton.mpr hnew), rs ++ [r],
        List.rel_append hkept (.cons hmishap.records .nil), ?_⟩
      have hsize : (M.world.failures m).length ≤ logLimit := by
        rw [hnoted, List.rtake, List.length_drop]
        omega
      rw [hmishap.failures hsize, hnoted, rtake_rtake_append]
    · exact hquiet (fun y hy ↦ hm (hmishap.only m y hy).1) (hmishap.others m hm)
  | @take l s w m' h ih =>
    obtain ⟨hl, rs, hrs, hnoted⟩ := ih
    split
    · next hm =>
      subst hm
      exact ⟨List.nodup_nil, [], .nil, World.failures_takeFailures_self w m'⟩
    · next hm =>
      refine ⟨hl, rs, hrs.imp fun _ _ ↦ h.valid.records (act_takeFailures s w m'), ?_⟩
      exact (World.failures_takeFailures_of_ne w hm).trans hnoted

/-- Whatever happens, there are some who have failed. -/
theorem exists_after (h : Toll m l M) (hrun : Relation.ReflTransGen Occurs M M') : ∃ l', Toll m l' M' := by
  induction hrun with
  | refl => exact ⟨l, h⟩
  | tail _ hoccurs ih =>
    obtain ⟨l', htoll⟩ := ih
    cases hoccurs with
    | take m' => exact ⟨_, htoll.take m'⟩
    | act hact hstill =>
      obtain ⟨xs, hnodup, hxs⟩ := Untaken.exists_fails ⟨hact, hstill⟩ htoll.valid m
      exact ⟨_, htoll.act hact hstill hnodup hxs⟩

end Toll

/-! ### What an interpreter does -/

theorem Course.untaken {pumped : Option MindId} (h : Course pumped M M') : Relation.ReflTransGen Untaken M M' :=
  Relation.ReflTransGen.mono (fun _ _ ⟨hdeed, _, hsilent⟩ ↦ ⟨hdeed.act, fun _ ↦ hsilent⟩) _ _ h

namespace Machine

variable {σ : Setting} {α : Type} {f : Machine α}

theorem tracing_untaken : Tracing Untaken where
  act := Untaken.act
  basic h _ _ _ hhead hminds := (h.course hhead hminds).untaken
  context s w context := by
    have hcourse : Course none ⟨s, w⟩ ⟨s, { w with context }⟩ := .of_minds s rfl rfl rfl rfl
    exact hcourse.untaken
  callStack s w callStack := by
    have hcourse : Course none ⟨s, w⟩ ⟨s, { w with callStack }⟩ := .of_minds s rfl rfl rfl rfl
    exact hcourse.untaken
  take he hu hframe := ⟨.begin he hu hframe, fun _ ↦ .takeFrame _ _ _ _ _⟩
  back hvalid context frame step := ⟨.back context frame step, fun hstill ↦
    hvalid.silent_back context frame step (.of_still hstill)⟩

theorem Traced.of_course (h : ∀ s w, Course none ⟨s, w⟩ ⟨s, (f w).2⟩) : Traced Untaken σ f :=
  fun s w _ _ _ ↦ ⟨s, (h s w).untaken, fun _ ↦ rfl⟩

/-- Nor does anybody take notes in what a host does otherwise. -/
theorem Traced.calling_untaken : Calling (Traced Untaken) where
  toComposite := (Traced.compositional tracing_untaken).toComposite
  onClasses act _ := .of_course fun s _ ↦ course_onClasses s act
  setClasses _ _ := .of_course fun s _ ↦ .of_minds s rfl rfl rfl rfl
  takeHistory m := .of_course fun s _ ↦ .of_modifyMind s m (fun _ ↦ rfl) (fun _ ↦ rfl) (fun _ ↦ rfl)
    (fun _ ↦ Nat.le_refl _) (fun _ _ ↦ ⟨rfl, rfl, rfl, rfl⟩) fun _ ↦ rfl
  retire := .of_course fun s _ ↦ .of_minds s rfl rfl rfl rfl

end Machine

end MindScript
