import MindScript.Proofs.Wakeups.Deferred

/-!
# Until the next update begins

Only an update of its Mind takes frames out of a queue of deferred frames, and it has advanced the tick before it does.
So as long as the tick stands where it stood, a queue only grows at its end; that is so outside of updates of the Mind, and
within every step of an update.
-/

namespace MindScript

open Machine

namespace World

/-- The tick has come, and it is over where an update of the Mind takes frames out of its queue. -/
structure Past (m : MindId) (t : Nat) (pumping : Option MindId) (w : World) : Prop where
  le : t ≤ w.tick m
  lt : pumping = some m → t < w.tick m

/-- The tick does not go back, and in the given tick nobody leaves the queue. -/
structure Lengthens (m : MindId) (t : Nat) (v w : World) : Prop where
  tick_le : v.tick m ≤ w.tick m
  pending : v.tick m = t → w.tick m = t → v.pending m <+: w.pending m

variable {u v w : World} {m : MindId} {t : Nat} {pumping : Option MindId}

namespace Lengthens

theorem trans (h : Lengthens m t u v) (h' : Lengthens m t v w) : Lengthens m t u w := by
  refine ⟨h.tick_le.trans h'.tick_le, fun hu hw ↦ ?_⟩
  have hv : v.tick m = t := Nat.le_antisymm (hw ▸ h'.tick_le) (hu ▸ h.tick_le)
  exact (h.pending hu hv).trans (h'.pending hv hw)

theorem of_eq (htick : w.tick m = v.tick m) (hpending : w.pending m = v.pending m) : Lengthens m t v w :=
  ⟨htick.ge, fun _ _ ↦ hpending ▸ List.prefix_rfl⟩

theorem of_minds (h : w.minds = v.minds) : Lengthens m t v w :=
  .of_eq (SameTick.of_minds h).tick (pending_of_minds h m)

theorem of_bookkept (h : Bookkept v w) : Lengthens m t v w := .of_eq (h.tick m) (h.pending m)

theorem refl (w : World) : Lengthens m t w w := .of_eq rfl rfl

end Lengthens

theorem Past.keeps (h : Past m t pumping v) (hlengthens : Lengthens m t v w) : Past m t pumping w :=
  ⟨h.le.trans hlengthens.tick_le, fun heq ↦ (h.lt heq).trans_le hlengthens.tick_le⟩

end World

theorem Course.tick_le {pumped : Option MindId} {s : List FrameKey} {w : World} {N : Moment} (h : Course pumped ⟨s, w⟩ N)
    (hvalid : Moment.Valid ⟨s, w⟩) (m : MindId) : w.tick m ≤ N.world.tick m :=
  h.keeps (P := fun v ↦ w.tick m ≤ v.tick m) hvalid (fun hdeed _ _ hle ↦ hle.trans (hdeed.tick_le m)) (Nat.le_refl _)

open World in
theorem Machine.Basic.lengthens {σ : Setting} {α : Type} {f : Machine α} (h : Basic σ f) {s : List FrameKey} {w : World}
    (hvalid : Moment.Valid ⟨s, w⟩) (hhead : s.head? = σ.current) (hminds : σ.minds ≤ w.minds.size) {m : MindId} {t : Nat}
    (hw : Past m t σ.pumping w) : Lengthens m t w (f w).2 := by
  refine ⟨(h.course hhead hminds).tick_le hvalid m, fun htick _ ↦ ?_⟩
  cases h.turnover hvalid hhead hminds m with
  | same heq => exact heq ▸ List.prefix_rfl
  | joined k _ _ heq => exact heq ▸ List.prefix_append _ _
  | left hpumping _ => exact absurd htick (hw.lt hpumping).ne'

namespace World

theorem leading_lengthens (m : MindId) (t : Nat) : Leading (Past m t) (Lengthens m t) where
  refl := .refl
  trans := .trans
  keeps := .keeps
  begins := by
    intro pumping m' mind s w elapsed hw hvalid hmind _
    have hbegin : Basic ⟨s.head?, 0, true, some m'⟩ (beginUpdate m' elapsed) := .beginUpdate rfl elapsed
    have hle := (hbegin.course rfl (Nat.zero_le _)).tick_le hvalid m
    have hpending : (beginUpdate m' elapsed w).2.pending m = w.pending m := pending_modifyMind w m m' fun _ ↦ rfl
    refine ⟨⟨hle, fun _ _ ↦ hpending ▸ List.prefix_rfl⟩, hw.le.trans hle, fun heq ↦ ?_⟩
    obtain rfl := Option.some.inj heq
    have htick : (beginUpdate m' elapsed w).2.tick m' = w.tick m' + 1 := by
      simp [beginUpdate, modify_apply, tick, mind?_modifyMind, hmind]
    rw [htick]
    exact Nat.lt_succ_of_le hw.le
  basic h hvalid hhead hminds hw := h.lengthens hvalid hhead hminds hw
  context _ _ := .of_minds rfl
  callStack _ _ := .of_minds rfl

end World

namespace Machine

/-- In the given tick nobody leaves the queue, unless an update of the Mind takes them out. -/
abbrev Postpones (m : MindId) (t : Nat) {α : Type} (σ : Setting) (f : Machine α) : Prop :=
  Leads (World.Past m t) (World.Lengthens m t) σ f

theorem Postpones.hospitable (m : MindId) (t : Nat) : Hospitable (Postpones m t) where
  toComposite := Leads.composite (World.leading_lengthens m t)
  step m' id hbody := by
    refine ⟨Tracked.compositional.step m' id fun i frame delivered ↦ (hbody i frame delivered).tracked,
      fun s w hvalid hhead hminds hw ↦ ?_⟩
    rcases resumeFrame_cases m' id w with hsame | ⟨entry, frame, he, hu, hframe⟩
    · rw [hsame]
      exact .refl w
    · rw [resumeFrame_of_stored he hu hframe]
      refine Leads.runFrame (World.leading_lengthens m t) (fun i ↦ hbody i frame entry.delivered) hvalid hminds hw he hu
        hframe (.of_bookkept (World.bookkept_takeFrame ..)) fun i w₁ body step _ _ _ _ ↦ ?_
      have henter : w₁.Bookkept (w₁.enter w.context s.head?) := .of_minds rfl
      exact .of_bookkept (henter.trans (World.bookkept_returnFrame ..))
  onClasses act hact :=
    ⟨Tracked.hospitable.onClasses act hact, fun _ w _ _ _ _ ↦ .of_minds (World.minds_onClasses act w)⟩
  setClasses F hF := .change (Tracked.hospitable.setClasses F hF) fun _ ↦ .of_minds rfl
  takeFailures m' := .change (Tracked.hospitable.takeFailures m') fun w ↦
    .of_bookkept (World.bookkept_modifyMind w m' fun _ ↦ .of_slots rfl rfl rfl rfl rfl rfl rfl)
  takeHistory m' := .change (Tracked.hospitable.takeHistory m') fun w ↦
    .of_bookkept (World.bookkept_modifyMind w m' fun _ ↦ .of_slots rfl rfl rfl rfl rfl rfl rfl)
  retire := .change Tracked.hospitable.retire fun _ ↦ .of_minds rfl

end Machine

end MindScript
