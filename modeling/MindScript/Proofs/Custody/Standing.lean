import MindScript.Proofs.Custody.Restored
import MindScript.Proofs.Custody.Resumptions
import MindScript.Proofs.Wakeups.Standing

/-!
# Frames between their steps, in reached worlds

Every call keeps what new frames meet and frames that sleep after a step.  So every frame meets it that can run, in each world
that is reached, and at each moment that a call passes.
-/

namespace MindScript

open Machine

variable {owned : List Link} {w : World} {F : Frame.Condition} (hF : Frame.Standing F)

include hF

/-! ### Engines -/

theorem Engine.stands_pausing (stop : World → Bool) (n : ℕ) : (Engine.pausing stop n).Satisfies (Stands F) := by
  have hcomposite := Leads.composite (World.leading_stands hF)
  have hunless : ∀ {σ : Setting} {α : Type} {f : Machine α}, Stands F σ f → Stands F σ (Machine.unless stop f) := by
    intro σ α f hf
    refine hcomposite.look fun w ↦ ?_
    split
    · exact hcomposite.unchanged fun _ ↦ rfl
    · exact hf
  induction n with
  | zero => exact satisfies_empty hcomposite
  | succ n ih =>
    have hle : (Engine.pausing stop n).budget ≤ (Engine.pausing stop n).budget := Nat.le_refl _
    have hserves := ih.serves hcomposite
    exact ⟨fun _ id ↦ hunless ((Alike.evalNode hle id).served hcomposite hserves),
      fun _ this m args ↦ hunless ((Alike.invokeMember hle this m args).served hcomposite hserves),
      fun _ m id ↦ hunless (Stands.resumeFrame hF (satisfies_pausing Tracked.compositional stop n) (balanced_pausing stop n)
        fun i frame delivered ↦ hcomposite.ofStep hserves m id i frame delivered)⟩

theorem Engine.stands_ofBudget (n : ℕ) : (Engine.ofBudget n).Satisfies (Stands F) := pausing_never n ▸ stands_pausing hF _ n

/-! ### Reached worlds -/

theorem Machine.Stands.hosting : Hosting (Stands F) where
  toComposite := Leads.composite (World.leading_stands hF)
  onClasses act hact := ⟨Tracked.hospitable.onClasses act hact, fun s w hvalid _ _ hw _ ↦ by
    have hcourse : Course none ⟨s, w⟩ ⟨s, (onClasses act w).2⟩ := course_onClasses s act
    exact hw.course hF hcourse hvalid⟩
  setClasses G hG := .change (Tracked.hospitable.setClasses G hG) fun _ hw ↦ hw.still ⟨rfl, rfl, rfl⟩
  takeFailures m := .change (Tracked.hospitable.takeFailures m) fun w hw ↦
    hw.still (World.still_modifyMind w m (fun _ ↦ rfl) fun _ ↦ rfl)
  takeHistory m := .change (Tracked.hospitable.takeHistory m) fun w hw ↦
    hw.still (World.still_modifyMind w m (fun _ ↦ rfl) fun _ ↦ rfl)
  retire := .change Tracked.hospitable.retire fun _ hw ↦ hw.still ⟨rfl, rfl, rfl⟩

theorem Reached.stands (h : Reached owned w) : w.Stands F := by
  refine h.keeps (P := World.Stands F) (Stands.hosting hF)
    (fun stop n ↦ (Engine.stands_pausing hF stop n).serves (Leads.composite (World.leading_stands hF))) (fun config ↦ ?_)
    fun hf hvalid hhead hminds hw ↦ hf.leads _ _ hvalid hhead hminds hw hw
  intro m k e frame he
  rw [World.entryAt_new] at he
  cases he

/-! ### On the way -/

/-- In what an action passes, frames that can run meet the condition. -/
theorem Machine.passing_stands : Passing fun σ w _ v ↦ ∀ s, Starts σ s w → w.Stands F →
    ∃ s', Moment.Valid ⟨s', v⟩ ∧ v.Stands F where
  here _ _ s hs hw := ⟨s, hs.valid, hw⟩
  next {n σ k} α f w v hf hne ih s hs hw := by
    have hstands := hf.served (Leads.composite (World.leading_stands hF))
      ((Engine.stands_ofBudget hF n).serves (Leads.composite (World.leading_stands hF)))
    exact ih s (hs.piece hf hne) (hstands.leads s w hs.valid hs.head hs.minds hw hw)
  read ih s hs := ih s ⟨hs.valid, hs.head, Nat.le_refl _, hs.deferred⟩
  basic hf ih s hs hw := ih s (hs.basic hf) (hw.course hF (hf.course hs.head hs.minds) hs.valid)
  setContext ih s hs hw := ih s (hs.of_minds rfl rfl rfl rfl) (hw.still ⟨rfl, rfl, rfl⟩)
  push _ ih s hs hw := ih s (hs.of_minds rfl rfl rfl rfl) (hw.still ⟨rfl, rfl, rfl⟩)
  whenIdle _ ih s hs := ih s ⟨hs.valid, hs.head, hs.minds, hs.deferred⟩
  take {σ k w v m id entry frame} he hu hframe ih s hs hw := by
    have hbegin : Deed none ⟨s, w⟩ ⟨(m, id) :: s, w.takeFrame m id entry frame⟩ := .begin he hu hframe
    refine ih _ (hs.take he hu hframe) (hw.deed hF hbegin hs.valid fun _ _ _ _ heq ↦ ?_)
    have hlength : s.length = s.length + 1 + 1 := congrArg List.length heq
    omega
  spawns {σ w} m name owner parent frame hm hparent hfresh s hs hw := by
    have hregister : Deed none ⟨s, w⟩ ⟨s, (w.register m name owner parent frame).2⟩ :=
      .register name owner frame (Nat.lt_of_lt_of_le hm hs.minds) (fun p hp ↦ hs.head.trans (hparent p hp)) hfresh
    exact ⟨s, hs.valid.act hregister.act, hw.course hF (.of_deed hregister (.register w m name owner parent frame)) hs.valid⟩
  wakes _ _ s hs hw := ⟨s, hs.valid, hw⟩
  starts {σ w w' m id} hm hpop s hs hw := by
    have hpopped : Basic σ (popPending m) := .popPending hm
    have hcourse := hpopped.course hs.head hs.minds
    rw [hpop] at hcourse
    exact ⟨s, hs.valid.journey hcourse.journey, hw.course hF hcourse hs.valid⟩

omit hF in
/-- What a call from a reached world passes are valid moments, in which frames that can run meet the condition. -/
theorem Reached.passes (hF : Frame.Standing F) (hw : Reached owned w) {n : ℕ} {α : Type} {f : Machine α}
    {key : Option FrameKey} {v : World} (hpasses : Passes n w.setting f w key v) :
    ∃ s, Moment.Valid ⟨s, v⟩ ∧ v.Stands F := by
  obtain ⟨σ, hsane⟩ := hw.sane
  have hvalid := hsane.books.valid
  have hstarts : Starts w.setting σ.stack w := ⟨hvalid, hvalid.current.symm, Nat.le_refl _, hw.deferred⟩
  exact hpasses.satisfies (passing_stands hF) σ.stack hstarts (hw.stands hF)

end MindScript
