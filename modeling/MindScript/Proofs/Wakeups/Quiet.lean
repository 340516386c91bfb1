import MindScript.Proofs.Along
import MindScript.Proofs.Wakeups.Naps

/-!
# Frames that sleep while others run

While a Mind is being updated, what runs in a step of one of its frames does not resume any frame that was there
before: an update of the Mind does nothing, and an update of another Mind resumes frames of that Mind.  So all frames
that sleep stay as they are, unless they settle, and whoever falls asleep meanwhile does so in the tick of the update.
-/

namespace MindScript

open Machine

namespace World

variable {u v w : World} {m : MindId} {k : FrameId} {X Y Z : Set FrameId}

/-- A frame that can run has settled, or is as it was. -/
def Stays (m : MindId) (k : FrameId) (v w : World) : Prop :=
  ∀ e, v.entryAt m k = some e → e.frame.isSome = true → v.isFinished e.handle = false →
    w.isFinished e.handle = true ∨ ∃ e', w.entryAt m k = some e' ∧ e.Keeps e' ∧ w.status e.handle = v.status e.handle

/-- The Mind is in the same update, and its frames stay as they are, apart from some that may have been resumed.  Whoever
has slept since an earlier tick has slept so before. -/
structure Quiet (m : MindId) (X : Set FrameId) (v w : World) : Prop where
  sameTick : SameTick m v w
  final : ∀ o c, v.cell? o = some c → c.status.isFinished = true → w.cell? o = some c
  stays : ∀ k, k ∉ X → Stays m k v w
  slept : ∀ k e', w.entryAt m k = some e' → e'.wake.isSome = true → e'.suspendedTick < w.tick m →
    ∃ e, v.entryAt m k = some e ∧ e.Sleeps e'

theorem Dozes.stays (h : Dozes m k v w) : Stays m k v w := fun e he hframe hu ↦
  (h.rests e he hframe hu).imp_right fun ⟨e', he', hkeeps, hstatus, _⟩ ↦ ⟨e', he', hkeeps, hstatus⟩

namespace Quiet

theorem isFinished (h : Quiet m X v w) {y : Handle} (hy : v.isFinished y = true) : w.isFinished y = true := by
  obtain ⟨c, hc, hfin⟩ := cell_of_isFinished hy
  rw [World.isFinished, status_of_cell? (h.final _ c hc hfin), hfin]

theorem of_still (hstill : Still v w) (htick : SameTick m v w) : Quiet m X v w := by
  refine ⟨htick, fun o c hc _ ↦ by rw [hstill.cell?, hc], fun k _ e he _ _ ↦ .inr ⟨e, ?_, .refl e, by rw [hstill.status]⟩,
    fun k e' he' _ _ ↦ ⟨e', ?_, .refl e'⟩⟩
  · rw [hstill.entryAt, he]
  · rwa [hstill.entryAt] at he'

theorem refl (m : MindId) (X : Set FrameId) (w : World) : Quiet m X w w := of_still ⟨rfl, rfl, rfl⟩ (.refl m w)

theorem stays_trans (h : Stays m k u v) (h' : Stays m k v w)
    (hfinal : ∀ y, v.isFinished y = true → w.isFinished y = true) : Stays m k u w := by
  intro e he hframe hu
  rcases h e he hframe hu with hfin | ⟨e₁, he₁, hkeeps, hstatus⟩
  · exact .inl (hfinal _ hfin)
  have hu₁ : v.isFinished e₁.handle = false := by
    rw [hkeeps.handle, World.isFinished, hstatus]
    exact hu
  rcases h' e₁ he₁ (by rwa [hkeeps.frame]) hu₁ with hfin | ⟨e₂, he₂, hkeeps', hstatus'⟩
  · exact .inl (hkeeps.handle ▸ hfin)
  · rw [hkeeps.handle] at hstatus'
    exact .inr ⟨e₂, he₂, hkeeps.trans hkeeps', hstatus'.trans hstatus⟩

/-- Of the frames that have been resumed at last, some had been resumed before, or were different then. -/
theorem chain (h : Quiet m X u v) (h' : Quiet m Y v w) (hX : X ⊆ Z) (hY : ∀ k ∉ Z, ∀ e e', u.entryAt m k = some e →
    v.entryAt m k = some e' → e.Keeps e' → v.status e.handle = u.status e.handle → k ∉ Y) : Quiet m Z u w := by
  refine ⟨h.sameTick.trans h'.sameTick, fun o c hc hfin ↦ h'.final o c (h.final o c hc hfin) hfin,
    fun k hk e he hframe hu ↦ ?_, fun k e'' he'' hwake hlt ↦ ?_⟩
  · rcases h.stays k (fun hmem ↦ hk (hX hmem)) e he hframe hu with hfin | ⟨e', he', hkeeps, hstatus⟩
    · exact .inl (h'.isFinished hfin)
    have hfirst : Stays m k u v := h.stays k fun hmem ↦ hk (hX hmem)
    exact stays_trans hfirst (h'.stays k (hY k hk e e' he he' hkeeps hstatus)) (fun _ ↦ h'.isFinished) e he hframe hu
  · obtain ⟨e', he', hsleeps'⟩ := h'.slept k e'' he'' hwake hlt
    rw [hsleeps'.wake] at hwake
    rw [hsleeps'.suspendedTick, h'.sameTick.tick] at hlt
    obtain ⟨e, he, hsleeps⟩ := h.slept k e' he' hwake hlt
    exact ⟨e, he, hsleeps.trans hsleeps'⟩

theorem trans (h : Quiet m X u v) (h' : Quiet m X v w) : Quiet m X u w :=
  h.chain h' subset_rfl fun _ hk _ _ _ _ _ _ ↦ hk

theorem mono (h : Quiet m X v w) (hXY : X ⊆ Y) : Quiet m Y v w :=
  ⟨h.sameTick, h.final, fun k hk ↦ h.stays k fun hmem ↦ hk (hXY hmem), h.slept⟩

/-- A frame that was not stored yet has nothing to lose. -/
theorem trans_new (h : Quiet m ∅ u v) (h' : Quiet m X v w) (hnew : ∀ k ∈ X, u.entryAt m k = none) : Quiet m ∅ u w := by
  refine h.chain h' subset_rfl fun k _ e _ he _ _ _ hk ↦ ?_
  rw [hnew k hk] at he
  cases he

end Quiet

end World

/-! ### Deeds -/

theorem Deed.quiet {pumped : Option MindId} {M M' : Moment} (h : Deed pumped M M') (hvalid : M.Valid) {m : MindId}
    (hm : pumped ≠ some m) {X : Set FrameId} (hbegin : ∀ k ∉ X, M'.stack ≠ (m, k) :: M.stack) :
    M.world.Quiet m X M'.world := by
  refine ⟨h.sameTick hm, fun o c ↦ h.act.final hvalid, fun k hk ↦ (h.dozes hvalid hm (hbegin k hk)).stays,
    fun k e' he' hwake hlt ↦ ?_⟩
  cases h.origin hvalid he' with
  | awake hawake =>
    rw [hawake.wake] at hwake
    cases hwake
  | slept he hnaps => exact ⟨_, he, hnaps.toSleeps⟩
  | returned _ htick _ => exact absurd htick hlt.ne
  | notified _ he _ heq => exact ⟨_, he, heq ▸ ⟨rfl, rfl, rfl, rfl⟩⟩

theorem Course.quiet {pumped : Option MindId} {s : List FrameKey} {w : World} {N : Moment} (h : Course pumped ⟨s, w⟩ N)
    (hvalid : Moment.Valid ⟨s, w⟩) {m : MindId} (hm : pumped ≠ some m) : w.Quiet m ∅ N.world := by
  induction h with
  | refl => exact .refl m ∅ w
  | @tail L N hcourse hdeed ih =>
    obtain ⟨hdeed, hstack, -⟩ := hdeed
    refine ih.trans (hdeed.quiet (hvalid.journey (Course.journey hcourse)) hm fun k _ heq ↦ ?_)
    exact List.cons_ne_self _ _ (heq.symm.trans hstack)

/-! ### Actions -/

namespace Machine

/-- The Mind is in an update that the action is not part of. -/
def Updates (m : MindId) (pumping : Option MindId) (w : World) : Prop := pumping ≠ some m ∧ w.isUpdating m = true

/-- A Mind that is being updated is not updated within that. -/
theorem leading_quiet (m : MindId) (X : Set FrameId) : World.Leading (Updates m) (World.Quiet m X) where
  refl := .refl m X
  trans := .trans
  keeps h hquiet := ⟨h.1, hquiet.sameTick.updating.trans h.2⟩
  begins := by
    intro pumping m' mind s w elapsed h hvalid hmind hidle
    have hother : some m' ≠ some m := by
      intro heq
      obtain rfl := Option.some.inj heq
      have hupdating := h.2
      rw [World.isUpdating, hmind] at hupdating
      exact Bool.false_ne_true (hidle.symm.trans hupdating)
    have hbegin : Basic ⟨s.head?, 0, true, some m'⟩ (beginUpdate m' elapsed) := .beginUpdate rfl elapsed
    have hquiet := (hbegin.course rfl (Nat.zero_le _)).quiet hvalid hother
    exact ⟨hquiet.mono (Set.empty_subset X), hother, hquiet.sameTick.updating.trans h.2⟩
  basic h hvalid hhead hminds hupdates := ((h.course hhead hminds).quiet hvalid hupdates.1).mono (Set.empty_subset X)
  context _ _ := .of_still ⟨rfl, rfl, rfl⟩ (.of_minds rfl)
  callStack _ _ := .of_still ⟨rfl, rfl, rfl⟩ (.of_minds rfl)

/-- In the course of an update of the Mind that it is not part of, the action resumes no frame of the Mind that was there
before, some apart. -/
abbrev Hushed (m : MindId) (X : Set FrameId) {α : Type} (σ : Setting) (f : Machine α) : Prop :=
  Leads (Updates m) (World.Quiet m X) σ f

namespace Hushed

variable {m : MindId} {X : Set FrameId} {σ : Setting} {α β : Type} {f : Machine α}

theorem mono (h : Hushed m ∅ σ f) (X : Set FrameId) : Hushed m X σ f :=
  ⟨h.tracked, fun s w hvalid hhead hminds hupdates ↦ (h.leads s w hvalid hhead hminds hupdates).mono (Set.empty_subset X)⟩

/-- Only the frame itself is resumed by its step. -/
theorem resumeFrame {E : Engine} {m' : MindId} {id : FrameId} (hX : m' = m → id ∈ X)
    (hbody : ∀ i frame delivered, Hushed m ∅ { σ with current := some (m', id), scoping := true }
      (stepInvocation E m' id i frame delivered)) : Hushed m X σ (resumeFrame E m' id) := by
  refine ⟨Tracked.compositional.step m' id fun i frame delivered ↦ (hbody i frame delivered).tracked,
    fun s w hvalid hhead hminds hupdates ↦ ?_⟩
  rcases resumeFrame_cases m' id w with hsame | ⟨entry, frame, he, hu, hframe⟩
  · rw [hsame]
    exact .refl m X w
  have hnone : (none : Option MindId) ≠ some m := (Option.some_ne_none m).symm
  have hbegin : Deed none ⟨s, w⟩ ⟨(m', id) :: s, w.takeFrame m' id entry frame⟩ := .begin he hu hframe
  rw [resumeFrame_of_stored he hu hframe]
  refine Leads.runFrame (leading_quiet m X) (fun i ↦ (hbody i frame entry.delivered).mono X) hvalid hminds hupdates he hu
    hframe (hbegin.quiet hvalid hnone fun k hk heq ↦ ?_) fun i w₁ body step _ hvalid₁ _ _ ↦ ?_
  · obtain ⟨rfl, rfl⟩ := Prod.mk.inj (List.cons.inj heq).1
    exact hk (hX rfl)
  · let after : Frame := { frame with context := w₁.context, body, updateCount := frame.updateCount + 1 }
    have hback : Deed none ⟨(m', id) :: s, w₁⟩ ⟨s, (w₁.enter w.context s.head?).returnFrame m' id after step⟩ :=
      .back w.context after step
    refine hback.quiet hvalid₁ hnone fun k _ heq ↦ ?_
    have hlength : s.length = s.length + 1 + 1 := congrArg List.length heq
    omega

end Hushed

end Machine

/-! ### Engines -/

/-- The frame that is registered was not stored before. -/
theorem Moment.Valid.entryAt_new {s : List FrameKey} {w : World} (h : Valid ⟨s, w⟩) {m : MindId} (name : String)
    (owner : ClassId) {parent : Option FrameId} (frame : Frame) (hm : m.index < w.minds.size)
    (hparent : ∀ p, parent = some p → s.head? = some (m, p)) :
    w.entryAt m (w.register m name owner parent frame).1.frame = none := by
  have hunused := (h.registered name owner frame hm hparent).unused
  by_contra hne
  obtain ⟨e, he⟩ := Option.ne_none_iff_exists'.mp hne
  obtain ⟨cell, hc⟩ := h.sound.filed.card he
  cases hunused.symm.trans hc

/-- The calls of the engine resume no sleeping frame of a Mind that is being updated. -/
structure Engine.Hushes (m : MindId) (E : Engine) : Prop where
  serves : E.Serves (Machine.Hushed m ∅)
  resume : ∀ {σ : Setting} {X : Set FrameId} (m' : MindId) (id : FrameId), (m' = m → id ∈ X) →
    Machine.Hushed m X σ (E.resume m' id)

namespace Engine.Hushes

variable {m : MindId} {E : Engine}

/-- Frames that are resumed are new, or of another Mind. -/
theorem of_resume (heval : ∀ σ id, Hushed m ∅ σ (E.eval id)) (hinvoke : ∀ σ this member args,
    Hushed m ∅ σ (E.invoke this member args)) (hresume : ∀ {σ : Setting} {X : Set FrameId} (m' : MindId)
      (id : FrameId), (m' = m → id ∈ X) → Hushed m X σ (E.resume m' id)) : E.Hushes m where
  resume := hresume
  serves :=
    have hcomposite := Leads.composite (leading_quiet m ∅)
    { eval := heval
      invoke := hinvoke
      spawn := by
        intro σ α F m' name owner parent frame hm hparent hfresh hF
        let h : World → Handle := fun w ↦ (w.register m' name owner parent frame).1
        have hregister : Hushed m ∅ σ (registerFrame m' name owner parent frame) :=
          hcomposite.basic (.register (σ := σ) m' name owner parent frame hm hparent hfresh)
        have hrest : ∀ h, Hushed m {k | m' = m ∧ k = h.frame} σ (E.resume m' h.frame >>= fun _ ↦ F h) := fun h ↦
          Leads.bind (leading_quiet m _) (hresume m' h.frame fun heq ↦ ⟨heq, rfl⟩) fun _ ↦ (hF h).mono _
        refine ⟨hregister.tracked.bind fun h ↦ (hrest h).tracked, fun s w hvalid hhead hminds hupdates ↦ ?_⟩
        have hregistered := hregister.leads s w hvalid hhead hminds hupdates
        obtain ⟨s₁, hrun, hs⟩ := hregister.tracked s w hvalid hhead hminds
        obtain rfl := hs fun heq ↦ by cases heq
        have hnew : w.entryAt m' (h w).frame = none := hvalid.entryAt_new name owner frame (Nat.lt_of_lt_of_le hm hminds)
          fun p hp ↦ hhead.trans (hparent p hp)
        have hlater := (hrest (h w)).leads s₁ _ (hvalid.journey hrun) hhead (hminds.trans hrun.run.minds_le)
          ((leading_quiet m ∅).keeps hupdates hregistered)
        refine World.Quiet.trans_new hregistered hlater ?_
        rintro k ⟨rfl, rfl⟩
        exact hnew
      due := by
        intro σ α F F' m' id isDue hpumped _ hF hF'
        by_cases heq : m' = m
        · -- The Mind is the one that is being updated, so this is not code of a step.
          refine ⟨?_, fun _ _ _ _ _ hupdates ↦ absurd (heq ▸ hpumped) hupdates.1⟩
          refine Tracked.compositional.look fun w ↦ ?_
          split
          · exact (hresume (X := Set.univ) m' id fun _ ↦ trivial).tracked.bind fun _ ↦ hF.tracked
          · exact hF'.tracked
        · refine hcomposite.look fun w ↦ ?_
          split
          · exact hcomposite.bind (hresume m' id fun h ↦ absurd h heq) fun _ ↦ hF
          · exact hF'
      pending := by
        intro σ α F F' m' hpumped hF hF'
        have hpop : Hushed m ∅ σ (popPending m') := hcomposite.basic (.popPending (σ := σ) hpumped)
        by_cases heq : m' = m
        · refine ⟨hpop.tracked.bind fun id? ↦ ?_, fun _ _ _ _ _ hupdates ↦ absurd (heq ▸ hpumped) hupdates.1⟩
          cases id? with
          | none => exact hF.tracked
          | some id => exact (hresume (X := Set.univ) m' id fun _ ↦ trivial).tracked.bind fun _ ↦ hF'.tracked
        · refine hcomposite.bind hpop fun id? ↦ ?_
          cases id? with
          | none => exact hF
          | some id => exact hcomposite.bind (hresume m' id fun h ↦ absurd h heq) fun _ ↦ hF' }

end Engine.Hushes

theorem Engine.hushes_ofBudget (m : MindId) (n : Nat) : (Engine.ofBudget n).Hushes m := by
  have hcomposite := Leads.composite (leading_quiet m ∅)
  induction n with
  | zero =>
    exact .of_resume (fun _ _ ↦ hcomposite.unchanged fun _ ↦ rfl) (fun _ _ _ _ ↦ hcomposite.unchanged fun _ ↦ rfl)
      fun _ _ _ ↦ (Leads.composite (leading_quiet m _)).unchanged fun _ ↦ rfl
  | succ n ih =>
    have hle : (Engine.ofBudget n).budget ≤ (Engine.ofBudget n).budget := Nat.le_refl _
    exact .of_resume (fun _ id ↦ (Alike.evalNode hle id).served hcomposite ih.serves)
      (fun _ this member args ↦ (Alike.invokeMember hle this member args).served hcomposite ih.serves)
      fun m' id hX ↦ .resumeFrame hX fun i frame delivered ↦ hcomposite.ofStep ih.serves m' id i frame delivered

end MindScript
