import MindScript.Proofs.Custody.Hosts
import MindScript.Proofs.Passages
import MindScript.Proofs.Wakeups.Deferred
import MindScript.Proofs.Wakeups.Quiet

/-!
# Whom a call resumes

In the worlds that hosts come to, the queues of deferred frames are in order, and only frames that wait for events have
payloads.  So wherever a call is about to resume a frame, the frame has not slept yet, or it is due.  Frames of a Mind
that is being updated are not resumed in any other update, so within a step of the update only new ones are.
-/

namespace MindScript

open Machine

/-! ### Engines -/

theorem Engine.queues_pausing (stop : World → Bool) (n : Nat) : (Engine.pausing stop n).Queues := by
  have hcomposite := Leads.composite World.leading_reserves
  have hrefl := World.Reserves.refl
  have hnothing : ∀ {H : Option MindId → World → Prop} {σ : Setting} {α : Type},
      Leads H World.Reserves σ (exhausted : Machine α) := fun {_ σ _} ↦
    .change (Tracked.unchanged fun _ ↦ rfl) fun w ↦ .refl w
  have hunless : ∀ {H : Option MindId → World → Prop} {σ : Setting} {α : Type} {f : Machine α},
      Leads H World.Reserves σ f → Leads H World.Reserves σ (Machine.unless stop f) := by
    intro H σ α f hf
    refine .look fun w ↦ ?_
    split
    · exact hnothing
    · exact hf
  induction n with
  | zero => exact .of_resume (fun _ _ ↦ hnothing) (fun _ _ _ _ ↦ hnothing) fun _ _ _ ↦ hnothing
  | succ n ih =>
    have hle : (Engine.pausing stop n).budget ≤ (Engine.pausing stop n).budget := Nat.le_refl _
    exact .of_resume (fun _ id ↦ hunless ((Alike.evalNode hle id).served hcomposite ih.serves))
      (fun _ this m args ↦ hunless ((Alike.invokeMember hle this m args).served hcomposite ih.serves))
      fun _ m id ↦ hunless (Queues.resumeFrame fun i frame delivered ↦ hcomposite.ofStep ih.serves m id i frame delivered)

theorem Engine.queues_ofBudget (n : Nat) : (Engine.ofBudget n).Queues := pausing_never n ▸ queues_pausing _ n

/-! ### Reached worlds -/

theorem Machine.Queues.hosting : Hosting Queues where
  toComposite := Leads.composite World.leading_reserves
  onClasses act hact := ⟨Tracked.hospitable.onClasses act hact, fun s w hvalid _ _ _ ↦ by
    have hcourse : Course none ⟨s, w⟩ ⟨s, (onClasses act w).2⟩ := course_onClasses s act
    exact .of_course hcourse hvalid fun m ↦ .same (World.pending_of_minds (World.minds_onClasses act w) m)⟩
  setClasses F hF := .change (Tracked.hospitable.setClasses F hF) fun _ ↦ .of_still ⟨rfl, rfl, rfl⟩ fun _ ↦ rfl
  takeFailures m := .change (Tracked.hospitable.takeFailures m) fun w ↦
    .of_still (World.still_modifyMind w m (fun _ ↦ rfl) fun _ ↦ rfl) fun m' ↦ World.pending_modifyMind w m' m fun _ ↦ rfl
  takeHistory m := .change (Tracked.hospitable.takeHistory m) fun w ↦
    .of_still (World.still_modifyMind w m (fun _ ↦ rfl) fun _ ↦ rfl) fun m' ↦ World.pending_modifyMind w m' m fun _ ↦ rfl
  retire := .change Tracked.hospitable.retire fun _ ↦ .of_still ⟨rfl, rfl, rfl⟩ fun _ ↦ rfl

variable {owned : List Link} {w : World}

theorem Reached.queued (h : Reached owned w) : w.Deferred ∧ w.Untried := by
  refine h.keeps (P := fun w ↦ w.Deferred ∧ w.Untried) Queues.hosting
    (fun stop n ↦ (Engine.queues_pausing stop n).serves) (fun config ↦ ?_)
    fun hf hvalid hhead hminds hw ↦ ?_
  · have hpending : ∀ m, (World.new config).pending m = [] := by
      intro m
      unfold World.new
      dsimp only
      split
      · rfl
      · obtain ⟨_ | i⟩ := m <;> rfl
    refine ⟨⟨fun m ↦ ?_, fun m k hk ↦ ?_, fun m k hk ↦ ?_, fun m ↦ ?_⟩, fun m k hk ↦ ?_⟩
    · rw [hpending]
      exact List.nodup_nil
    · rw [hpending] at hk
      cases hk
    · rw [hpending] at hk
      cases hk
    · rw [hpending]
      exact .nil
    · rw [hpending] at hk
      cases hk
  · have hreserves := hf.leads _ _ hvalid hhead hminds hw.1
    exact ⟨hreserves.deferred hw.1, hreserves.untried hw.2⟩

theorem Reached.deferred (h : Reached owned w) : w.Deferred := h.queued.1

/-- What holds of new interpreters and is kept by deeds holds of every reached world. -/
theorem Reached.journeys {P : World → Prop} (hnew : ∀ config, P (.new config))
    (hkeeps : ∀ {M M' : Moment}, Journey M M' → M.Valid → P M.world → P M'.world) (h : Reached owned w) : P w := by
  refine h.keeps (J := Tracked) Tracked.hospitable.toHosting (fun stop n ↦
    (Engine.satisfies_pausing Tracked.compositional stop n).serves Tracked.compositional.toComposite) hnew
    fun hf hvalid hhead hminds hw ↦ ?_
  obtain ⟨s', hjourney, -⟩ := hf _ _ hvalid hhead hminds
  exact hkeeps hjourney hvalid hw

theorem Reached.slept (h : Reached owned w) : w.Slept := by
  refine h.journeys (fun config ↦ ⟨fun m k e he ↦ ?_, fun m k e he ↦ ?_⟩) fun hjourney hvalid ↦ hjourney.slept hvalid
  · rw [World.entryAt_new] at he
    cases he
  · rw [World.entryAt_new] at he
    cases he

theorem Reached.lived (h : Reached owned w) : w.Lived :=
  h.journeys Attained.lived_new fun hjourney _ ↦ hjourney.lived

/-! ### On the way -/

namespace Machine

variable {σ : Setting} {s : List FrameKey}

/-- What an action has to start with. -/
structure Starts (σ : Setting) (s : List FrameKey) (w : World) : Prop where
  valid : Moment.Valid ⟨s, w⟩
  head : s.head? = σ.current
  minds : σ.minds ≤ w.minds.size
  deferred : w.Deferred

namespace Starts

theorem of_minds (h : Starts σ s w) {w' : World} (hminds : w'.minds = w.minds) (hcurrent : w'.current = w.current)
    (hdefault : w'.defaultMind = w.defaultMind) (hheap : w'.heap = w.heap) : Starts σ s w' := by
  have hcourse : Course none ⟨s, w⟩ ⟨s, w'⟩ := .of_minds s hminds hcurrent hdefault (by rw [hheap])
  have hreserves : w.Reserves w' := .of_course hcourse h.valid fun m ↦ .same (World.pending_of_minds hminds m)
  exact ⟨h.valid.journey hcourse.journey, h.head, hminds ▸ h.minds, hreserves.deferred h.deferred⟩

theorem basic {scoping : Bool} {α : Type} {f : Machine α} (h : Starts σ s w) (hf : Basic { σ with scoping } f) :
    Starts σ s (f w).2 := by
  have hjourney := (hf.course h.head h.minds).journey
  exact ⟨h.valid.journey hjourney, h.head, h.minds.trans hjourney.run.minds_le,
    (hf.reserves h.valid h.head h.minds).deferred h.deferred⟩

theorem journey {n : Nat} {α : Type} {f : Machine α} (h : Starts σ s w) (hf : Piece n σ f)
    (hne : (f w).1 ≠ .error .exhausted) : Journey ⟨s, w⟩ ⟨s, (f w).2⟩ := by
  obtain ⟨s', hjourney, hsame⟩ := hf.tracked (Engine.tracked_ofBudget n) s w h.valid h.head h.minds
  exact hsame hne ▸ hjourney

theorem piece {n : Nat} {α : Type} {f : Machine α} (h : Starts σ s w) (hf : Piece n σ f)
    (hne : (f w).1 ≠ .error .exhausted) : Starts σ s (f w).2 := by
  have hjourney := h.journey hf hne
  have hqueues := hf.served (Leads.composite World.leading_reserves) (Engine.queues_ofBudget n).serves
  exact ⟨h.valid.journey hjourney, h.head, h.minds.trans hjourney.run.minds_le,
    (hqueues.leads s w h.valid h.head h.minds h.deferred).deferred h.deferred⟩

theorem take {m : MindId} {id : FrameId} {entry : FrameEntry} {frame : Frame} (h : Starts σ s w)
    (he : w.entryAt m id = some entry) (hu : w.isFinished entry.handle = false) (hframe : entry.frame = some frame) :
    Starts { σ with current := some (m, id), scoping := true, pumping := none } ((m, id) :: s)
      (w.takeFrame m id entry frame) := by
  have hbegin : Deed none ⟨s, w⟩ ⟨(m, id) :: s, w.takeFrame m id entry frame⟩ := .begin he hu hframe
  have htaken : w.Bookkept (w.takeFrame m id entry frame) := World.bookkept_takeFrame ..
  have hdefers : w.Defers (w.takeFrame m id entry frame) := .of_deed hbegin h.valid htaken.pending fun _ _ heq ↦ by
    have hlength : s.length = s.length + 1 + 1 := congrArg List.length heq
    omega
  exact ⟨h.valid.act hbegin.act, rfl, h.minds.trans hbegin.act.minds_le, hdefers.deferred h.deferred⟩

/-- A frame that has just been registered has not slept. -/
theorem awake_register (h : Starts σ s w) (m : MindId) (name : String) (owner : ClassId) (parent : Option FrameId)
    (frame : Frame) {e : FrameEntry}
    (he : (w.register m name owner parent frame).2.entryAt m (w.register m name owner parent frame).1.frame = some e) :
    e.wake = none := by
  have htidy := h.valid.sound.filed.tidy
  rcases World.Lulls.register htidy m name owner parent frame m _ e he with hawake | ⟨e₀, he₀, -⟩
  · exact hawake.wake
  · exact absurd (.of_stored he₀) (World.not_issued_register htidy m name owner parent frame)

/-- A deferred frame whose turn has come has not slept. -/
theorem awake_popPending (h : Starts σ s w) {m : MindId} {id : FrameId} {w' : World}
    (hpop : popPending m w = (.ok (some id), w')) {e : FrameEntry} (he : w'.entryAt m id = some e) : e.wake = none := by
  rcases World.popPending_cases m w with ⟨heq, -⟩ | ⟨id, w₀, heq, hpending, -, hshifted⟩
  · cases heq.symm.trans hpop
  · cases heq.symm.trans hpop
    rw [hshifted.still.entryAt] at he
    exact h.deferred.awake m id (hpending ▸ List.mem_cons_self) e he

end Starts

/-- The frame may be resumed: it has not slept yet, or it is due, in the update that the action is part of if the Mind is
in one. -/
def Ripe (σ : Setting) (w : World) (m : MindId) (id : FrameId) (v : World) : Prop :=
  ∀ e, v.entryAt m id = some e → e.wake = none ∨ v.isDue m id = true ∧ (w.isUpdating m = true → σ.pumping = some m)

theorem Ripe.earlier {w' v : World} {m : MindId} {id : FrameId} (h : Ripe σ w' m id v)
    (hquiet : σ.pumping ≠ some m → w.isUpdating m = true → w'.isUpdating m = true) : Ripe σ w m id v := by
  refine fun e he ↦ (h e he).imp_right fun ⟨hdue, hpumping⟩ ↦ ⟨hdue, fun hupdating ↦ ?_⟩
  by_contra hne
  exact hne (hpumping (hquiet hne hupdating))

theorem passing_ripe : Passing fun σ w k v ↦ ∀ s, Starts σ s w → ∀ m id, k = some (m, id) → Ripe σ w m id v where
  here _ _ _ _ _ _ hk := by cases hk
  next {n σ k} α f w v hf hne ih s hs m id hk := by
    have hhushed := hf.served (Leads.composite (leading_quiet m ∅)) (Engine.hushes_ofBudget m n).serves
    refine (ih s (hs.piece hf hne) m id hk).earlier fun hpumping hupdating ↦ ?_
    exact (hhushed.leads s w hs.valid hs.head hs.minds ⟨hpumping, hupdating⟩).sameTick.updating.trans hupdating
  read ih s hs := ih s ⟨hs.valid, hs.head, Nat.le_refl _, hs.deferred⟩
  basic {σ k} α f w v scoping hf ih s hs m id hk := by
    refine (ih s (hs.basic hf) m id hk).earlier fun hpumping hupdating ↦ ?_
    exact ((hf.course hs.head hs.minds).quiet hs.valid hpumping).sameTick.updating.trans hupdating
  setContext ih s hs m id hk := (ih s (hs.of_minds rfl rfl rfl rfl) m id hk).earlier fun _ hupdating ↦ hupdating
  push _ ih s hs m id hk := (ih s (hs.of_minds rfl rfl rfl rfl) m id hk).earlier fun _ hupdating ↦ hupdating
  whenIdle {σ k w v m'} hidle ih s hs m id hk := by
    have hripe := ih s ⟨hs.valid, hs.head, hs.minds, hs.deferred⟩ m id hk
    refine fun e he ↦ (hripe e he).imp_right fun ⟨hdue, hpumping⟩ ↦ ⟨hdue, fun hupdating ↦ ?_⟩
    -- It is another Mind whose update begins.
    obtain rfl := Option.some.inj (hpumping hupdating)
    exact absurd (hidle.symm.trans hupdating) Bool.false_ne_true
  take {σ k w v m' id' entry frame} he hu hframe ih s hs m id hk := by
    have htaken : w.Bookkept (w.takeFrame m' id' entry frame) := World.bookkept_takeFrame ..
    have hripe := ih _ (hs.take he hu hframe) m id hk
    refine fun e he ↦ (hripe e he).imp_right fun ⟨hdue, hpumping⟩ ↦ ⟨hdue, fun hupdating ↦ ?_⟩
    cases hpumping ((htaken.updating m).trans hupdating)
  spawns {σ w} m' name owner parent frame _ _ _ s hs m id hk e he := by
    obtain ⟨rfl, rfl⟩ := Prod.mk.inj (Option.some.inj hk)
    exact .inl (hs.awake_register m' name owner parent frame he)
  wakes hm hdue _ _ m id hk _ _ := by
    obtain ⟨rfl, rfl⟩ := Prod.mk.inj (Option.some.inj hk)
    exact .inr ⟨hdue, fun _ ↦ hm⟩
  starts {σ w w' m' id'} hm hpop s hs m id hk e he := by
    obtain ⟨rfl, rfl⟩ := Prod.mk.inj (Option.some.inj hk)
    exact .inl (hs.awake_popPending hpop he)

/-- What an action passes can be reached by deeds. -/
theorem passing_journey : Passing fun σ w k v ↦ ∀ s, Starts σ s w →
    (∀ m id, k = some (m, id) → ∃ e, v.entryAt m id = some e ∧ e.wake ≠ none) → ∃ s', Journey ⟨s, w⟩ ⟨s', v⟩ where
  here _ w s _ _ := ⟨s, .refl⟩
  next hf hne ih s hs hk := (ih s (hs.piece hf hne) hk).imp fun _ ↦ (hs.journey hf hne).trans
  read ih s hs := ih s ⟨hs.valid, hs.head, Nat.le_refl _, hs.deferred⟩
  basic hf ih s hs hk := (ih s (hs.basic hf) hk).imp fun _ ↦ (hf.course hs.head hs.minds).journey.trans
  setContext {σ k w v context} ih s hs hk := by
    have hcourse : Course none ⟨s, w⟩ ⟨s, { w with context }⟩ := .of_minds s rfl rfl rfl rfl
    exact (ih s (hs.of_minds rfl rfl rfl rfl) hk).imp fun _ ↦ hcourse.journey.trans
  push {σ k w v i callStack} _ ih s hs hk := by
    have hcourse : Course none ⟨s, w⟩ ⟨s, { w with callStack }⟩ := .of_minds s rfl rfl rfl rfl
    exact (ih s (hs.of_minds rfl rfl rfl rfl) hk).imp fun _ ↦ hcourse.journey.trans
  whenIdle _ ih s hs := ih s ⟨hs.valid, hs.head, hs.minds, hs.deferred⟩
  take he hu hframe ih s hs hk := (ih _ (hs.take he hu hframe) hk).imp fun _ ↦ .head ⟨none, .begin he hu hframe⟩
  spawns m name owner parent frame _ _ _ s hs hk := by
    obtain ⟨e, he, hne⟩ := hk _ _ rfl
    exact absurd (hs.awake_register m name owner parent frame he) hne
  wakes _ _ s _ _ := ⟨s, .refl⟩
  starts _ hpop s hs hk := by
    obtain ⟨e, he, hne⟩ := hk _ _ rfl
    exact absurd (hs.awake_popPending hpop he) hne

end Machine

end MindScript
