import Mathlib.Data.List.Chain
import MindScript.Proofs.Scheduler.Reachable

/-!
# The life of a handle

The status of a coroutine moves in one direction: it waits for its first step, runs and sleeps in turn, and
ends once.  Nothing in the code that writes a status looks whether the coroutine has finished before; that
this never happens rests on what each act does to the cards.
-/

namespace MindScript

/-- The ways in which a status can change. -/
inductive FrameStatus.Moves : FrameStatus → FrameStatus → Prop where
  | begin : Moves .pending .running
  | suspend : Moves .running .suspended
  | resume : Moves .suspended .running
  | complete : Moves .running .completed
  | fail : Moves .running .failed
  | stop {s : FrameStatus} : s.isFinished = false → Moves s .stopped

theorem FrameStatus.Moves.unfinished {s s' : FrameStatus} (h : s.Moves s') : s.isFinished = false := by
  cases h with
  | stop hs => exact hs
  | _ => rfl

/-- An outcome that has stayed as it was, or has moved. -/
def Outcome.Advances (c c' : Outcome) : Prop := c' = c ∨ c.status.Moves c'.status

theorem Outcome.Advances.of_finished {c c' : Outcome} (h : c.Advances c') (hfin : c.status.isFinished = true) :
    c' = c := by
  rcases h with heq | hmoves
  · exact heq
  · rw [hmoves.unfinished] at hfin
    exact absurd hfin Bool.false_ne_true

/-- Every outcome has stayed or moved, and no unfinished frame is gone. -/
structure World.Advances (w w' : World) : Prop where
  cell : ∀ o c, w.cell? o = some c → ∃ c', w'.cell? o = some c' ∧ c.Advances c'
  card : ∀ m id c, w.card m id = some c → c.isFinished = false →
    ∃ c', w'.card m id = some c' ∧ c'.handle = c.handle

namespace World.Advances

variable {w w' w'' : World} {G : MindId → FrameId → Card → Card} {age : Nat}

/-- It is enough to look at the outcomes of frames and at those of no frame. -/
theorem cell_cases {P : Outcome → Option Outcome → Prop}
    (howned : ∀ m id c, w.card m id = some c → P c.cell (w'.cell? c.handle.outcome))
    (horphan : ∀ o c, w.cell? o = some c → (∀ m id b, w.card m id = some b → b.handle.outcome ≠ o) →
      P c (w'.cell? o)) (o : OutcomeId) (c : Outcome) (hc : w.cell? o = some c) : P c (w'.cell? o) := by
  by_cases hex : ∃ m id b, w.card m id = some b ∧ b.handle.outcome = o
  · obtain ⟨m, id, b, hb, rfl⟩ := hex
    obtain rfl := Option.some.inj ((cell_of_card hb).symm.trans hc)
    exact howned m id b hb
  · exact horphan o c hc fun m id b hb heq ↦ hex ⟨m, id, b, hb, heq⟩

theorem of_still (h : Still w w') : w.Advances w' := by
  refine ⟨fun o c hc ↦ ⟨c, by rw [h.cell?, hc], .inl rfl⟩, fun m id c hc _ ↦ ⟨c, by rw [h.card, hc], rfl⟩⟩

theorem of_revised (h : Revised G w w') (hG : ∀ m id c, w.card m id = some c → c.cell.Advances (G m id c).cell) :
    w.Advances w' := by
  refine ⟨cell_cases (P := fun c c'? ↦ ∃ c', c'? = some c' ∧ c.Advances c') ?_ ?_, fun m id c hc _ ↦ ?_⟩
  · intro m id c hc
    exact ⟨_, h.cell_of_card hc, hG m id c hc⟩
  · intro o c hc horphan
    exact ⟨c, by rw [h.orphan o horphan, hc], .inl rfl⟩
  · exact ⟨_, h.card_of_card hc, h.handle m id c hc⟩

/-- What fades has stayed as it was or has stopped. -/
theorem cell_of_fading (h : Fading age w w') (o : OutcomeId) (c : Outcome) (hc : w.cell? o = some c) :
    ∃ c', w'.cell? o = some c' ∧ (c' = c ∨ c.status.isFinished = false ∧ c'.status = .stopped) := by
  refine cell_cases (P := fun c c'? ↦ ∃ c', c'? = some c' ∧
    (c' = c ∨ c.status.isFinished = false ∧ c'.status = .stopped)) ?_ ?_ o c hc
  · intro m id c hc
    obtain ⟨c', hc', hfades, -⟩ := h.some_of_some hc
    have hcell := cell_of_card hc'
    rw [hfades.handle] at hcell
    refine ⟨_, hcell, ?_⟩
    rcases hfades.cell with heq | ⟨hu, heq⟩
    · exact .inl heq
    · exact .inr ⟨hu, by rw [heq]⟩
  · intro o c hc horphan
    exact ⟨c, by rw [h.orphan o horphan, hc], .inl rfl⟩

/-- Stopping comes on top of whatever happened before. -/
theorem fading (h : w.Advances w') (hf : Fading age w' w'') : w.Advances w'' := by
  refine ⟨fun o c hc ↦ ?_, fun m id c hc hu ↦ ?_⟩
  · obtain ⟨c', hc', hadv⟩ := h.cell o c hc
    obtain ⟨c'', hc'', hcases⟩ := cell_of_fading hf o c' hc'
    refine ⟨c'', hc'', ?_⟩
    rcases hcases with rfl | ⟨hu, hstopped⟩
    · exact hadv
    · right
      rw [hstopped]
      refine .stop ?_
      rcases hadv with rfl | hmoves
      · exact hu
      · exact hmoves.unfinished
  · obtain ⟨c', hc', hhandle⟩ := h.card m id c hc hu
    obtain ⟨c'', hc'', hfades, -⟩ := hf.some_of_some hc'
    exact ⟨c'', hc'', hfades.handle.trans hhandle⟩

theorem still_right (h : w.Advances w') (hs : Still w' w'') : w.Advances w'' := by
  refine ⟨fun o c hc ↦ ?_, fun m id c hc hu ↦ ?_⟩
  · rw [hs.cell?]
    exact h.cell o c hc
  · rw [hs.card]
    exact h.card m id c hc hu

theorem still_left (hs : Still w w') (h : w'.Advances w'') : w.Advances w'' := by
  refine ⟨fun o c hc ↦ h.cell o c ?_, fun m id c hc hu ↦ h.card m id c ?_ hu⟩
  · rw [hs.cell?, hc]
  · rw [hs.card, hc]

/-- The outcomes have not changed before. -/
theorem revised_left (h : Revised G w w') (hG : ∀ m id c, w.card m id = some c → (G m id c).cell = c.cell)
    (h' : w'.Advances w'') : w.Advances w'' := by
  have hcell : ∀ o c, w.cell? o = some c → w'.cell? o = some c := by
    refine cell_cases (P := fun c c'? ↦ c'? = some c) (fun m id c hc ↦ ?_) fun o c hc horphan ↦ ?_
    · rw [h.cell_of_card hc, hG m id c hc]
    · rw [h.orphan o horphan, hc]
  refine ⟨fun o c hc ↦ h'.cell o c (hcell o c hc), fun m id c hc hu ↦ ?_⟩
  obtain ⟨c'', hc'', hhandle⟩ := h'.card m id _ (h.card_of_card hc) (by rwa [Card.isFinished, hG m id c hc])
  exact ⟨c'', hc'', hhandle.trans (h.handle m id c hc)⟩

/-- A frame ends after those below it have stopped, which leaves its own outcome alone. -/
theorem of_ends {X : Set FrameKey} {stack : List FrameKey} {m : MindId} {id : FrameId} {c : Card}
    {ending : Ending} (h : Ends X stack m id c ending w w') (hc : w.card m id = some c)
    (hmoves : c.status.Moves ending.status) : w.Advances w' := by
  obtain ⟨w₁, hsound, hfading, hc₁, rfl⟩ := h
  obtain ⟨e, he, -, hcard⟩ := card_eq_some_iff.mp hc₁
  have hhandle : e.handle = c.handle := congrArg Card.handle hcard
  have hu : w₁.isFinished e.handle = false := by
    rw [hhandle]
    exact (isFinished_of_card hc₁).trans hmoves.unfinished
  have hsettle := revised_settle hsound.filed he hu ending
  refine ⟨fun o c₀ hc₀ ↦ ?_, fun m' k b hb _ ↦ ?_⟩
  · by_cases ho : o = c.handle.outcome
    · subst ho
      obtain rfl := Option.some.inj ((cell_of_card hc).symm.trans hc₀)
      have hcell := hsettle.cell_of_card hc₁
      refine ⟨_, hcell, .inr ?_⟩
      have hstatus : (settling m id e.parent ending (ending.error?.map (w₁.withFrameOrigin e)) m id
          { c with children := #[] }).cell.status = ending.status := by
        rw [settling_self rfl]
        rfl
      rw [hstatus]
      exact hmoves
    · obtain ⟨c₁, hcell₁, hstopped⟩ := cell_of_fading hfading o c₀ hc₀
      have hsame : (w₁.settle m id ending).cell? o = some c₁ := by
        by_cases howned : ∃ m' k b, w₁.card m' k = some b ∧ b.handle.outcome = o
        · obtain ⟨m', k, b, hb, rfl⟩ := howned
          have hne : ¬(m' = m ∧ k = id) := by
            rintro ⟨rfl, rfl⟩
            obtain rfl := Option.some.inj (hc₁.symm.trans hb)
            exact ho rfl
          rw [hsettle.cell_of_card hb, cell_settling_of_ne hne, ← cell_of_card hb, hcell₁]
        · rw [hsettle.orphan o fun m' k b hb heq ↦ howned ⟨m', k, b, hb, heq⟩, hcell₁]
      refine ⟨c₁, hsame, ?_⟩
      rcases hstopped with rfl | ⟨hu₀, hstatus⟩
      · exact .inl rfl
      · right
        rw [hstatus]
        exact .stop hu₀
  · obtain ⟨b₁, hb₁, hfades, -⟩ := hfading.some_of_some hb
    exact ⟨_, hsettle.card_of_card hb₁, (hsettle.handle m' k b₁ hb₁).trans hfades.handle⟩

end World.Advances

/-! ### Acts -/

/-- A frame that has come back from its step has ended or fallen asleep. -/
theorem World.Concluded.advances {stack : List FrameKey} {m : MindId} {id : FrameId} {c : Card} {w w' : World}
    (h : Concluded stack m id c w w') (hw : w.Filed) (hc : w.card m id = some c)
    (hrun : c.status = .running) : w.Advances w' := by
  cases h with
  | ended ending hne hbefore hends hafter =>
    have hmoves : c.status.Moves ending.status := by
      rw [hrun]
      cases ending with
      | completed value => exact .complete
      | stopped => exact absurd rfl hne
      | failed e => exact .fail
    exact .still_left hbefore (.still_right (.of_ends hends (by rw [hbefore.card, hc]) hmoves) hafter)
  | asleep wake hfree =>
    obtain ⟨e, he, -⟩ := card_eq_some_iff.mp hc
    refine .of_revised (revised_sleep hw he wake) fun m' k b hb ↦ ?_
    by_cases hk : m' = m ∧ k = id
    · obtain ⟨rfl, rfl⟩ := hk
      obtain rfl := Option.some.inj (hc.symm.trans hb)
      right
      have hstatus : c.cell.status = .running := hrun
      rw [atFrame_self, hstatus]
      exact .suspend
    · rw [atFrame_of_ne hk]
      exact .inl rfl

namespace Moment.Valid

theorem advances_back {s : List FrameKey} {w : World} {m : MindId} {id : FrameId}
    (h : Sound ∅ ((m, id) :: s) w) (frame : Frame) (step : Except EvalError Step) :
    w.Advances (w.returnFrame m id frame step) := by
  obtain ⟨c, hc⟩ := h.card_of_mem List.mem_cons_self
  obtain ⟨w₁, hconcluded, heq⟩ := World.returnFrame_cases h hc frame step
  have hrun : c.status = .running := h.running_of_mem List.mem_cons_self hc
  have hback := World.revised_putBack h.filed m id frame
  have hadvances : w.Advances w₁ := by
    refine .revised_left hback (fun m' k b _ ↦ ?_)
      (hconcluded.advances hback.filed (World.card_putBack h.filed hc frame) hrun)
    unfold World.atFrame
    split <;> rfl
  rw [heq]
  cases hstop : c.stopRequested with
  | false => exact hadvances
  | true => exact hadvances.fading (World.sound_stop (h.concluded hc hconcluded).1 m id).2

theorem advances_register {w w' : World} {m : MindId} {parent : Option FrameId} {x : Handle}
    (h : World.Registered m parent x w w') : w.Advances w' := by
  refine ⟨fun o c hc ↦ ⟨c, ?_, .inl rfl⟩, fun m' k c hc _ ↦ ⟨_, h.card_of_card hc, rfl⟩⟩
  have hlt := World.index_of_cell? (Option.isSome_iff_exists.mpr ⟨c, hc⟩)
  rw [h.cells, if_neg, hc]
  rintro rfl
  rw [h.outcome] at hlt
  exact Nat.lt_irrefl _ hlt

theorem advances_takeFrame {X : Set FrameKey} {s : List FrameKey} {w : World} {m : MindId} {id : FrameId}
    {e : FrameEntry} {frame : Frame} (h : Sound X s w) (hX : (m, id) ∉ X) (he : w.entryAt m id = some e)
    (hu : w.isFinished e.handle = false) (hframe : e.frame = some frame) :
    w.Advances (w.takeFrame m id e frame) := by
  obtain ⟨cell, hc⟩ := h.filed.card he
  have hfits := h.fits m id _ hc
  -- A frame that is stored and has not finished has not begun, or is asleep.
  have hmoves : (e.card cell).status.Moves .running := by
    have hu' : (e.card cell).status.isFinished = false := (World.isFinished_of_card hc).symm.trans hu
    cases hs : (e.card cell).status with
    | pending => exact .begin
    | suspended => exact .resume
    | running =>
      have hnone : e.frame = none := hfits.taken hs hX
      simp [hframe] at hnone
    | _ => simp [hs, FrameStatus.isFinished] at hu'
  refine .of_revised (World.revised_takeFrame h.filed he frame) fun m' k b hb ↦ ?_
  by_cases hk : m' = m ∧ k = id
  · obtain ⟨rfl, rfl⟩ := hk
    obtain rfl := Option.some.inj (hc.symm.trans hb)
    rw [World.atFrame_self]
    exact .inr hmoves
  · rw [World.atFrame_of_ne hk]
    exact .inl rfl

theorem advances_swept {w w' : World} (h : World.Swept w w') : w.Advances w' := by
  exact ⟨fun o c hc ↦ ⟨c, by rw [h.cells, hc], .inl rfl⟩, fun _ _ c hc hu ↦ ⟨c, h.stays hc hu, rfl⟩⟩

theorem advances_detachChildren {w : World} (h : w.Filed) (m : MindId) (id : FrameId) :
    w.Advances (w.detachChildren m id) := by
  cases he : w.entryAt m id with
  | none =>
    rw [World.detachChildren_of_none he]
    exact .of_still (.refl w)
  | some e =>
    exact .of_revised (World.revised_detachChildren h he) fun _ _ _ _ ↦ .inl (by rw [World.detaching_eq])

/-- No act changes the outcome of a coroutine that has finished, and each moves every other at most once. -/
theorem advances {M M' : Moment} (h : M.Valid) (hact : Act M M') : M.world.Advances M'.world := by
  cases hact with
  | compute hstill _ => exact .of_still hstill
  | register name owner frame hm hparent => exact advances_register (h.registered name owner frame hm hparent)
  | begin he hu hframe => exact advances_takeFrame h.sound (Set.notMem_empty _) he hu hframe
  | back context frame step =>
    exact .still_left (World.still_enter ..) (advances_back (h.sound.still (World.still_enter ..)) frame step)
  | stop m id => exact (World.Advances.of_still (.refl _)).fading (World.sound_stop h.sound m id).2
  | sweep m => exact advances_swept (World.swept_sweep h.sound.filed m)
  | detach m id => exact advances_detachChildren h.sound.filed m id
  | notify m event payload =>
    obtain ⟨woken, hG, -⟩ := World.revised_notify h.sound.filed m event payload
    exact .of_revised hG fun _ _ _ _ ↦ .inl (by rw [World.delivering_eq])
  | setUpdateInterval x seconds =>
    exact .of_revised (World.revised_setUpdateInterval h.sound.filed x seconds) fun _ _ _ _ ↦ .inl rfl
  | createMind name =>
    refine ⟨fun o c hc ↦ ⟨c, hc, .inl rfl⟩, fun m id c hc _ ↦ ⟨c, ?_, rfl⟩⟩
    rw [World.card_createMind, hc]

end Moment.Valid

/-! ### Runs -/

/-- A finished outcome stays as it is, whatever happens to the slot of its frame. -/
theorem Run.cell_of_finished {M M' : Moment} (hrun : Run M M') (h : M.Valid) {o : OutcomeId} {c : Outcome}
    (hc : M.world.cell? o = some c) (hfin : c.status.isFinished = true) : M'.world.cell? o = some c := by
  induction hrun with
  | refl => exact hc
  | tail hbefore hact ih =>
    obtain ⟨c', hc', hadvances⟩ := ((h.run hbefore).advances hact).cell o c ih
    rw [hc', hadvances.of_finished hfin]

/-- The statuses of a handle from its registration on, the latest first, one for every act. -/
inductive Lifeline (h : Handle) : List FrameStatus → Moment → Prop where
  | registered {s : List FrameKey} {w : World} {m : MindId} (name : String) (owner : ClassId)
      {parent : Option FrameId} (frame : Frame) : Reachable ⟨s, w⟩ → m.index < w.minds.size →
      (∀ p, parent = some p → s.head? = some (m, p)) → (w.register m name owner parent frame).1 = h →
      Lifeline h [(w.register m name owner parent frame).2.status h]
        ⟨s, (w.register m name owner parent frame).2⟩
  | act {M M' : Moment} {history : List FrameStatus} : Lifeline h history M → Act M M' →
      Lifeline h (M'.world.status h :: history) M'

namespace Lifeline

variable {h : Handle} {history : List FrameStatus} {M : Moment}

theorem reachable (hl : Lifeline h history M) : Reachable M := by
  induction hl with
  | registered name owner frame hreach hm hparent _ => exact hreach.act (.register _ _ _ hm hparent)
  | act _ hact ih => exact ih.act hact

/-- The outcome of a handle is there, and an unfinished handle finds its own frame. -/
theorem resolves (hl : Lifeline h history M) : ∃ cell, M.world.cell? h.outcome = some cell ∧
    (cell.status.isFinished = false → ∃ c, M.world.card h.mind h.frame = some c ∧ c.handle = h) := by
  induction hl with
  | @registered s w m name owner parent frame hreach hm hparent heq =>
    have hr := hreach.valid.registered name owner frame hm hparent
    rw [heq] at hr
    obtain ⟨frame', hfresh⟩ := hr.fresh
    refine ⟨{ status := .pending }, by rw [hr.cells, if_pos rfl], fun _ ↦ ?_⟩
    rw [hr.mind]
    exact ⟨_, hfresh, rfl⟩
  | @act M M' history hl hact ih =>
    obtain ⟨cell, hcell, hcard⟩ := ih
    have hadvances := hl.reachable.valid.advances hact
    obtain ⟨cell', hcell', hmoves⟩ := hadvances.cell _ _ hcell
    refine ⟨cell', hcell', fun hu' ↦ ?_⟩
    have hu : cell.status.isFinished = false := by
      rcases hmoves with rfl | hmoves
      · exact hu'
      · exact hmoves.unfinished
    obtain ⟨c, hc, hhandle⟩ := hcard hu
    have hcell_c := World.cell_of_card hc
    rw [hhandle, hcell] at hcell_c
    obtain ⟨c', hc', hhandle'⟩ := hadvances.card _ _ _ hc (by rwa [Card.isFinished, ← Option.some.inj hcell_c])
    exact ⟨c', hc', hhandle'.trans hhandle⟩

/-- From one act to the next the status stays or moves. -/
theorem isChain (hl : Lifeline h history M) : history.head? = some (M.world.status h) ∧
    history.getLast? = some .pending ∧
    history.IsChain fun later earlier ↦ later = earlier ∨ earlier.Moves later := by
  induction hl with
  | @registered s w m name owner parent frame hreach hm hparent heq =>
    refine ⟨rfl, ?_, .singleton _⟩
    have hr := hreach.valid.registered name owner frame hm hparent
    rw [heq] at hr
    have hcell : (w.register m name owner parent frame).2.cell? h.outcome = some { status := .pending } := by
      rw [hr.cells, if_pos rfl]
    rw [World.status_of_cell? hcell]
    rfl
  | @act M M' history hl hact ih =>
    obtain ⟨hhead, hlast, hchain⟩ := ih
    obtain ⟨cell, hcell, -⟩ := hl.resolves
    obtain ⟨cell', hcell', hmoves⟩ := (hl.reachable.valid.advances hact).cell _ _ hcell
    cases history with
    | nil => simp at hlast
    | cons latest rest =>
      obtain rfl := Option.some.inj hhead
      refine ⟨rfl, ?_, .cons_cons ?_ hchain⟩
      · rw [List.getLast?_cons_cons, hlast]
      · rw [World.status_of_cell? hcell, World.status_of_cell? hcell']
        rcases hmoves with rfl | hmoves
        · exact .inl rfl
        · exact .inr hmoves

end Lifeline

/-- What a valid moment shows of an unfinished frame. -/
theorem Moment.Valid.entry_of_unfinished {M : Moment} (hM : M.Valid) {m : MindId} {id : FrameId} {c : Card}
    (hc : M.world.card m id = some c) (hu : c.isFinished = false) :
    ∃ e, M.world.entryAt m id = some e ∧ e.handle = c.handle ∧
      (e.frame = none ↔ M.world.status c.handle = .running) ∧
      (e.wake.isSome = true ↔ M.world.status c.handle = .suspended) := by
  have hfits := hM.sound.fits m id c hc
  obtain ⟨e, he, -, hcard⟩ := World.card_eq_some_iff.mp hc
  have hframe : e.frame = c.frame := congrArg Card.frame hcard
  have hwake : e.wake = c.wake := congrArg Card.wake hcard
  refine ⟨e, he, congrArg Card.handle hcard, ?_, ?_⟩
  · rw [hframe, World.status_of_card hc]
    exact ⟨fun hnone ↦ (hfits.framed hu hnone).1, fun hrun ↦ hfits.taken hrun (Set.notMem_empty _)⟩
  · rw [hwake, World.status_of_card hc]
    exact hfits.waits

/-- What a valid moment shows of a finished frame that has not been swept. -/
theorem Moment.Valid.entry_of_finished {M : Moment} (hM : M.Valid) {m : MindId} {id : FrameId}
    {e : FrameEntry} (he : M.world.entryAt m id = some e) (hfin : M.world.isFinished e.handle = true) :
    e.frame = none ∧ e.wake = none ∧ e.delivered = none ∧ e.parent = none ∧ e.children = #[] := by
  obtain ⟨cell, hc⟩ := hM.sound.filed.card he
  have hfits := hM.sound.fits m id _ hc
  have hfin' : (e.card cell).status.isFinished = true := (World.isFinished_of_card hc).symm.trans hfin
  obtain ⟨hframe, hdelivered, hparent, hchildren⟩ := hfits.done hfin'
  have hwake : e.wake = none := by
    cases hw : e.wake with
    | none => rfl
    | some wake =>
      have hsome : (e.card cell).wake.isSome = true := by
        have hwake : (e.card cell).wake = some wake := hw
        rw [hwake, Option.isSome_some]
      rw [hfits.waits.mp hsome] at hfin'
      exact absurd hfin' Bool.false_ne_true
  exact ⟨hframe, hwake, hdelivered, hparent, hchildren⟩

/-- The status of a handle starts as pending and only moves forward; once finished, status, result and error
stay; there is a result exactly after completion and an error exactly after failure.  An unfinished handle
finds its own entry, whose frame is taken out exactly while it runs and which has a wake exactly while it
sleeps; the entry of a finished frame is empty until it is swept. -/
theorem handle_lives_once {h : Handle} {history : List FrameStatus} {M : Moment}
    (hl : Lifeline h history M) :
    (history.head? = some (M.world.status h) ∧ history.getLast? = some .pending ∧
      history.IsChain fun later earlier ↦ later = earlier ∨ earlier.Moves later) ∧
    (M.world.isFinished h = true → ∀ M', Run M M' → M'.world.status h = M.world.status h ∧
      (M'.world.heap.outcome h.outcome).result = (M.world.heap.outcome h.outcome).result ∧
      (M'.world.heap.outcome h.outcome).error = (M.world.heap.outcome h.outcome).error) ∧
    ((M.world.heap.outcome h.outcome).result.isSome = true ↔ M.world.status h = .completed) ∧
    ((M.world.heap.outcome h.outcome).error.isSome = true ↔ M.world.status h = .failed) ∧
    (M.world.isFinished h = false → ∃ e, M.world.entryAt h.mind h.frame = some e ∧ e.handle = h ∧
      (e.frame = none ↔ M.world.status h = .running) ∧
      (e.wake.isSome = true ↔ M.world.status h = .suspended)) ∧
    (∀ m id e, M.world.entryAt m id = some e → M.world.isFinished e.handle = true →
      e.frame = none ∧ e.wake = none ∧ e.delivered = none ∧ e.parent = none ∧ e.children = #[]) := by
  have hvalid := hl.reachable.valid
  obtain ⟨cell, hcell, hcard⟩ := hl.resolves
  have hbare := World.outcome_of_cell? hcell
  have hstatus : M.world.status h = cell.status := World.status_of_cell? hcell
  have hfits := hvalid.sound.cells _ _ hcell
  refine ⟨hl.isChain, fun hfin M' hrun ↦ ?_, ?_, ?_, fun hu ↦ ?_, fun m id e he hfin ↦ ?_⟩
  · rw [World.isFinished, hstatus] at hfin
    have hcell' := hrun.cell_of_finished hvalid hcell hfin
    have hbare' := (World.outcome_of_cell? hcell').trans hbare.symm
    have hresult := congrArg Outcome.result hbare'
    have herror := congrArg Outcome.error hbare'
    exact ⟨(World.status_of_cell? hcell').trans hstatus.symm, hresult, herror⟩
  · rw [hstatus, ← hfits.result, ← hbare]
    rfl
  · rw [hstatus, ← hfits.error, ← hbare]
    rfl
  · rw [World.isFinished, hstatus] at hu
    obtain ⟨c, hc, rfl⟩ := hcard hu
    refine hvalid.entry_of_unfinished hc ?_
    rw [World.cell_of_card hc] at hcell
    rwa [Card.isFinished, Option.some.inj hcell]
  · exact hvalid.entry_of_finished he hfin

/-! ### A coroutine that completes in its first step -/

/-- The frame has completed with nil. -/
def World.oneDone : World := (oneStep.enter default none).returnFrame ⟨0⟩ ⟨0, 0⟩ default (.ok (.done .nil))

/-- The frame has been swept, and its slot taken by another one. -/
def World.reused : World := ((oneDone.sweep ⟨0⟩).register ⟨0⟩ "second" Core.object none default).2

theorem lifeline_oneDone :
    Lifeline ⟨⟨0⟩, ⟨0, 0⟩, "first", ⟨0⟩⟩ [.completed, .running, .pending] ⟨[], .oneDone⟩ := by
  have hone : Lifeline ⟨⟨0⟩, ⟨0, 0⟩, "first", ⟨0⟩⟩ [.pending] ⟨[], .oneFrame⟩ :=
    Lifeline.registered (m := ⟨0⟩) "first" Core.object default (.start {}) (by decide)
      (fun p hp ↦ absurd hp.symm (Option.some_ne_none p)) rfl
  have hback : Act ⟨[(⟨0⟩, ⟨0, 0⟩)], .oneStep⟩ ⟨[], .oneDone⟩ := .back default default (.ok (.done .nil))
  exact (hone.act act_oneStep).act hback

theorem run_reused : Run ⟨[], .oneDone⟩ ⟨[], .reused⟩ :=
  .head (.sweep ⟨0⟩) (.single (.register _ _ _ (by decide) fun p hp ↦ absurd hp.symm (Option.some_ne_none p)))

theorem handle_lives_once_reused :
    (World.reused.entryAt ⟨0⟩ ⟨0, 1⟩).isSome = true ∧
      World.reused.status ⟨⟨0⟩, ⟨0, 0⟩, "first", ⟨0⟩⟩ = .completed :=
  ⟨rfl, ((handle_lives_once lifeline_oneDone).2.1 rfl _ run_reused).1.trans rfl⟩

end MindScript
