import Mathlib.Data.List.Nodup
import MindScript.Proofs.Scheduler.Finish

/-!
# Actions of the scheduler keep the world sound

Beginning a step, coming back from one, registering, detaching, delivering and sweeping.
-/

namespace MindScript.Sound

variable {X X' : Set FrameKey} {stack stack' : List FrameKey} {w w' : World} {m : MindId} {id : FrameId}
  {c : Card}

/-! ### Steps -/

/-- A frame is taken out for a step. -/
theorem takeFrame (h : Sound X stack w) {e : FrameEntry} (he : w.entryAt m id = some e)
    (hu : w.isFinished e.handle = false) {frame : Frame} (hframe : e.frame = some frame) :
    Sound X ((m, id) :: stack) (w.takeFrame m id e frame) := by
  obtain ⟨cell, hc⟩ := h.filed.card he
  have hfits := h.fits m id _ hc
  have hcell := h.cell_fits hc
  have hu' : (e.card cell).isFinished = false := (World.isFinished_of_card hc).symm.trans hu
  have hnot : (m, id) ∉ stack := by
    intro hmem
    have hnone : e.frame = none := (hfits.stacked hmem).2
    simp [hframe] at hnone
  refine h.reviseAt (World.revised_takeFrame h.filed he frame) hc ?_ ?_ (fun _ _ hk ↦ hk) ?_ ?_ rfl ?_
    (.refl _) (fun k hk hk' ↦ absurd hk hk') fun hx ↦ .inr ⟨hx, fun hy ↦ ⟨rfl, hy.2⟩⟩
  · -- An unfinished coroutine has neither a result nor an error.
    have hresult := mt hcell.result.mp (by intro hs; simp [Card.isFinished, hs, FrameStatus.isFinished] at hu')
    have herror := mt hcell.error.mp (by intro hs; simp [Card.isFinished, hs, FrameStatus.isFinished] at hu')
    exact ⟨iff_of_false hresult (by simp [Card.begun]), iff_of_false herror (by simp [Card.begun])⟩
  · exact ⟨fun _ _ ↦ ⟨rfl, List.mem_cons_self⟩, fun _ _ ↦ rfl, fun _ ↦ ⟨rfl, rfl⟩,
      ⟨fun h ↦ absurd h (by simp [Card.begun]), fun h ↦ absurd h (by simp [Card.begun, Card.status])⟩,
      fun hfin ↦ absurd hfin (by simp [Card.begun, Card.isFinished, FrameStatus.isFinished])⟩
  · intro k hne
    simp [hne]
  · exact List.nodup_cons.mpr ⟨hnot, h.distinct⟩
  · rw [hu']
    rfl

/-- The frame of a step is put back, but nothing else has been done about it. -/
theorem putBack (h : Sound ∅ ((m, id) :: stack) w) (frame : Frame) :
    Sound {(m, id)} stack (w.modifyEntry m id fun e ↦ { e with frame := some frame }) := by
  have hG := World.revised_putBack h.filed m id frame
  obtain ⟨c, hc⟩ := h.card_of_mem List.mem_cons_self
  have hfits := h.fits m id c hc
  have hcell := h.cell_fits hc
  obtain ⟨hnot, hdistinct⟩ := List.nodup_cons.mp h.distinct
  have hu := h.unfinished_of_mem List.mem_cons_self hc
  refine h.reviseAt hG hc hcell ?_ (fun _ _ hk ↦ absurd hk (Set.notMem_empty _)) ?_ hdistinct rfl rfl
    (.refl _) (fun k hk hk' ↦ absurd hk hk') fun hx ↦ absurd (Set.mem_singleton _) hx
  · refine ⟨fun _ hframe ↦ ?_, fun _ hx ↦ absurd (Set.mem_singleton _) hx, fun hmem ↦ absurd hmem hnot,
      hfits.waits, fun hfin ↦ ?_⟩
    · simp at hframe
    · have hfin : c.isFinished = true := hfin
      rw [hu] at hfin
      exact absurd hfin Bool.false_ne_true
  · intro k hne
    simp [hne]

/-- The frame of a step is put back and falls asleep.  If it was told to stop meanwhile, it may be left
without its parent until it stops. -/
theorem returnAsleep (h : Sound ∅ ((m, id) :: stack) w) (hc : w.card m id = some c)
    (hX : c.stopRequested = true → (m, id) ∈ X) (frame : Frame) (wake : Wake) :
    Sound X stack ((w.modifyEntry m id fun e ↦ { e with frame := some frame }).sleep m id wake) := by
  have hback := World.revised_putBack h.filed m id frame
  obtain ⟨e, he, -, -⟩ := World.card_eq_some_iff.mp hc
  have he' := World.entryAt_modifyEntry_self he fun e ↦ { e with frame := some frame }
  have hG : World.Revised (World.atFrame m id fun c ↦ ({ c with frame := some frame } : Card).asleep wake) w
      ((w.modifyEntry m id fun e ↦ { e with frame := some frame }).sleep m id wake) := by
    refine (hback.trans (World.revised_sleep hback.filed he' wake)).congr fun m' k b _ ↦ ?_
    unfold World.atFrame
    split <;> rfl
  have hfits := h.fits m id c hc
  have hcell := h.cell_fits hc
  obtain ⟨hnot, hdistinct⟩ := List.nodup_cons.mp h.distinct
  have hrun := h.running_of_mem List.mem_cons_self hc
  refine h.reviseAt hG hc ?_ ?_ (fun _ _ hk ↦ absurd hk (Set.notMem_empty _)) ?_ hdistinct rfl ?_
    (.refl _) (fun k hk hk' ↦ absurd hk hk') ?_
  · have hresult := mt hcell.result.mp (by simp [hrun])
    have herror := mt hcell.error.mp (by simp [hrun])
    exact ⟨iff_of_false hresult (by simp [Card.asleep]), iff_of_false herror (by simp [Card.asleep])⟩
  · refine ⟨fun _ hframe ↦ ?_, fun hs ↦ ?_, fun hmem ↦ absurd hmem hnot, ⟨fun _ ↦ rfl, fun _ ↦ rfl⟩,
      fun hfin ↦ ?_⟩
    · simp [Card.asleep] at hframe
    · simp [Card.asleep, Card.status] at hs
    · simp [Card.asleep, Card.isFinished, FrameStatus.isFinished] at hfin
  · intro k hne
    simp [hne]
  · simp [Card.asleep, Card.isFinished, FrameStatus.isFinished, hrun]
  · intro hx
    refine .inr ⟨Set.notMem_empty _, fun hy ↦ absurd (hX hy.2) hx⟩

/-! ### Events, settings and detached children -/

theorem notify (h : Sound X stack w) (m : MindId) (event : String) (payload : Ref) :
    Sound X stack (w.notify m event payload).2 := by
  obtain ⟨woken, hG, hwoken⟩ := World.revised_notify h.filed m event payload
  refine h.adjust (hG.congr fun m' k b _ ↦ World.delivering_eq m woken payload m' k b)
    (fun _ _ b hb ↦ (h.cell_fits hb : b.cell.Fits)) (fun m' k b hb ↦ ?_) h.stacked h.distinct
    (fun _ _ _ _ ↦ ⟨rfl, rfl, rfl⟩) fun _ _ _ _ hx ↦ ⟨hx, fun hy ↦ hy⟩
  have hfits := h.fits m' k b hb
  refine { hfits with done := fun hfin ↦ ?_ }
  have hfin : b.isFinished = true := hfin
  obtain ⟨hframe, hdelivered, hlinks⟩ := hfits.done hfin
  refine ⟨hframe, ?_, hlinks⟩
  -- A frame that has finished is not woken.
  have hnot : ¬(m' = m ∧ k ∈ woken) := by
    rintro ⟨rfl, hk⟩
    obtain ⟨e, he, -, hu⟩ := hwoken k hk
    obtain ⟨cell, hcell⟩ := h.filed.card he
    obtain rfl := Option.some.inj (hcell.symm.trans hb)
    exact Bool.false_ne_true (hu.symm.trans ((World.isFinished_of_card hb).trans hfin))
  exact (if_neg hnot).trans hdelivered

theorem setUpdateInterval (h : Sound X stack w) (x : Handle) (seconds : Float) :
    Sound X stack (w.setUpdateInterval x seconds) :=
  h.adjust (World.revised_setUpdateInterval h.filed x seconds) (fun _ _ _ hc ↦ h.cell_fits hc) h.fits h.stacked
    h.distinct (fun _ _ _ _ ↦ ⟨rfl, rfl, rfl⟩) fun _ _ _ _ hx ↦ ⟨hx, fun hy ↦ hy⟩

theorem detachChildren (h : Sound X stack w) (m : MindId) (id : FrameId) :
    Sound X stack (w.detachChildren m id) := by
  cases he : w.entryAt m id with
  | none => rwa [World.detachChildren_of_none he]
  | some e =>
    obtain ⟨cell, hc⟩ := h.filed.card he
    refine h.revise ((World.revised_detachChildren h.filed he).congr fun m' k b _ ↦
      World.detaching_eq m id e.children m' k b) (fun _ _ b hb ↦ (h.cell_fits hb : b.cell.Fits)) ?_ h.stacked
      h.distinct ?_ ?_ ?_
    · intro m' k b hb
      have hfits := h.fits m' k b hb
      refine { hfits with done := fun hfin ↦ ?_ }
      obtain ⟨hframe, hdelivered, hparent, hchildren⟩ := hfits.done hfin
      exact ⟨hframe, hdelivered, by simp [hparent], by simp [hchildren]⟩
    · intro m' p a _
      dsimp only
      split
      · exact List.nil_sublist _
      · exact .refl _
    · intro m' p a k b ha hk hb hu hp
      refine ⟨hu, ?_⟩
      dsimp only at hk ⊢
      split at hk
      · simp at hk
      · next hne =>
        rw [if_neg, hp]
        -- A child of the frame that gives its children away has that frame as its parent.
        rintro ⟨rfl, hmem⟩
        obtain ⟨b', hb', -, hp', -⟩ := h.child m' id _ k hc hmem
        obtain rfl := Option.some.inj (hb'.symm.trans hb)
        exact hne ⟨rfl, Option.some.inj (hp.symm.trans hp')⟩
    · intro m' k b p hb hu hp hx
      dsimp only at hp
      split at hp
      · exact absurd hp.symm (Option.some_ne_none p)
      · next hnot =>
        rcases h.kept m' k b p hb hu hp hx with hy | ⟨a, ha, hua, hmem⟩
        · exact .inl hy
        · refine .inr ⟨a, ha, hua, ?_⟩
          dsimp only
          rw [if_neg]
          · exact hmem
          · rintro ⟨rfl, rfl⟩
            obtain rfl := Option.some.inj (hc.symm.trans ha)
            exact hnot ⟨rfl, hmem⟩

/-! ### Registering -/

/-- The card of a new frame fits. -/
theorem fits_fresh {exempt onStack : Prop} (x : Handle) (parent : Option FrameId) (frame : Frame) (hstack : ¬onStack) :
    (World.freshCard x parent frame).Fits exempt onStack := by
  refine ⟨fun _ hframe ↦ ?_, fun hs ↦ ?_, fun hon ↦ absurd hon hstack, ⟨fun hw ↦ ?_, fun hs ↦ ?_⟩, fun hfin ↦ ?_⟩
  · simp [World.freshCard] at hframe
  · simp [World.freshCard, Card.status] at hs
  · simp [World.freshCard] at hw
  · simp [World.freshCard, Card.status] at hs
  · simp [World.freshCard, Card.isFinished, FrameStatus.isFinished] at hfin

/-- The children of a frame are its children still, and the new frame may be one more. -/
theorem child_registered (h : Sound X stack w) {parent : Option FrameId} {x : Handle}
    (hr : World.Registered m parent x w w') {m' : MindId} {p k : FrameId} {a : Card} (ha : w.card m' p = some a)
    (hk : k ∈ (World.adopting m parent x.frame m' p a).children) :
    ∃ b, w'.card m' k = some b ∧ b.isFinished = false ∧ b.parent = some p ∧ a.age < b.age := by
  have hold (hk : k ∈ a.children) :
      ∃ b, w'.card m' k = some b ∧ b.isFinished = false ∧ b.parent = some p ∧ a.age < b.age := by
    obtain ⟨b, hb, hrest⟩ := h.child m' p a k ha hk
    exact ⟨_, hr.card_of_card hb, hrest⟩
  simp only [World.adopting] at hk
  split at hk
  · next hp =>
    obtain ⟨rfl, hp⟩ := hp
    rcases Array.mem_push.mp hk with hk | rfl
    · exact hold hk
    · obtain ⟨frame, hfresh⟩ := hr.fresh
      refine ⟨_, hfresh, rfl, hp, ?_⟩
      have hlt := World.index_of_cell? (Option.isSome_iff_exists.mpr ⟨_, World.cell_of_card ha⟩)
      have hage : (World.freshCard x parent frame).age = w.heap.outcomes.size := hr.outcome
      rw [hage]
      exact hlt
  · exact hold hk

/-- The new frame was no child of anybody. -/
theorem once_registered (h : Sound X stack w) {parent : Option FrameId} {x : Handle}
    (hr : World.Registered m parent x w w') {m' : MindId} {p : FrameId} {a : Card} (ha : w.card m' p = some a) :
    (World.adopting m parent x.frame m' p a).children.toList.Nodup := by
  have honce := h.once m' p a ha
  simp only [World.adopting]
  split
  · next hp =>
    obtain ⟨rfl, -⟩ := hp
    have hnew : x.frame ∉ a.children.toList := by
      intro hmem
      obtain ⟨b, hb, -⟩ := h.child m' p a x.frame ha (Array.mem_toList_iff.mp hmem)
      exact hr.ne_of_card hb ⟨rfl, rfl⟩
    rw [Array.toList_push, ← List.concat_eq_append]
    exact List.Nodup.concat hnew honce
  · exact honce

/-- A new frame is registered, if it has a parent then with one that is not finished. -/
theorem registered (h : Sound X stack w) {parent : Option FrameId} {x : Handle}
    (hr : World.Registered m parent x w w')
    (hparent : ∀ p, parent = some p → ∃ a, w.card m p = some a ∧ a.isFinished = false) :
    Sound X stack w' := by
  refine ⟨hr.filed, ?_, ?_, ?_, h.distinct, ?_, ?_, ?_⟩
  · intro o c hc
    rw [hr.cells] at hc
    split at hc
    · rw [← Option.some.inj hc]
      exact ⟨by simp, by simp⟩
    · exact h.cells o c hc
  · intro m' k b' hb'
    rcases hr.card_cases hb' with ⟨rfl, rfl, frame, rfl⟩ | ⟨b, hb, rfl⟩
    · refine fits_fresh x parent frame fun hmem ↦ ?_
      have hsome := h.stacked _ _ hmem
      simp [hr.unused] at hsome
    · have hfits := h.fits m' k b hb
      refine { hfits with done := fun hfin ↦ ?_ }
      have hfin : b.isFinished = true := hfin
      obtain ⟨hframe, hdelivered, hp, hchildren⟩ := hfits.done hfin
      refine ⟨hframe, hdelivered, hp, ?_⟩
      -- The parent is not finished.
      have hnot : ¬(m' = m ∧ parent = some k) := by
        rintro ⟨rfl, hp⟩
        obtain ⟨a, ha, hua⟩ := hparent k hp
        obtain rfl := Option.some.inj (ha.symm.trans hb)
        exact Bool.false_ne_true (hua.symm.trans hfin)
      exact (if_neg hnot).trans hchildren
  · intro m' k hmem
    obtain ⟨b, hb⟩ := h.card_of_mem hmem
    rw [hr.card_of_card hb, Option.isSome_some]
  · intro m' p a' k ha' hk
    rcases hr.card_cases ha' with ⟨rfl, rfl, frame, rfl⟩ | ⟨a, ha, rfl⟩
    · simp [World.freshCard] at hk
    · have hchild := h.child_registered hr ha hk
      exact hchild
  · intro m' p a' ha'
    rcases hr.card_cases ha' with ⟨rfl, rfl, frame, rfl⟩ | ⟨a, ha, rfl⟩
    · exact List.nodup_nil
    · exact h.once_registered hr ha
  · intro m' k b' p hb' hu hp hx
    rcases hr.card_cases hb' with ⟨rfl, rfl, frame, rfl⟩ | ⟨b, hb, rfl⟩
    · have hp : parent = some p := hp
      obtain ⟨a, ha, hua⟩ := hparent p hp
      exact .inr ⟨_, hr.card_of_card ha, hua, by simp [World.adopting, hp]⟩
    · rcases h.kept m' k b p hb hu hp hx with hy | ⟨a, ha, hua, hmem⟩
      · exact .inl hy
      · refine .inr ⟨_, hr.card_of_card ha, hua, ?_⟩
        simp only [World.adopting]
        split
        · exact Array.mem_push_of_mem _ hmem
        · exact hmem

/-! ### Sweeping -/

/-- Finished frames are removed. -/
theorem swept (h : Sound X stack w) (hs : World.Swept w w') : Sound X stack w' := by
  refine ⟨hs.filed, ?_, fun m id c hc ↦ h.fits m id c (hs.back hc), ?_, h.distinct, ?_,
    fun m p a ha ↦ h.once m p a (hs.back ha), ?_⟩
  · rw [hs.cells]
    exact h.cells
  · intro m id hmem
    obtain ⟨c, hc⟩ := h.card_of_mem hmem
    rw [hs.stays hc (h.unfinished_of_mem hmem hc), Option.isSome_some]
  · intro m p a k ha hk
    obtain ⟨b, hb, hu, hrest⟩ := h.child m p a k (hs.back ha) hk
    exact ⟨b, hs.stays hb hu, hu, hrest⟩
  · intro m id b p hb hu hp hx
    rcases h.kept m id b p (hs.back hb) hu hp hx with hy | ⟨a, ha, hua, hmem⟩
    · exact .inl hy
    · exact .inr ⟨a, hs.stays ha hua, hua, hmem⟩

/-! ### Minds -/

theorem createMind (h : Sound X stack w) (name : String) : Sound X stack (w.createMind name).2 := by
  have hcard := World.card_createMind w name
  have hcells := h.cells
  exact ⟨h.filed.createMind name, hcells, by rw [hcard]; exact h.fits, by rw [hcard]; exact h.stacked,
    h.distinct, by rw [hcard]; exact h.child, by rw [hcard]; exact h.once, by rw [hcard]; exact h.kept⟩

end MindScript.Sound
