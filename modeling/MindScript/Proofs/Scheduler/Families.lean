import MindScript.Proofs.Scheduler.Reachable

/-!
# Parents and children

A frame ends together with the frames below it, so nobody is left behind.  The one exception does not last:
a child that is running when its parent ends only takes note that it has to stop, and stops when its step
returns.
-/

namespace MindScript

namespace Moment.Valid

variable {M : Moment} {m : MindId} {id k p : FrameId} {e c : FrameEntry}

theorem child_resolves (h : M.Valid) (he : M.world.entryAt m p = some e) (hk : k ∈ e.children) :
    ∃ c, M.world.entryAt m k = some c ∧ M.world.isFinished c.handle = false ∧ c.parent = some p := by
  obtain ⟨cell, hcard⟩ := h.sound.filed.card he
  obtain ⟨b, hb, hu, hparent, -⟩ := h.sound.child m p _ k hcard hk
  obtain ⟨c, hc, -, hcb⟩ := World.card_eq_some_iff.mp hb
  have hhandle : c.handle = b.handle := congrArg Card.handle hcb
  have hcparent : c.parent = b.parent := congrArg Card.parent hcb
  refine ⟨c, hc, ?_, hcparent.trans hparent⟩
  rw [hhandle, World.isFinished_of_card hb, hu]

theorem children_nodup (h : M.Valid) (he : M.world.entryAt m p = some e) : e.children.toList.Nodup := by
  obtain ⟨cell, hcard⟩ := h.sound.filed.card he
  have honce := h.sound.once m p _ hcard
  exact honce

/-- A running frame is on the stack of steps. -/
theorem stacked_of_running (h : M.Valid) (hc : M.world.entryAt m k = some c)
    (hrun : M.world.status c.handle = .running) : (m, k) ∈ M.stack := by
  obtain ⟨cell, hcard⟩ := h.sound.filed.card hc
  have hfits := h.sound.fits m k _ hcard
  have hstatus : (c.card cell).status = .running := (World.status_of_card hcard).symm.trans hrun
  exact (hfits.framed (Card.isFinished_of_running hstatus) (hfits.taken hstatus (Set.notMem_empty _))).2

theorem kept_by_parent (h : M.Valid) (hc : M.world.entryAt m k = some c)
    (hu : M.world.isFinished c.handle = false) (hp : c.parent = some p) :
    (∃ e, M.world.entryAt m p = some e ∧ M.world.isFinished e.handle = false ∧ k ∈ e.children) ∨
      M.world.status c.handle = .running ∧ c.stopRequested = true := by
  obtain ⟨cell, hcard⟩ := h.sound.filed.card hc
  have hu' : (c.card cell).isFinished = false := (World.isFinished_of_card hcard).symm.trans hu
  rcases h.sound.kept m k _ p hcard hu' hp (Set.notMem_empty _) with ⟨hrun, hstop⟩ | ⟨a, ha, hua, hmem⟩
  · exact .inr ⟨(World.status_of_card hcard).trans hrun, hstop⟩
  · obtain ⟨e, he, -, hea⟩ := World.card_eq_some_iff.mp ha
    have hhandle : e.handle = a.handle := congrArg Card.handle hea
    have hchildren : e.children = a.children := congrArg Card.children hea
    refine .inl ⟨e, he, ?_, hchildren ▸ hmem⟩
    rw [hhandle, World.isFinished_of_card ha, hua]

end Moment.Valid

/-- In every reachable moment, each child of a frame resolves to an unfinished frame of which it is the parent,
and is its child once; and each unfinished frame with a parent is a child of that parent, which is not
finished either, or is in the middle of a step and about to stop.  Where no step is under way, no
unfinished frame has lost its parent. -/
theorem no_frame_is_orphaned {M : Moment} (h : Reachable M) (m : MindId) :
    (∀ p e, M.world.entryAt m p = some e → e.children.toList.Nodup ∧ ∀ k ∈ e.children,
      ∃ c, M.world.entryAt m k = some c ∧ M.world.isFinished c.handle = false ∧ c.parent = some p) ∧
    (∀ k c p, M.world.entryAt m k = some c → M.world.isFinished c.handle = false → c.parent = some p →
      (∃ e, M.world.entryAt m p = some e ∧ M.world.isFinished e.handle = false ∧ k ∈ e.children) ∨
        M.world.status c.handle = .running ∧ c.stopRequested = true ∧ (m, k) ∈ M.stack) ∧
    (M.world.current = none → ∀ k c p, M.world.entryAt m k = some c →
      M.world.isFinished c.handle = false → c.parent = some p →
      ∃ e, M.world.entryAt m p = some e ∧ M.world.isFinished e.handle = false ∧ k ∈ e.children) := by
  have hvalid := h.valid
  refine ⟨fun p e he ↦ ⟨hvalid.children_nodup he, fun k hk ↦ hvalid.child_resolves he hk⟩, ?_, ?_⟩
  · intro k c p hc hu hp
    rcases hvalid.kept_by_parent hc hu hp with hkept | ⟨hrun, hstop⟩
    · exact .inl hkept
    · exact .inr ⟨hrun, hstop, hvalid.stacked_of_running hc hrun⟩
  · intro hidle k c p hc hu hp
    rcases hvalid.kept_by_parent hc hu hp with hkept | ⟨hrun, -⟩
    · exact hkept
    · -- The running frame would be on a stack that is empty.
      have hmem := hvalid.stacked_of_running hc hrun
      have hempty : M.stack = [] := List.head?_eq_none_iff.mp (hvalid.current.symm.trans hidle)
      rw [hempty] at hmem
      exact absurd hmem List.not_mem_nil

theorem no_frame_is_orphaned_parentAndChild :
    (∃ e, World.parentAndChild.entryAt ⟨0⟩ ⟨0, 0⟩ = some e ∧ e.children = #[⟨1, 0⟩]) ∧
    ∃ c, World.parentAndChild.entryAt ⟨0⟩ ⟨1, 0⟩ = some c ∧
      World.parentAndChild.isFinished c.handle = false ∧ c.parent = some ⟨0, 0⟩ := by
  have hparent : ∃ e, World.parentAndChild.entryAt ⟨0⟩ ⟨0, 0⟩ = some e ∧ e.children = #[⟨1, 0⟩] :=
    ⟨_, rfl, rfl⟩
  obtain ⟨e, he, hchildren⟩ := hparent
  refine ⟨⟨e, he, hchildren⟩, ?_⟩
  exact ((no_frame_is_orphaned reachable_parentAndChild ⟨0⟩).1 ⟨0, 0⟩ e he).2 ⟨1, 0⟩ (by simp [hchildren])

end MindScript
