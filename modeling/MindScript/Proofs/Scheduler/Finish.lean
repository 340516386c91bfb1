import MindScript.Proofs.Scheduler.Sound

/-!
# Finishing a frame

A frame that finishes stops the frames below it first.  The bound on the depth never matters, since a child
is younger than its parent.  What happens before the frame itself settles concerns younger frames only: some
of them stop, or take note that they are to stop.
-/

namespace MindScript

/-- What stopping can do to a card: the frame has stopped or has taken note, or it has lost children. -/
structure Card.Fades (c c' : Card) : Prop where
  handle : c'.handle = c.handle
  children : c'.children.toList.Sublist c.children.toList
  wake : c'.wake = c.wake ∨ c'.wake = none
  told : c.stopRequested = true → c'.stopRequested = true
  cell : c'.cell = c.cell ∨
    c.isFinished = false ∧ c'.cell = { c.cell with status := .stopped, result := none, error := none }

theorem Card.Fades.refl (c : Card) : c.Fades c := ⟨rfl, .refl _, .inl rfl, fun ht ↦ ht, .inl rfl⟩

theorem Card.Fades.age {c c' : Card} (h : c.Fades c') : c'.age = c.age := by
  rw [Card.age, h.handle]
  rfl

theorem Card.Fades.trans {c c' c'' : Card} (h : c.Fades c') (h' : c'.Fades c'') : c.Fades c'' := by
  refine ⟨h'.handle.trans h.handle, h'.children.trans h.children, ?_, fun ht ↦ h'.told (h.told ht), ?_⟩
  · rcases h'.wake with hw' | hw'
    · rw [hw']
      exact h.wake
    · exact .inr hw'
  · rcases h'.cell with hc' | ⟨hu', hc'⟩
    · rw [hc']
      exact h.cell
    · rcases h.cell with hc | ⟨-, hc⟩
      · refine .inr ⟨?_, by rw [hc', hc]⟩
        rw [Card.isFinished, ← hc]
        exact hu'
      · rw [Card.isFinished, hc] at hu'
        exact absurd hu' (by simp [FrameStatus.isFinished])

/-- Frames may have stopped, but none that is older than a given age; and nothing else about frames
changes. -/
structure Fading (age : Nat) (w w' : World) : Prop where
  card : ∀ m id, (w.card m id = none ∧ w'.card m id = none) ∨
    ∃ c c', w.card m id = some c ∧ w'.card m id = some c' ∧ c.Fades c' ∧
      (c.age < age → c' = { c with children := c'.children })
  orphan : ∀ o, (∀ m id c, w.card m id = some c → c.handle.outcome ≠ o) → w'.cell? o = w.cell? o
  outcomes : w'.heap.outcomes.size = w.heap.outcomes.size
  minds : w'.minds.size = w.minds.size

namespace Fading

variable {w w' w'' : World} {age : Nat} {G : MindId → FrameId → Card → Card}

theorem of_revised (h : World.Revised G w w') (hG : ∀ m id c, w.card m id = some c →
    c.Fades (G m id c) ∧ (c.age < age → G m id c = { c with children := (G m id c).children })) :
    Fading age w w' := by
  refine ⟨fun m id ↦ ?_, h.orphan, h.outcomes, h.minds⟩
  rw [h.card]
  cases hc : w.card m id with
  | none => exact .inl ⟨rfl, rfl⟩
  | some c => exact .inr ⟨c, G m id c, rfl, rfl, hG m id c hc⟩

theorem refl (age : Nat) (w : World) : Fading age w w := by
  refine ⟨fun m id ↦ ?_, fun _ _ ↦ rfl, rfl, rfl⟩
  cases hc : w.card m id with
  | none => exact .inl ⟨rfl, rfl⟩
  | some c => exact .inr ⟨c, c, rfl, rfl, .refl c, fun _ ↦ rfl⟩

theorem some_of_some (h : Fading age w w') {m : MindId} {id : FrameId} {c : Card}
    (hc : w.card m id = some c) : ∃ c', w'.card m id = some c' ∧ c.Fades c' ∧
      (c.age < age → c' = { c with children := c'.children }) := by
  rcases h.card m id with ⟨hnone, -⟩ | ⟨b, c', hb, hc', hfades, hold⟩
  · simp [hnone] at hc
  · obtain rfl := Option.some.inj (hb.symm.trans hc)
    exact ⟨c', hc', hfades, hold⟩

theorem some_of_some' (h : Fading age w w') {m : MindId} {id : FrameId} {c' : Card}
    (hc' : w'.card m id = some c') : ∃ c, w.card m id = some c ∧ c.Fades c' := by
  rcases h.card m id with ⟨-, hnone⟩ | ⟨c, b, hc, hb, hfades, -⟩
  · simp [hnone] at hc'
  · obtain rfl := Option.some.inj (hb.symm.trans hc')
    exact ⟨c, hc, hfades⟩

theorem trans (h : Fading age w w') (h' : Fading age w' w'') : Fading age w w'' := by
  refine ⟨fun m id ↦ ?_, fun o ho ↦ ?_, h'.outcomes.trans h.outcomes, h'.minds.trans h.minds⟩
  · rcases h.card m id with ⟨hnone, hnone'⟩ | ⟨c, c', hc, hc', hfades, hold⟩
    · rcases h'.card m id with ⟨-, hnone''⟩ | ⟨c', _, hc', _⟩
      · exact .inl ⟨hnone, hnone''⟩
      · simp [hnone'] at hc'
    · obtain ⟨c'', hc'', hfades', hold'⟩ := h'.some_of_some hc'
      refine .inr ⟨c, c'', hc, hc'', hfades.trans hfades', fun hage ↦ ?_⟩
      have hage' : c'.age < age := by rwa [hfades.age]
      rw [hold' hage', hold hage]
  · rw [h'.orphan o, h.orphan o ho]
    intro m id c' hc'
    obtain ⟨c, hc, hfades⟩ := h.some_of_some' hc'
    rw [hfades.handle]
    exact ho m id c hc

theorem mono {age' : Nat} (h : Fading age' w w') (hage : age ≤ age') : Fading age w w' := by
  refine ⟨fun m id ↦ ?_, h.orphan, h.outcomes, h.minds⟩
  rcases h.card m id with hnone | ⟨c, c', hc, hc', hfades, hold⟩
  · exact .inl hnone
  · exact .inr ⟨c, c', hc, hc', hfades, fun hlt ↦ hold (Nat.lt_of_lt_of_le hlt hage)⟩

end Fading

/-- The first of the frames that are exempt. -/
theorem Sound.exempt_cons {X : Set FrameKey} {stack : List FrameKey} {w : World} {m : MindId} {id : FrameId}
    {rest : List FrameId} (h : Sound (X ∪ {k | k.1 = m ∧ k.2 ∈ id :: rest}) stack w) :
    Sound (insert (m, id) (X ∪ {k | k.1 = m ∧ k.2 ∈ rest})) stack w := by
  refine h.mono fun k hk ↦ ?_
  rcases hk with hk | ⟨hm, hk⟩
  · exact .inr (.inl hk)
  · rcases List.mem_cons.mp hk with hk | hk
    · exact .inl (Prod.ext hm hk)
    · exact .inr (.inr ⟨hm, hk⟩)

namespace World

variable {X : Set FrameKey} {stack : List FrameKey} {w : World} {m : MindId} {id : FrameId} {c : Card}

/-! ### The single changes -/

theorem fading_clear (hw : w.Filed) (m : MindId) (id : FrameId) (age : Nat) :
    Fading age w (w.modifyEntry m id fun e ↦ { e with children := #[] }) := by
  refine .of_revised (revised_clear hw m id) fun m' k b _ ↦ ?_
  unfold atFrame
  split
  · exact ⟨⟨rfl, List.nil_sublist _, .inl rfl, fun ht ↦ ht, .inl rfl⟩, fun _ ↦ rfl⟩
  · exact ⟨.refl b, fun _ ↦ rfl⟩

theorem fading_mark (hw : w.Filed) (hc : w.card m id = some c) :
    Fading c.age w (w.modifyEntry m id fun e ↦ { e with stopRequested := true }) := by
  refine .of_revised (revised_tell hw m id) fun m' k b hb ↦ ?_
  unfold atFrame
  split
  · next hk =>
    obtain ⟨rfl, rfl⟩ := hk
    obtain rfl := Option.some.inj (hc.symm.trans hb)
    exact ⟨⟨rfl, .refl _, .inl rfl, fun _ ↦ rfl, .inl rfl⟩, fun hlt ↦ absurd hlt (Nat.lt_irrefl _)⟩
  · exact ⟨.refl b, fun _ ↦ rfl⟩

theorem fading_settle (hw : w.Filed) {e : FrameEntry} (he : w.entryAt m id = some e)
    (hu : w.isFinished e.handle = false) (hchildren : e.children = #[]) :
    Fading e.handle.outcome.index w (w.settle m id .stopped) := by
  refine .of_revised (revised_settle hw he hu .stopped) fun m' k b hb ↦ ?_
  obtain ⟨cell, hc⟩ := hw.card he
  have hown (hk : m' = m ∧ k = id) : b = e.card cell := by
    obtain ⟨rfl, rfl⟩ := hk
    exact Option.some.inj (hb.symm.trans hc)
  rcases settling_cases m id e.parent .stopped (Ending.stopped.error?.map (w.withFrameOrigin e)) m' k
      (fun hk ↦ (congrArg Card.children (hown hk)).trans hchildren) with ⟨hk, heq⟩ | ⟨-, ⟨-, heq⟩ | ⟨-, heq⟩⟩ <;> rw [heq]
  · obtain rfl := hown hk
    have hub : (e.card cell).isFinished = false := (isFinished_of_card hc).symm.trans hu
    exact ⟨⟨rfl, .refl _, .inr rfl, fun ht ↦ ht, .inr ⟨hub, rfl⟩⟩, fun hlt ↦ absurd hlt (Nat.lt_irrefl _)⟩
  · refine ⟨⟨rfl, ?_, .inl rfl, fun ht ↦ ht, .inl rfl⟩, fun _ ↦ rfl⟩
    rw [Card.toList_children_without]
    exact List.erase_sublist
  · exact ⟨.refl b, fun _ ↦ rfl⟩

/-! ### What stopping and ending come to -/

theorem isFinished_of_entry {e : FrameEntry} (he : w.entryAt m id = some e) (hc : w.card m id = some c) :
    w.isFinished e.handle = c.isFinished ∧ e.frame = c.frame ∧ e.children = c.children := by
  obtain ⟨e', he', -, hcard⟩ := card_eq_some_iff.mp hc
  obtain rfl := Option.some.inj (he.symm.trans he')
  have hhandle : e.handle = c.handle := congrArg Card.handle hcard
  refine ⟨?_, congrArg Card.frame hcard, congrArg Card.children hcard⟩
  rw [hhandle, isFinished_of_card hc]

/-- A frame in the middle of a step is told to stop. -/
theorem stopWith_of_running (finish : World → FrameId → World) (hc : w.card m id = some c)
    (hu : c.isFinished = false) (hframe : c.frame = none) :
    stopWith finish m w id = w.modifyEntry m id fun e ↦ { e with stopRequested := true } := by
  obtain ⟨e, he, -⟩ := card_eq_some_iff.mp hc
  obtain ⟨hfin, heframe, -⟩ := isFinished_of_entry he hc
  unfold stopWith
  simp [he, hfin, heframe, hu, hframe]

/-- Any other frame ends. -/
theorem stopWith_of_stored (finish : World → FrameId → World) (hc : w.card m id = some c)
    (hu : c.isFinished = false) (hframe : c.frame.isSome = true) :
    stopWith finish m w id = finish w id := by
  obtain ⟨e, he, -⟩ := card_eq_some_iff.mp hc
  obtain ⟨hfin, heframe, -⟩ := isFinished_of_entry he hc
  have hsome : e.frame.isNone = false := by rw [heframe, ← Option.not_isSome, hframe, Bool.not_true]
  unfold stopWith
  simp [he, hfin, hsome, hu]

theorem stopWith_of_finished (finish : World → FrameId → World) (hc : w.card m id = some c)
    (hfin : c.isFinished = true) : stopWith finish m w id = w := by
  obtain ⟨e, he, -⟩ := card_eq_some_iff.mp hc
  obtain ⟨hefin, -⟩ := isFinished_of_entry he hc
  unfold stopWith
  simp [he, hefin, hfin]

/-- The children are taken from the frame and stopped, and then the frame settles. -/
theorem finishWithin_succ (n : Nat) (hc : w.card m id = some c) (hu : c.isFinished = false) (ending : Ending) :
    finishWithin (n + 1) m w id ending =
      (c.children.toList.foldl (stopWith (fun w k ↦ finishWithin n m w k .stopped) m)
        (w.modifyEntry m id fun e ↦ { e with children := #[] })).settle m id ending := by
  obtain ⟨e, he, -⟩ := card_eq_some_iff.mp hc
  obtain ⟨hfin, -, hchildren⟩ := isFinished_of_entry he hc
  simp [finishWithin, he, hfin, hu, hchildren]

/-! ### Whole subtrees -/

/-- What ending a frame comes to: younger frames are stopped, and then the frame settles. -/
def Ends (X : Set FrameKey) (stack : List FrameKey) (m : MindId) (id : FrameId) (c : Card)
    (ending : Ending) (w w' : World) : Prop :=
  ∃ w₁, Sound (insert (m, id) X) stack w₁ ∧ Fading (c.age + 1) w w₁ ∧
    w₁.card m id = some { c with children := #[] } ∧ w' = w₁.settle m id ending

theorem Ends.sound {ending : Ending} {w' : World} (h : Ends X stack m id c ending w w')
    (hu : c.isFinished = false) (hstack : (m, id) ∉ stack) : Sound X stack w' := by
  obtain ⟨w₁, hsound, -, hc, rfl⟩ := h
  obtain ⟨e, he, hcell, hcard⟩ := card_eq_some_iff.mp hc
  have hhandle : e.handle = c.handle := congrArg Card.handle hcard
  have hchildren : e.children = #[] := congrArg Card.children hcard
  have hfin := isFinished_of_card hc
  exact hsound.settle he (by rw [hhandle]; exact hfin.trans hu) hchildren hstack ending

theorem Ends.fading {w' : World} (h : Ends X stack m id c .stopped w w') (hu : c.isFinished = false) :
    Fading c.age w w' := by
  obtain ⟨w₁, hsound, hfading, hc, rfl⟩ := h
  obtain ⟨e, he, hcell, hcard⟩ := card_eq_some_iff.mp hc
  have hhandle : e.handle = c.handle := congrArg Card.handle hcard
  have hchildren : e.children = #[] := congrArg Card.children hcard
  have hfin := isFinished_of_card hc
  have hsettle := fading_settle hsound.filed he (by rw [hhandle]; exact hfin.trans hu) hchildren
  rw [hhandle] at hsettle
  exact (hfading.mono (Nat.le_succ _)).trans hsettle

/-- One frame is stopped, given that frames can be ended to a certain depth. -/
theorem stopWith_finishWithin {n : Nat}
    (hends : ∀ X w id c, Sound (insert (m, id) X) stack w → w.card m id = some c → c.isFinished = false →
      (m, id) ∉ stack → w.heap.outcomes.size ≤ c.age + n →
      Ends X stack m id c .stopped w (finishWithin n m w id .stopped))
    (h : Sound (insert (m, id) X) stack w) (hc : w.card m id = some c)
    (hsize : w.heap.outcomes.size ≤ c.age + n) :
    Sound X stack (stopWith (fun w k ↦ finishWithin n m w k .stopped) m w id) ∧
      Fading c.age w (stopWith (fun w k ↦ finishWithin n m w k .stopped) m w id) := by
  cases hu : c.isFinished with
  | true =>
    rw [stopWith_of_finished _ hc hu]
    exact ⟨h.of_finished hc hu, .refl _ w⟩
  | false =>
    cases hf : c.frame with
    | none =>
      rw [stopWith_of_running _ hc hu hf]
      exact ⟨h.mark hc hu hf, fading_mark h.filed hc⟩
    | some frame =>
      rw [stopWith_of_stored _ hc hu (by rw [hf, Option.isSome_some])]
      have hstack : (m, id) ∉ stack := by
        intro hmem
        have hnone := ((h.fits m id c hc).stacked hmem).2
        simp [hf] at hnone
      have hend := hends X w id c h hc hu hstack hsize
      exact ⟨hend.sound hu hstack, hend.fading hu⟩

/-- Frames that are not older than a given age are stopped in turn. -/
theorem foldl_stopWith {n age : Nat}
    (hends : ∀ X w id c, Sound (insert (m, id) X) stack w → w.card m id = some c → c.isFinished = false →
      (m, id) ∉ stack → w.heap.outcomes.size ≤ c.age + n →
      Ends X stack m id c .stopped w (finishWithin n m w id .stopped))
    (ids : List FrameId) (h : Sound (X ∪ {k | k.1 = m ∧ k.2 ∈ ids}) stack w)
    (hage : ∀ k ∈ ids, ∃ c, w.card m k = some c ∧ age ≤ c.age) (hsize : w.heap.outcomes.size ≤ age + n) :
    Sound X stack (ids.foldl (stopWith (fun w k ↦ finishWithin n m w k .stopped) m) w) ∧
      Fading age w (ids.foldl (stopWith (fun w k ↦ finishWithin n m w k .stopped) m) w) := by
  induction ids generalizing w with
  | nil =>
    refine ⟨h.mono fun k hk ↦ ?_, .refl age w⟩
    rcases hk with hk | ⟨-, hk⟩
    · exact hk
    · exact absurd hk List.not_mem_nil
  | cons id rest ih =>
    rw [List.foldl_cons]
    obtain ⟨c, hc, hle⟩ := hage id List.mem_cons_self
    obtain ⟨hsound, hfading⟩ := stopWith_finishWithin hends h.exempt_cons hc (by omega)
    have hfading := hfading.mono hle
    have hage' : ∀ k ∈ rest, ∃ b, (stopWith (fun w k ↦ finishWithin n m w k .stopped) m w id).card m k =
        some b ∧ age ≤ b.age := by
      intro k hk
      obtain ⟨b, hb, hleb⟩ := hage k (List.mem_cons_of_mem id hk)
      obtain ⟨b', hb', hfades, -⟩ := hfading.some_of_some hb
      exact ⟨b', hb', by rwa [hfades.age]⟩
    obtain ⟨hsound', hfading'⟩ := ih hsound hage' (by rwa [hfading.outcomes])
    exact ⟨hsound', hfading.trans hfading'⟩

/-- Ending a frame, with room for all generations of frames below it. -/
theorem ends_finishWithin (n : Nat) (h : Sound (insert (m, id) X) stack w) (hc : w.card m id = some c)
    (hu : c.isFinished = false) (hstack : (m, id) ∉ stack) (hsize : w.heap.outcomes.size ≤ c.age + n)
    (ending : Ending) : Ends X stack m id c ending w (finishWithin n m w id ending) := by
  induction n generalizing X w id c ending with
  | zero =>
    obtain ⟨e, he, hcell, hcard⟩ := card_eq_some_iff.mp hc
    have hhandle : e.handle = c.handle := congrArg Card.handle hcard
    have hlt := index_of_cell? (Option.isSome_iff_exists.mpr ⟨_, hcell⟩)
    rw [hhandle] at hlt
    exact absurd hsize (Nat.not_le_of_lt hlt)
  | succ n ih =>
    rw [finishWithin_succ n hc hu]
    -- The children are taken from the frame, and stopped one after the other.
    have hclear := h.clear hc
    have hfading₀ := fading_clear h.filed m id (c.age + 1)
    have hages : ∀ k ∈ c.children.toList, ∃ b,
        (w.modifyEntry m id fun e ↦ { e with children := #[] }).card m k = some b ∧ c.age + 1 ≤ b.age := by
      intro k hk
      obtain ⟨b, hb, -, -, hlt⟩ := h.child m id c k hc (Array.mem_toList_iff.mp hk)
      obtain ⟨b', hb', hfades, -⟩ := hfading₀.some_of_some hb
      exact ⟨b', hb', by rwa [hfades.age]⟩
    obtain ⟨hsound, hfading₁⟩ := foldl_stopWith (fun X w id c h hc hu hstack hsize ↦
      ih h hc hu hstack hsize .stopped) c.children.toList hclear hages (by rw [hfading₀.outcomes]; omega)
    refine ⟨_, hsound, hfading₀.trans hfading₁, ?_, rfl⟩
    -- The frame itself is older than all of them, and has no child left to lose.
    have hc₀ : (w.modifyEntry m id fun e ↦ { e with children := #[] }).card m id =
        some { c with children := #[] } := by
      rw [(revised_clear h.filed m id).card, hc, Option.map_some, atFrame_self]
    obtain ⟨c₁, hc₁, hfades, hold⟩ := hfading₁.some_of_some hc₀
    have hnil : c₁.children = #[] := by
      have hnil : c₁.children.toList = [] := List.sublist_nil.mp hfades.children
      exact Array.toList_eq_nil_iff.mp hnil
    rw [hc₁, hold (Nat.lt_succ_self _), hnil]

theorem ends_finishFrame (h : Sound (insert (m, id) X) stack w) (hc : w.card m id = some c)
    (hu : c.isFinished = false) (hstack : (m, id) ∉ stack) (ending : Ending) :
    Ends X stack m id c ending w (w.finishFrame m id ending) :=
  ends_finishWithin _ h hc hu hstack (by omega) ending

/-- The card of a frame that has ended shows the ending. -/
theorem Ends.card {ending : Ending} {w' : World} (h : Ends X stack m id c ending w w')
    (hu : c.isFinished = false) :
    ∃ c' origin, w'.card m id = some c' ∧ c'.handle = c.handle ∧ c'.cell.status = ending.status ∧
      c'.cell.result = ending.result? ∧ c'.cell.error = ending.error?.map (·.withOrigin origin) := by
  obtain ⟨w₁, hsound₁, -, hc₁, rfl⟩ := h
  obtain ⟨e, he, -, hcard⟩ := card_eq_some_iff.mp hc₁
  have hhandle : e.handle = c.handle := congrArg Card.handle hcard
  have hu₁ : w₁.isFinished e.handle = false := by
    rw [hhandle]
    exact (isFinished_of_card hc₁).trans hu
  have hended := (revised_settle hsound₁.filed he hu₁ ending).card_of_card hc₁
  rw [settling_self rfl] at hended
  exact ⟨_, _, hended, rfl, rfl, rfl, rfl⟩

theorem card_finishFrame (h : Sound (insert (m, id) X) stack w) (hc : w.card m id = some c)
    (hu : c.isFinished = false) (hstack : (m, id) ∉ stack) (ending : Ending) :
    ∃ c' origin, (w.finishFrame m id ending).card m id = some c' ∧ c'.handle = c.handle ∧
      c'.cell.status = ending.status ∧ c'.cell.result = ending.result? ∧
      c'.cell.error = ending.error?.map (·.withOrigin origin) :=
  (ends_finishFrame h hc hu hstack ending).card hu

/-- A frame that has ended has finished. -/
theorem Ends.isFinished {ending : Ending} {w' : World} (h : Ends X stack m id c ending w w')
    (hu : c.isFinished = false) : w'.isFinished c.handle = true := by
  obtain ⟨c', origin, hc', hhandle, hstatus, -⟩ := h.card hu
  rw [← hhandle, isFinished_of_card hc', Card.isFinished, hstatus, ending.isFinished_status]

/-- Stopping a frame that may be exempt so far. -/
theorem sound_stopFrame (h : Sound (insert (m, id) X) stack w) (hc : w.card m id = some c) :
    Sound X stack (stopFrame m w id) ∧ Fading c.age w (stopFrame m w id) :=
  stopWith_finishWithin (n := w.heap.outcomes.size + 1)
    (fun _ _ _ _ h hc hu hstack hsize ↦ ends_finishWithin _ h hc hu hstack hsize .stopped) h hc (by omega)

/-- Stopping any frame, whether it is there or not. -/
theorem sound_stop (h : Sound X stack w) (m : MindId) (id : FrameId) :
    Sound X stack (stopFrame m w id) ∧ Fading 0 w (stopFrame m w id) := by
  cases he : w.entryAt m id with
  | none =>
    have hstop : stopFrame m w id = w := by
      unfold stopFrame stopWith
      simp only [he]
    rw [hstop]
    exact ⟨h, .refl 0 w⟩
  | some e =>
    obtain ⟨cell, hc⟩ := h.filed.card he
    obtain ⟨hsound, hfading⟩ := sound_stopFrame (h.mono (Set.subset_insert _ _)) hc
    exact ⟨hsound, hfading.mono (Nat.zero_le _)⟩

end World

end MindScript
