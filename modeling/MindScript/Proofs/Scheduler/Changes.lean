import Mathlib.Tactic.Set
import MindScript.Proofs.Scheduler.Cards

/-!
# What the scheduler does to the cards

One description for each function that touches frames.
-/

namespace MindScript

theorem Ending.isFinished_status (ending : Ending) : ending.status.isFinished = true := by cases ending <;> rfl

namespace Card

/-- The frame has ended. -/
def ended (ending : Ending) (error : Option EvalError) (c : Card) : Card :=
  { c with
    parent := none
    wake := none
    delivered := none
    frame := none
    cell := { c.cell with status := ending.status, result := ending.result?, error } }

theorem isFinished_ended (ending : Ending) (error : Option EvalError) (c : Card) :
    (c.ended ending error).isFinished = true :=
  ending.isFinished_status

/-- The frame has lost a child. -/
def without (child : FrameId) (c : Card) : Card := { c with children := c.children.erase child }

theorem toList_children_without (child : FrameId) (c : Card) :
    (c.without child).children.toList = c.children.toList.erase child := by
  unfold without
  rcases c.children with ⟨children⟩
  simp

/-- The frame has been taken out for a step. -/
def begun (c : Card) : Card :=
  { c with frame := none, delivered := none, wake := none, cell := { c.cell with status := .running } }

/-- The frame has fallen asleep. -/
def asleep (wake : Wake) (c : Card) : Card :=
  { c with wake := some wake, cell := { c.cell with status := .suspended } }

end Card

namespace World

/-! ### Settling -/

theorem entryAt_leaveParent (mind : Mind) (parent id k : FrameId) :
    (leaveParent mind parent id).entryAt k =
      (mind.entryAt k).map fun e ↦ if k = parent then e.without id else e := by
  have herase : (mind.modifyEntry parent fun e ↦ e.without id).entryAt k =
      (mind.entryAt k).map fun e ↦ if k = parent then e.without id else e := by
    rw [Mind.entryAt_modifyEntry]
    by_cases hk : k = parent <;> simp [hk]
  unfold leaveParent
  cases hp : mind.entryAt parent with
  | none => by_cases hk : k = parent <;> simp [hk, hp]
  | some entry =>
    dsimp only
    split
    · rw [Mind.entryAt_wake]
      exact herase
    · exact herase

theorem tidy_leaveParent {mind : Mind} (h : mind.Tidy) (parent id : FrameId) :
    (leaveParent mind parent id).Tidy := by
  unfold leaveParent
  split
  · exact h
  · dsimp only
    split
    · exact (h.modifyEntry parent _).wake _
    · exact h.modifyEntry parent _

theorem entryAt_settleEntry (mind : Mind) (id k : FrameId) (entry : FrameEntry) (s : FrameStatus)
    (failure : Option FrameFailure) :
    (settleEntry mind id entry s failure).entryAt k = (mind.entryAt k).map fun e ↦
      let e := if k = id then e.settled else e
      if entry.parent = some k then e.without id else e := by
  have hleft : (parted mind id entry s).entryAt k =
      (mind.entryAt k).map fun e ↦
        let e := if k = id then e.settled else e
        if entry.parent = some k then e.without id else e := by
    unfold parted
    cases entry.parent with
    | none =>
      dsimp only [Option.elim]
      rw [Mind.entryAt_record, Mind.entryAt_modifyEntry]
      by_cases hk : k = id <;> simp [hk]
    | some parent =>
      dsimp only [Option.elim]
      rw [entryAt_leaveParent, Mind.entryAt_record, Mind.entryAt_modifyEntry]
      by_cases hk : k = id
      · simp [hk, Option.map_map, Function.comp_def, eq_comm]
      · simp [hk, eq_comm]
  rw [settleEntry_eq]
  cases failure with
  | none =>
    change (Mind.wake _ _).entryAt k = _
    rw [Mind.entryAt_wake]
    exact hleft
  | some f =>
    change (Mind.wake _ _).entryAt k = _
    rw [Mind.entryAt_wake]
    exact hleft

theorem tidy_settleEntry {mind : Mind} (h : mind.Tidy) (id : FrameId) (entry : FrameEntry)
    (s : FrameStatus) (failure : Option FrameFailure) : (settleEntry mind id entry s failure).Tidy := by
  have hleft : (parted mind id entry s).Tidy := by
    have hrecord := (h.modifyEntry id FrameEntry.settled).record id entry.handle.name s
    unfold parted
    cases entry.parent with
    | none => exact hrecord
    | some parent => exact tidy_leaveParent hrecord parent id
  rw [settleEntry_eq]
  cases failure with
  | none => exact (hleft.wake _).congr rfl rfl
  | some f => exact (hleft.wake _).congr rfl rfl

/-- What settling does to the cards: the frame ends, and its parent loses a child. -/
def settling (m : MindId) (id : FrameId) (parent : Option FrameId) (ending : Ending)
    (error : Option EvalError) (m' : MindId) (k : FrameId) (c : Card) : Card :=
  let c := atFrame m id (Card.ended ending error) m' k c
  if m' = m ∧ parent = some k then c.without id else c

theorem settling_self {m : MindId} {id : FrameId} {c : Card} (hchildren : c.children = #[])
    (parent : Option FrameId) (ending : Ending) (error : Option EvalError) :
    settling m id parent ending error m id c = c.ended ending error := by
  unfold settling
  rw [atFrame_self]
  split
  · simp [Card.without, Card.ended, hchildren]
  · rfl

theorem settling_parent {m : MindId} {id p : FrameId} (hne : p ≠ id) (ending : Ending)
    (error : Option EvalError) (c : Card) :
    settling m id (some p) ending error m p c = c.without id := by
  unfold settling
  rw [atFrame_of_ne fun h ↦ hne h.2, if_pos ⟨rfl, rfl⟩]

theorem settling_of_ne {m m' : MindId} {id k : FrameId} {parent : Option FrameId}
    (hne : ¬(m' = m ∧ k = id)) (hparent : ¬(m' = m ∧ parent = some k)) (ending : Ending)
    (error : Option EvalError) (c : Card) :
    settling m id parent ending error m' k c = c := by
  unfold settling
  rw [atFrame_of_ne hne, if_neg hparent]

/-- Settling ends the frame itself, takes it from its parent, and leaves everyone else alone. -/
theorem settling_cases (m : MindId) (id : FrameId) (parent : Option FrameId) (ending : Ending)
    (error : Option EvalError) (m' : MindId) (k : FrameId) {c : Card} (hchildren : m' = m ∧ k = id → c.children = #[]) :
    (m' = m ∧ k = id) ∧ settling m id parent ending error m' k c = c.ended ending error ∨
      ¬(m' = m ∧ k = id) ∧
        ((m' = m ∧ parent = some k) ∧ settling m id parent ending error m' k c = c.without id ∨
          ¬(m' = m ∧ parent = some k) ∧ settling m id parent ending error m' k c = c) := by
  by_cases hk : m' = m ∧ k = id
  · have hempty := hchildren hk
    obtain ⟨rfl, rfl⟩ := hk
    exact .inl ⟨⟨rfl, rfl⟩, settling_self hempty ..⟩
  · refine .inr ⟨hk, ?_⟩
    by_cases hp : m' = m ∧ parent = some k
    · obtain ⟨rfl, rfl⟩ := hp
      exact .inl ⟨⟨rfl, rfl⟩, settling_parent (fun heq ↦ hk ⟨rfl, heq⟩) ..⟩
    · exact .inr ⟨hp, settling_of_ne hk hp ..⟩

/-- A parent without the link to the frame has nothing to lose. -/
theorem settling_of_notMem {m m' : MindId} {id k : FrameId} (parent : Option FrameId) (ending : Ending)
    (error : Option EvalError) {c : Card} (hne : ¬(m' = m ∧ k = id)) (hmem : m' = m → id ∉ c.children) :
    settling m id parent ending error m' k c = c := by
  unfold settling
  rw [atFrame_of_ne hne]
  split
  · next hm =>
    dsimp only [Card.without]
    rw [Array.erase_of_not_mem (hmem hm.1)]
  · rfl

theorem cell_settling_of_ne {m m' : MindId} {id k : FrameId} (hne : ¬(m' = m ∧ k = id))
    (parent : Option FrameId) (ending : Ending) (error : Option EvalError) (c : Card) :
    (settling m id parent ending error m' k c).cell = c.cell := by
  unfold settling
  rw [atFrame_of_ne hne]
  split <;> rfl

theorem revised_settle {w : World} (hw : w.Filed) {m : MindId} {id : FrameId} {entry : FrameEntry}
    (he : w.entryAt m id = some entry) (hu : w.isFinished entry.handle = false) (ending : Ending) :
    Revised (settling m id entry.parent ending (ending.error?.map (w.withFrameOrigin entry))) w
      (w.settle m id ending) := by
  have hcell := revised_modifyOutcome (g := fun o ↦ { o with
    status := ending.status
    result := ending.result?
    error := ending.error?.map (w.withFrameOrigin entry) }) hw he fun _ ↦ rfl
  unfold settle
  simp only [he, hu, Bool.false_eq_true, if_false]
  refine Revised.still ?_ (still_release _ _)
  refine (hcell.trans (revised_modifyMind (G := fun k c ↦
    let c := if k = id then { c with parent := none, wake := none, delivered := none, frame := none } else c
    if entry.parent = some k then c.without id else c) hcell.filed m
    (fun mind hmind ↦ tidy_settleEntry hmind ..) (fun k c ↦ ?_) fun mind k _ ↦
      ⟨_, entryAt_settleEntry .., fun e cell ↦ ?_⟩)).congr fun m' k c _ ↦ ?_
  · dsimp only
    split <;> split <;> rfl
  · dsimp only
    split <;> split <;> rfl
  · unfold settling atFrame
    by_cases hp : entry.parent = some k <;> by_cases hm : m' = m <;> by_cases hk : k = id <;>
      simp_all [Card.without, Card.ended]

/-! ### Suspending -/

theorem entryAt_enlist (mind : Mind) (m : MindId) (id k : FrameId) (wake : Wake) :
    ∃ F : FrameEntry → FrameEntry, (enlist mind m id wake).entryAt k = (mind.entryAt k).map F ∧
      ∀ e cell, (F e).card cell = e.card cell := by
  unfold enlist
  split
  · next h =>
    split
    · refine ⟨fun e ↦ if k = h.frame then { e with waiters := e.waiters.push id } else e, ?_, fun e cell ↦ ?_⟩
      · rw [Mind.entryAt_modifyEntry]
        by_cases hk : k = h.frame <;> simp [hk]
      · split <;> rfl
    · exact ⟨fun e ↦ e, by simp, fun _ _ ↦ rfl⟩
  · exact ⟨fun e ↦ e, by simp, fun _ _ ↦ rfl⟩

theorem tidy_enlist {mind : Mind} (h : mind.Tidy) (m : MindId) (id : FrameId) (wake : Wake) :
    (enlist mind m id wake).Tidy := by
  unfold enlist
  split
  · split
    · exact h.modifyEntry _ _
    · exact h
  · exact h

theorem revised_sleep {w : World} (hw : w.Filed) {m : MindId} {id : FrameId} {entry : FrameEntry}
    (he : w.entryAt m id = some entry) (wake : Wake) :
    Revised (atFrame m id (Card.asleep wake)) w (w.sleep m id wake) := by
  have hcell := revised_setStatus hw he .suspended
  unfold sleep
  simp only [he]
  refine (hcell.trans (revised_modifyMind (G := fun k c ↦ if k = id then { c with wake := some wake } else c)
    hcell.filed m (fun mind hmind ↦ (tidy_enlist hmind ..).modifyEntry _ _) (fun k c ↦ ?_)
    fun mind k _ ↦ ?_)).congr fun m' k c _ ↦ ?_
  · split <;> rfl
  · obtain ⟨F, hF, hcard⟩ := entryAt_enlist mind m id k wake
    refine ⟨fun e ↦ if k = id then { F e with
      suspendedTick := mind.tick
      nextUpdate :=
        if (F e).updateInterval > 0 then mind.clock + (F e).updateInterval else (F e).nextUpdate
      wake := some wake } else F e, ?_, fun e cell ↦ ?_⟩
    · rw [Mind.entryAt_modifyEntry]
      by_cases hk : k = id
      · subst hk
        simp [hF, Option.map_map, Function.comp_def]
      · simp [hk, hF]
    · have h := hcard e cell
      split
      · rw [← h]
        rfl
      · exact h
  · unfold atFrame
    by_cases hm : m' = m <;> by_cases hk : k = id <;> simp [hm, hk, Card.asleep]

/-! ### Steps -/

theorem still_enter (w : World) (context : Context) (current : Option (MindId × FrameId)) :
    Still w (w.enter context current) := ⟨rfl, rfl, rfl⟩

theorem revised_takeFrame {w : World} (hw : w.Filed) {m : MindId} {id : FrameId} {entry : FrameEntry}
    (he : w.entryAt m id = some entry) (frame : Frame) :
    Revised (atFrame m id Card.begun) w (w.takeFrame m id entry frame) := by
  have hentry := revised_taken hw m id
  have hcell := revised_setStatus hentry.filed (entryAt_modifyEntry_self he FrameEntry.taken) .running
  refine ((hentry.trans hcell).still ((still_release _ _).trans (still_enter ..))).congr fun m' k c _ ↦ ?_
  unfold atFrame
  by_cases hk : m' = m ∧ k = id <;> simp [hk, Card.begun]

/-! ### Events, settings and detached children -/

theorem entryAt_foldl_modifyEntry {f : FrameEntry → FrameEntry} (hf : ∀ e, f (f e) = f e) (ids : List FrameId)
    (mind : Mind) (k : FrameId) :
    (ids.foldl (fun mind c ↦ mind.modifyEntry c f) mind).entryAt k =
      (mind.entryAt k).map fun e ↦ if k ∈ ids then f e else e := by
  induction ids generalizing mind with
  | nil => simp
  | cons id rest ih =>
    rw [List.foldl_cons, ih, Mind.entryAt_modifyEntry]
    by_cases hk : k = id
    · subst hk
      by_cases hrest : k ∈ rest <;> simp [hrest, hf, Function.comp_def]
    · simp [hk]

theorem tidy_foldl_modifyEntry {f : FrameEntry → FrameEntry} (ids : List FrameId) {mind : Mind}
    (h : mind.Tidy) : (ids.foldl (fun mind c ↦ mind.modifyEntry c f) mind).Tidy := by
  induction ids generalizing mind with
  | nil => exact h
  | cons id rest ih => exact ih (h.modifyEntry id f)

/-- What detaching does to the cards: the frame has no children any more, and they have no parent. -/
def detaching (m : MindId) (id : FrameId) (children : Array FrameId) (m' : MindId) (k : FrameId)
    (c : Card) : Card :=
  let c := atFrame m id (fun c ↦ { c with children := #[] }) m' k c
  if m' = m ∧ k ∈ children then { c with parent := none } else c

theorem revised_detachChildren {w : World} (hw : w.Filed) {m : MindId} {id : FrameId} {entry : FrameEntry}
    (he : w.entryAt m id = some entry) :
    Revised (detaching m id entry.children) w (w.detachChildren m id) := by
  unfold detachChildren
  simp only [he, ← Array.foldl_toList]
  refine (revised_modifyMind (G := fun k c ↦
    let c := if k = id then { c with children := #[] } else c
    if k ∈ entry.children then { c with parent := none } else c) hw m
    (fun mind hmind ↦ tidy_foldl_modifyEntry _ (hmind.modifyEntry id _)) (fun k c ↦ ?_)
    fun mind k _ ↦ ?_).congr fun m' k c _ ↦ ?_
  · dsimp only
    split <;> split <;> rfl
  · refine ⟨fun e ↦
      let e := if k = id then { e with children := #[] } else e
      if k ∈ entry.children then { e with parent := none } else e, ?_, fun e cell ↦ ?_⟩
    · rw [entryAt_foldl_modifyEntry (f := fun e ↦ { e with parent := none }) (fun _ ↦ rfl),
        Mind.entryAt_modifyEntry]
      by_cases hk : k = id
      · subst hk
        simp [Function.comp_def]
      · simp [hk]
    · dsimp only
      split <;> split <;> rfl
  · unfold detaching atFrame
    by_cases hm : m' = m <;> by_cases hk : k = id <;> by_cases hc : k ∈ entry.children <;> simp_all

theorem detaching_eq (m : MindId) (id : FrameId) (children : Array FrameId) (m' : MindId) (k : FrameId) (c : Card) :
    detaching m id children m' k c = { c with
      children := if m' = m ∧ k = id then #[] else c.children
      parent := if m' = m ∧ k ∈ children then none else c.parent } := by
  unfold detaching atFrame
  split <;> split <;> rfl

theorem detachChildren_of_none {w : World} {m : MindId} {id : FrameId} (he : w.entryAt m id = none) :
    w.detachChildren m id = w := by
  unfold detachChildren
  simp only [he]

/-- What an event does to the cards: the frames that it wakes have its payload. -/
def delivering (m : MindId) (woken : List FrameId) (payload : Ref) (m' : MindId) (k : FrameId)
    (c : Card) : Card :=
  if m' = m ∧ k ∈ woken then { c with delivered := some payload } else c

theorem delivering_eq (m : MindId) (woken : List FrameId) (payload : Ref) (m' : MindId) (k : FrameId) (c : Card) :
    delivering m woken payload m' k c =
      { c with delivered := if m' = m ∧ k ∈ woken then some payload else c.delivered } := by
  unfold delivering
  split <;> rfl

theorem revised_deliver {w : World} (hw : w.Filed) (m : MindId) (woken : List FrameId) (payload : Ref) :
    Revised (delivering m woken payload) w (woken.foldl (fun w id ↦
      (w.retain (.object payload)).modifyEntry m id fun e ↦ { e with delivered := some payload }) w) := by
  induction woken generalizing w with
  | nil => exact (Revised.of_still (.refl w) hw).congr fun _ _ _ _ ↦ by simp [delivering]
  | cons id rest ih =>
    have hretain := Revised.of_still (still_retain w (.object payload)) hw
    have hid := hretain.trans (revised_modifyEntry (f := fun e ↦ { e with delivered := some payload })
      (g := fun c ↦ { c with delivered := some payload }) hretain.filed m id (fun _ ↦ rfl) fun _ _ ↦ rfl)
    refine (hid.trans (ih hid.filed)).congr fun m' k c _ ↦ ?_
    unfold delivering atFrame
    by_cases hm : m' = m <;> by_cases hk : k = id <;> by_cases hr : k ∈ rest <;> simp [hm, hk, hr]

theorem revised_notify {w : World} (hw : w.Filed) (m : MindId) (event : String) (payload : Ref) :
    ∃ woken : List FrameId, Revised (delivering m woken payload) w (w.notify m event payload).2 ∧
      ∀ k ∈ woken, ∃ e, w.entryAt m k = some e ∧ e.wake.isSome = true ∧ w.isFinished e.handle = false := by
  unfold notify
  cases hmind : w.mind? m with
  | none =>
    exact ⟨[], (Revised.of_still (.refl w) hw).congr fun _ _ _ _ ↦ by simp [delivering], by simp⟩
  | some mind =>
    refine ⟨mind.live.toList.filter fun id ↦ (mind.entryAt id).any (w.awaitsEvent event), ?_, ?_⟩
    · have hdeliver := revised_deliver hw m
        (mind.live.toList.filter fun id ↦ (mind.entryAt id).any (w.awaitsEvent event)) payload
      dsimp only
      split
      · exact hdeliver.still
          (still_modifyMind _ m (fun mind ↦ Mind.slots_wake mind _) fun mind ↦ Mind.free_wake mind _)
      · exact hdeliver
    · intro k hk
      obtain ⟨-, hk⟩ := List.mem_filter.mp hk
      cases he : mind.entryAt k with
      | none => simp [he] at hk
      | some e =>
        rw [he, Option.any_some, awaitsEvent, Bool.and_eq_true, Bool.and_eq_true] at hk
        refine ⟨e, by simp [entryAt, hmind, he], ?_, by simpa using hk.2⟩
        cases hwake : e.wake with
        | none => simp [hwake] at hk
        | some wake => rfl

theorem revised_setUpdateInterval {w : World} (hw : w.Filed) (h : Handle) (seconds : Float) :
    Revised (fun _ _ c ↦ c) w (w.setUpdateInterval h seconds) := by
  have hentry := revised_modifyEntry (f := fun e ↦ { e with updateInterval := atLeastZero seconds })
    (g := fun c ↦ c) hw h.mind h.frame (fun _ ↦ rfl) fun _ _ ↦ rfl
  exact hentry.congr fun _ _ _ _ ↦ by simp [atFrame]

/-! ### Registering -/

/-- The card of a frame that has just been registered. -/
def freshCard (handle : Handle) (parent : Option FrameId) (frame : Frame) : Card :=
  { handle, parent, frame := some frame, children := #[], wake := none, delivered := none,
    stopRequested := false, cell := { status := .pending } }

/-- What registering does to the cards that are there already: the parent has one more child. -/
def adopting (m : MindId) (parent : Option FrameId) (child : FrameId) (m' : MindId) (k : FrameId) (c : Card) : Card :=
  { c with children := if m' = m ∧ parent = some k then c.children.push child else c.children }

/-- A frame is registered with its Mind under an identity and an outcome that nobody had, and with its
parent. -/
structure Registered (m : MindId) (parent : Option FrameId) (h : Handle) (w w' : World) : Prop where
  filed : w'.Filed
  mind : h.mind = m
  unused : w.card m h.frame = none
  outcome : h.outcome.index = w.heap.outcomes.size
  fresh : ∃ frame, w'.card m h.frame = some (freshCard h parent frame)
  card : ∀ m' k, ¬(m' = m ∧ k = h.frame) → w'.card m' k = (w.card m' k).map fun c ↦
    if m' = m ∧ parent = some k then { c with children := c.children.push h.frame } else c
  cells : ∀ o, w'.cell? o = if o = h.outcome then some { status := .pending } else w.cell? o
  outcomes : w'.heap.outcomes.size = w.heap.outcomes.size + 1
  minds : w'.minds.size = w.minds.size

namespace Registered

variable {m m' : MindId} {parent : Option FrameId} {x : Handle} {w w' : World} {k : FrameId} {c c' : Card}

/-- Nobody had the place of the new frame. -/
theorem ne_of_card (h : Registered m parent x w w') (hc : w.card m' k = some c) : ¬(m' = m ∧ k = x.frame) := by
  rintro ⟨rfl, rfl⟩
  exact absurd (h.unused.symm.trans hc) (Option.some_ne_none c).symm

theorem card_of_card (h : Registered m parent x w w') (hc : w.card m' k = some c) :
    w'.card m' k = some (adopting m parent x.frame m' k c) := by
  rw [h.card m' k (h.ne_of_card hc), hc, Option.map_some]
  unfold adopting
  split <;> rfl

/-- A card is that of the new frame, or was there before. -/
theorem card_cases (h : Registered m parent x w w') (hc' : w'.card m' k = some c') :
    (m' = m ∧ k = x.frame ∧ ∃ frame, c' = freshCard x parent frame) ∨
      ∃ c, w.card m' k = some c ∧ c' = adopting m parent x.frame m' k c := by
  by_cases hnew : m' = m ∧ k = x.frame
  · obtain ⟨rfl, rfl⟩ := hnew
    obtain ⟨frame, hfresh⟩ := h.fresh
    exact .inl ⟨rfl, rfl, frame, Option.some.inj (hc'.symm.trans hfresh)⟩
  · have hcard := hc'
    rw [h.card m' k hnew] at hcard
    obtain ⟨c, hc, -⟩ := Option.map_eq_some_iff.mp hcard
    exact .inr ⟨c, hc, Option.some.inj (hc'.symm.trans (h.card_of_card hc))⟩

end Registered

theorem tidy_enroll {mind : Mind} (h : mind.Tidy) (entry : FrameEntry) : (mind.enroll entry).Tidy := by
  refine Mind.Tidy.record ?_ ..
  cases entry.parent with
  | none => exact h.insert entry
  | some p => exact (h.insert entry).modifyEntry p _

theorem entryAt_enroll {mind : Mind} (h : mind.Tidy) {entry : FrameEntry}
    (hid : entry.handle.frame = mind.nextFrameId) (hparent : entry.parent ≠ some mind.nextFrameId)
    (k : FrameId) :
    (mind.enroll entry).entryAt k = if k = mind.nextFrameId then some entry else
      (mind.entryAt k).map fun e ↦
        if entry.parent = some k then { e with children := e.children.push mind.nextFrameId } else e := by
  unfold Mind.enroll Mind.adopt
  rw [Mind.entryAt_record, hid]
  cases hp : entry.parent with
  | none => simp [Mind.entryAt_insert h]
  | some p =>
    have hne : p ≠ mind.nextFrameId := fun heq ↦ hparent (by rw [hp, heq])
    dsimp only
    rw [Mind.entryAt_modifyEntry, Mind.entryAt_insert h, Mind.entryAt_insert h]
    by_cases hk : k = p
    · simp [hk, hne]
    · simp [hk, Ne.symm hk]

theorem cell?_openOutcome (w : World) (this : Ref) (o : OutcomeId) :
    (w.openOutcome this).2.cell? o =
      if o = ⟨w.heap.outcomes.size⟩ then some { status := .pending } else w.cell? o := by
  have hstill : Still { w with heap := (w.heap.newOutcome .pending).2 } (w.openOutcome this).2 :=
    (still_retain _ _).trans (still_retain _ _)
  rw [hstill.cell?]
  obtain ⟨i⟩ := o
  simp only [cell?, Heap.newOutcome, Heap.outcome?, Array.getElem?_push, OutcomeId.mk.injEq]
  split <;> rfl

theorem size_outcomes_openOutcome (w : World) (this : Ref) :
    (w.openOutcome this).2.heap.outcomes.size = w.heap.outcomes.size + 1 := by
  have hstill : Still { w with heap := (w.heap.newOutcome .pending).2 } (w.openOutcome this).2 :=
    (still_retain _ _).trans (still_retain _ _)
  rw [hstill.size_outcomes]
  simp [Heap.newOutcome]

theorem index_of_cell? {w : World} {o : OutcomeId} (h : (w.cell? o).isSome) :
    o.index < w.heap.outcomes.size := by
  simpa [cell?, Heap.outcome?] using h

section Enrolling

variable {w w₁ : World} {m : MindId} {mind : Mind} {entry : FrameEntry}

theorem entryAt_modifyMind_enroll (hw : w.Filed) (hmind : w.mind? m = some mind) (hminds : w₁.minds = w.minds)
    (hhandle : entry.handle.frame = mind.nextFrameId) (hparent : ∀ p, entry.parent = some p → (w.card m p).isSome)
    (m' : MindId) (k : FrameId) :
    (w₁.modifyMind m fun mind ↦ mind.enroll entry).entryAt m' k =
      if m' = m ∧ k = mind.nextFrameId then some entry else (w.entryAt m' k).map fun e ↦
        if m' = m ∧ entry.parent = some k then { e with children := e.children.push mind.nextFrameId }
        else e := by
  have htidy : mind.Tidy := hw.tidy m mind hmind
  have hmind₁ : w₁.mind? m = some mind := by rw [mind?, hminds]; exact hmind
  have hne : entry.parent ≠ some mind.nextFrameId := by
    intro hp
    have := hparent _ hp
    simp [card, entryAt, hmind, Mind.entryAt_nextFrameId htidy] at this
  rw [entryAt_modifyMind]
  by_cases hm : m' = m
  · subst hm
    simp only [if_true, true_and, hmind₁, Option.bind_some, entryAt_enroll htidy hhandle hne k]
    simp [entryAt, hmind]
  · simp [hm, entryAt, mind?, hminds]

/-- An entry is the new one, or was there before up to a child; its outcome is then an older one. -/
theorem entryAt_enroll_cases (hw : w.Filed) (hmind : w.mind? m = some mind) (hminds : w₁.minds = w.minds)
    (hhandle : entry.handle.frame = mind.nextFrameId) (hparent : ∀ p, entry.parent = some p → (w.card m p).isSome)
    {m' : MindId} {k : FrameId} {e' : FrameEntry}
    (he' : (w₁.modifyMind m fun mind ↦ mind.enroll entry).entryAt m' k = some e') :
    (m' = m ∧ k = mind.nextFrameId ∧ e' = entry) ∨ ∃ e, w.entryAt m' k = some e ∧ e'.handle = e.handle ∧
      e'.handle.outcome ≠ ⟨w.heap.outcomes.size⟩ := by
  rw [entryAt_modifyMind_enroll hw hmind hminds hhandle hparent] at he'
  split at he'
  · next hk => exact .inl ⟨hk.1, hk.2, (Option.some.inj he').symm⟩
  · obtain ⟨e, he, rfl⟩ := Option.map_eq_some_iff.mp he'
    have hlt := index_of_cell? (hw.stored m' k e he)
    have hhe : (if m' = m ∧ entry.parent = some k then
        { e with children := e.children.push mind.nextFrameId } else e).handle = e.handle := by
      split <;> rfl
    refine .inr ⟨e, he, hhe, ?_⟩
    rw [hhe]
    intro heq
    simp [heq] at hlt

theorem filed_enroll (hw : w.Filed) (hmind : w.mind? m = some mind) (hminds : w₁.minds = w.minds)
    (hcell : ∀ o, w₁.cell? o =
      if o = ⟨w.heap.outcomes.size⟩ then some { status := .pending } else w.cell? o)
    (hhandle : entry.handle = ⟨m, mind.nextFrameId, entry.handle.name, ⟨w.heap.outcomes.size⟩⟩)
    (hparent : ∀ p, entry.parent = some p → (w.card m p).isSome) :
    (w₁.modifyMind m fun mind ↦ mind.enroll entry).Filed := by
  have hframe : entry.handle.frame = mind.nextFrameId := by rw [hhandle]
  have houtcome : entry.handle.outcome = ⟨w.heap.outcomes.size⟩ := by rw [hhandle]
  have htidy : w₁.Tidy := by
    intro m' mind' hmind'
    exact hw.tidy m' mind' (by rw [mind?, ← hminds]; exact hmind')
  have hcases {m' : MindId} {k : FrameId} {e' : FrameEntry}
      (he' : (w₁.modifyMind m fun mind ↦ mind.enroll entry).entryAt m' k = some e') :=
    entryAt_enroll_cases hw hmind hminds hframe hparent he'
  refine ⟨htidy.modifyMind m fun mind hmind ↦ tidy_enroll hmind entry, ?_, ?_, ?_⟩
  · intro m' k e' he'
    rcases hcases he' with ⟨rfl, rfl, rfl⟩ | ⟨e, he, heq, -⟩
    · rw [hhandle]
      exact ⟨rfl, rfl⟩
    · rw [heq]
      exact hw.named m' k e he
  · intro m' k e' he'
    rw [cell?_modifyMind, hcell]
    rcases hcases he' with ⟨rfl, rfl, rfl⟩ | ⟨e, he, heq, hne⟩
    · rw [if_pos houtcome, Option.isSome_some]
    · rw [if_neg hne, heq]
      exact hw.stored m' k e he
  · intro m₁ k₁ e₁ m₂ k₂ e₂ h₁ h₂ heq
    rcases hcases h₁ with ⟨rfl, rfl, rfl⟩ | ⟨e, he, heq₁, hne₁⟩ <;>
      rcases hcases h₂ with ⟨rfl, rfl, rfl⟩ | ⟨e', he', heq₂, hne₂⟩
    · exact ⟨rfl, rfl⟩
    · exact absurd (heq.symm.trans houtcome) hne₂
    · exact absurd (heq.trans houtcome) hne₁
    · exact hw.apart m₁ k₁ e m₂ k₂ e' he he' (by rw [← heq₁, ← heq₂, heq])

/-- Storing a frame for an outcome that was just made. -/
theorem registered_enroll (hw : w.Filed) (hmind : w.mind? m = some mind) (hminds : w₁.minds = w.minds)
    (hcell : ∀ o, w₁.cell? o =
      if o = ⟨w.heap.outcomes.size⟩ then some { status := .pending } else w.cell? o)
    (hsize : w₁.heap.outcomes.size = w.heap.outcomes.size + 1) (entry : FrameEntry) {frame : Frame}
    (hhandle : entry.handle = ⟨m, mind.nextFrameId, entry.handle.name, ⟨w.heap.outcomes.size⟩⟩)
    (hfresh : entry.card { status := .pending } = freshCard entry.handle entry.parent frame)
    (hparent : ∀ p, entry.parent = some p → (w.card m p).isSome) :
    Registered m entry.parent entry.handle w (w₁.modifyMind m fun mind ↦ mind.enroll entry) := by
  have hframe : entry.handle.frame = mind.nextFrameId := by rw [hhandle]
  have houtcome : entry.handle.outcome = ⟨w.heap.outcomes.size⟩ := by rw [hhandle]
  have hentry := entryAt_modifyMind_enroll hw hmind hminds hframe hparent
  have hunused : w.entryAt m mind.nextFrameId = none := by
    simp [entryAt, hmind, Mind.entryAt_nextFrameId (hw.tidy m mind hmind)]
  have hmine : (w₁.modifyMind m fun mind ↦ mind.enroll entry).entryAt m mind.nextFrameId = some entry := by
    rw [hentry, if_pos ⟨rfl, rfl⟩]
  refine ⟨filed_enroll hw hmind hminds hcell hhandle hparent, ?_, ?_, ?_, ?_, ?_, ?_, hsize, ?_⟩
  · rw [hhandle]
  · rw [hframe, card, hunused, Option.bind_none]
  · rw [houtcome]
  · refine ⟨frame, ?_⟩
    rw [hframe, card, hmine, Option.bind_some, cell?_modifyMind, hcell, if_pos houtcome, Option.map_some,
      hfresh]
  · intro m' k hk
    rw [hframe] at hk ⊢
    unfold card
    rw [hentry, if_neg hk, cell?_modifyMind]
    cases he : w.entryAt m' k with
    | none => rfl
    | some e =>
      have hlt := index_of_cell? (hw.stored m' k e he)
      have hne : e.handle.outcome ≠ ⟨w.heap.outcomes.size⟩ := by
        intro heq
        simp [heq] at hlt
      by_cases hp : m' = m ∧ entry.parent = some k
      · simp only [Option.map_some, Option.bind_some, if_pos hp, hcell, if_neg hne, Option.map_map]
        rfl
      · simp only [Option.map_some, Option.bind_some, if_neg hp, hcell, if_neg hne, Option.map_map]
        rfl
  · intro o
    rw [cell?_modifyMind, hcell, houtcome]
  · rw [size_minds_modifyMind, hminds]

end Enrolling

theorem registered_register {w : World} (hw : w.Filed) {m : MindId} (hm : m.index < w.minds.size)
    (name : String) (owner : ClassId) {parent : Option FrameId} (frame : Frame)
    (hparent : ∀ p, parent = some p → (w.card m p).isSome) :
    Registered m parent (w.register m name owner parent frame).1 w
      (w.register m name owner parent frame).2 := by
  obtain ⟨mind, hmind⟩ : ∃ mind, w.mind? m = some mind := ⟨w.minds[m.index], by simp [mind?, hm]⟩
  have hminds : (w.openOutcome frame.context.this).2.minds = w.minds := rfl
  have hmind₁ : (w.openOutcome frame.context.this).2.mind? m = some mind := hmind
  unfold register
  simp only [hmind₁]
  let entry : FrameEntry :=
    { handle := ⟨m, mind.nextFrameId, name, ⟨w.heap.outcomes.size⟩⟩, owner, this := frame.context.this,
      parent, frame := some { frame with startedAt := mind.clock } }
  exact registered_enroll hw hmind hminds (cell?_openOutcome w frame.context.this)
    (size_outcomes_openOutcome w frame.context.this) entry rfl rfl hparent

/-! ### Sweeping -/

theorem entryAt_foldl_remove (ids : List FrameId) (mind : Mind) (k : FrameId) :
    (ids.foldl (fun mind id ↦ (mind.remove id).2) mind).entryAt k =
      if k ∈ ids then none else mind.entryAt k := by
  induction ids generalizing mind with
  | nil => simp
  | cons id rest ih =>
    rw [List.foldl_cons, ih, Mind.entryAt_remove]
    by_cases hk : k = id <;> by_cases hrest : k ∈ rest <;> simp [hk, hrest]

theorem tidy_foldl_remove (ids : List FrameId) {mind : Mind} (h : mind.Tidy) :
    (ids.foldl (fun mind id ↦ (mind.remove id).2) mind).Tidy := by
  induction ids generalizing mind with
  | nil => exact h
  | cons id rest ih => exact ih (h.remove id)

/-- Frames that have finished may be gone; nothing else about frames changes. -/
structure Swept (w w' : World) : Prop where
  filed : w'.Filed
  card : ∀ m id, w'.card m id = w.card m id ∨
    w'.card m id = none ∧ ∃ c, w.card m id = some c ∧ c.isFinished = true
  cells : w'.cell? = w.cell?
  outcomes : w'.heap.outcomes.size = w.heap.outcomes.size
  minds : w'.minds.size = w.minds.size

theorem Swept.of_still {w w' : World} (h : Still w w') (hw : w.Filed) : Swept w w' :=
  ⟨h.filed hw, fun m id ↦ .inl (by rw [h.card]), h.cell?, h.size_outcomes, h.size_minds⟩

/-- A frame that is there afterwards was there before, with the same card. -/
theorem Swept.back {w w' : World} (h : Swept w w') {m : MindId} {id : FrameId} {c : Card}
    (hc : w'.card m id = some c) : w.card m id = some c := by
  rcases h.card m id with heq | ⟨hnone, -⟩
  · exact heq.symm.trans hc
  · exact absurd (hnone.symm.trans hc) (Option.some_ne_none c).symm

/-- A frame that has not finished stays. -/
theorem Swept.stays {w w' : World} (h : Swept w w') {m : MindId} {id : FrameId} {c : Card}
    (hc : w.card m id = some c) (hu : c.isFinished = false) : w'.card m id = some c := by
  rcases h.card m id with heq | ⟨-, b, hb, hfin⟩
  · exact heq.trans hc
  · obtain rfl := Option.some.inj (hb.symm.trans hc)
    exact absurd (hu.symm.trans hfin) Bool.false_ne_true

theorem Swept.trans {w w' w'' : World} (h : Swept w w') (h' : Swept w' w'') : Swept w w'' where
  filed := h'.filed
  card m id := by
    rcases h'.card m id with heq' | ⟨hnone', c', hc', hfin'⟩
    · rw [heq']
      exact h.card m id
    · rcases h.card m id with heq | ⟨hnone, -⟩
      · exact .inr ⟨hnone', c', heq ▸ hc', hfin'⟩
      · simp [hnone] at hc'
  cells := h'.cells.trans h.cells
  outcomes := h'.outcomes.trans h.outcomes
  minds := h'.minds.trans h.minds

/-- Removing settled frames from a Mind. -/
theorem swept_remove {w : World} (hw : w.Filed) {m : MindId} {mind : Mind} (hmind : w.mind? m = some mind)
    {gone : List FrameId} (hgone : ∀ k ∈ gone, w.isSettled mind k = true) (live : Array FrameId) :
    Swept w (w.modifyMind m fun mind ↦
      { gone.foldl (fun mind id ↦ (mind.remove id).2) mind with live, unswept := false }) := by
  set w' := w.modifyMind m fun mind ↦
    { gone.foldl (fun mind id ↦ (mind.remove id).2) mind with live, unswept := false } with hw'
  have hentry : ∀ m' k, w'.entryAt m' k = if m' = m ∧ k ∈ gone then none else w.entryAt m' k := by
    intro m' k
    rw [hw', entryAt_modifyMind]
    by_cases hm : m' = m
    · subst hm
      have hfold : ({ gone.foldl (fun mind id ↦ (mind.remove id).2) mind with
          live, unswept := false } : Mind).entryAt k = if k ∈ gone then none else mind.entryAt k :=
        entryAt_foldl_remove gone mind k
      simp [hmind, hfold, entryAt]
    · simp [hm]
  have hsub : ∀ m' k e, w'.entryAt m' k = some e → w.entryAt m' k = some e := by
    intro m' k e he
    rw [hentry] at he
    split at he
    · exact absurd he.symm (Option.some_ne_none e)
    · exact he
  have htidy : w'.Tidy := hw.tidy.modifyMind m fun mind hmind ↦ (tidy_foldl_remove gone hmind).congr rfl rfl
  refine ⟨hw.of_entries htidy (fun _ ho ↦ ho) fun m' k e he ↦ ⟨e, hsub m' k e he, rfl⟩, fun m' k ↦ ?_, rfl, rfl,
    size_minds_modifyMind ..⟩
  have hcard : w'.card m' k = if m' = m ∧ k ∈ gone then none else w.card m' k := by
    unfold card
    rw [hentry]
    split <;> rfl
  rw [hcard]
  split
  · next hk =>
    obtain ⟨rfl, hk⟩ := hk
    have hsettled := hgone k hk
    unfold isSettled at hsettled
    cases he : mind.entryAt k with
    | none => simp [card, entryAt, hmind, he]
    | some e =>
      obtain ⟨cell, hcell⟩ := hw.card (show w.entryAt m' k = some e by simp [entryAt, hmind, he])
      have hfinished : w.isFinished e.handle = true := by simpa [he] using hsettled
      exact .inr ⟨rfl, _, hcell, (isFinished_of_card hcell).symm.trans hfinished⟩
  · exact .inl rfl

theorem swept_sweep {w : World} (hw : w.Filed) (m : MindId) : Swept w (w.sweep m) := by
  unfold sweep
  cases hmind : w.mind? m with
  | none => exact .of_still (.refl w) hw
  | some mind =>
    dsimp only
    split
    · rw [List.partition_eq_filter_filter]
      have hgone : ∀ k ∈ mind.live.toList.filter (w.isSettled mind), w.isSettled mind k = true :=
        fun k hk ↦ (List.mem_filter.mp hk).2
      have hremove := swept_remove hw hmind hgone
        (mind.live.toList.filter (not ∘ w.isSettled mind)).toArray
      exact hremove.trans (.of_still (still_release _ _) hremove.filed)
    · exact .of_still (.refl w) hw

/-! ### New Minds -/

theorem mind?_createMind (w : World) (name : String) (m : MindId) :
    (w.createMind name).2.mind? m = w.mind? m ∨ w.mind? m = none ∧ ∃ mind : Mind,
      (w.createMind name).2.mind? m = some mind ∧ mind.slots = #[] ∧ mind.free = [] := by
  simp only [createMind, mind?, Array.getElem?_push]
  split
  · next heq => exact .inr ⟨by simp [heq], _, rfl, rfl, rfl⟩
  · exact .inl rfl

theorem entryAt_createMind (w : World) (name : String) : (w.createMind name).2.entryAt = w.entryAt := by
  funext m id
  unfold entryAt
  rcases mind?_createMind w name m with heq | ⟨hnone, mind, hmind, hslots, -⟩
  · rw [heq]
  · simp [hnone, hmind, Mind.entryAt, hslots]

theorem card_createMind (w : World) (name : String) : (w.createMind name).2.card = w.card := by
  funext m id
  simp only [card, entryAt_createMind]
  rfl

theorem Filed.createMind {w : World} (h : w.Filed) (name : String) : (w.createMind name).2.Filed := by
  refine h.of_entries (fun m mind hm ↦ ?_) (fun _ ho ↦ ho) fun m id e he ↦ ⟨e, by rwa [entryAt_createMind] at he, rfl⟩
  rcases mind?_createMind w name m with heq | ⟨-, mind', hmind', -, hfree⟩
  · exact h.tidy m mind (heq ▸ hm)
  · obtain rfl := Option.some.inj (hmind'.symm.trans hm)
    exact ⟨by simp [hfree], by simp [hfree]⟩

end World

end MindScript
