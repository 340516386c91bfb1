import MindScript.Proofs.Scheduler.Listed
import MindScript.Proofs.Wakeups.Heeds

/-!
# What a notification does

A notification gives its payload to the frames that the Mind lists, that sleep until this event happens and that have
not been given a payload yet, and does nothing else to any frame.
-/

namespace MindScript.World

variable (w : World) (m m' : MindId) (event : String) (payload : Ref)

/-- The frames that a notification is for. -/
def hearers : List FrameId := (w.live m).filter fun id ↦ (w.entryAt m id).any (w.awaitsEvent event)

/-- Put a payload down with one frame. -/
def deliver (w : World) (id : FrameId) : World :=
  (w.retain (.object payload)).modifyEntry m id fun e ↦ { e with delivered := some payload }

/-- The world after a notification: the hearers have been given the payload, and an update under way looks at them
again. -/
theorem notify_eq : w.notify m event payload = ((w.hearers m event).length,
    if w.isUpdating m then
      ((w.hearers m event).foldl (deliver m payload) w).modifyMind m fun mind ↦ mind.wake (w.hearers m event).toArray
    else (w.hearers m event).foldl (deliver m payload) w) := by
  have hentry : ∀ mind, w.mind? m = some mind → w.entryAt m = mind.entryAt := fun mind hmind ↦ by
    funext id
    rw [entryAt, hmind, Option.bind_some]
  unfold notify
  cases hmind : w.mind? m with
  | none => simp [hearers, live, isUpdating, hmind]
  | some mind =>
    have hlive : w.live m = mind.live.toList := by simp [live, hmind]
    have hupdating : w.isUpdating m = mind.updating := by simp [isUpdating, hmind]
    simp only [hearers, hlive, hupdating, hentry mind hmind]
    rfl

theorem mem_hearers {w : World} {m : MindId} {event : String} {id : FrameId} : id ∈ w.hearers m event ↔
    id ∈ w.live m ∧ ∃ e, w.entryAt m id = some e ∧ w.awaitsEvent event e = true := by
  rw [hearers, List.mem_filter, Option.any_eq_true]

theorem awaitsEvent_iff {w : World} {event : String} {e : FrameEntry} : w.awaitsEvent event e = true ↔
    e.wake = some (.event event) ∧ e.delivered = none ∧ w.isFinished e.handle = false := by
  unfold awaitsEvent
  rcases e.wake with _ | wake
  · simp
  · cases wake <;> simp [and_assoc]

variable {w m m' event payload}

/-- A notification gives the payload to the hearers and leaves all other frames alone. -/
theorem entryAt_notify (k : FrameId) : (w.notify m event payload).2.entryAt m' k =
    (w.entryAt m' k).map fun e ↦ if m' = m ∧ k ∈ w.hearers m event then { e with delivered := some payload } else e := by
  have hdelivered : ∀ (ids : List FrameId) (w : World), (ids.foldl (deliver m payload) w).entryAt m' k =
      (w.entryAt m' k).map fun e ↦ if m' = m ∧ k ∈ ids then { e with delivered := some payload } else e := by
    intro ids
    induction ids with
    | nil => simp
    | cons id rest ih =>
      intro w
      rw [List.foldl_cons, ih, deliver, entryAt_modifyEntry, (still_retain w _).entryAt, Option.map_map]
      congr 1
      funext e
      by_cases hm : m' = m <;> by_cases hk : k = id <;> by_cases hmem : k ∈ rest <;> simp [hm, hk, hmem]
  have hwoken : ∀ (w : World) (ids : Array FrameId), (w.modifyMind m (·.wake ids)).entryAt m' k = w.entryAt m' k := by
    intro w ids
    rw [entryAt_modifyMind]
    split
    · next heq =>
      rw [heq, entryAt]
      cases w.mind? m with
      | none => rfl
      | some mind =>
        rw [Option.bind_some, Option.bind_some, Mind.entryAt_congr (Mind.slots_wake mind ids)]
    · rfl
  rw [notify_eq]
  dsimp only
  split
  · rw [hwoken, hdelivered]
  · exact hdelivered _ w

theorem cell?_notify : (w.notify m event payload).2.cell? = w.cell? := by
  have hdelivered := rel_foldl (R := fun v w ↦ w.cell? = v.cell?) (f := deliver m payload) (fun _ ↦ rfl)
    (fun h h' ↦ h'.trans h) (fun w id ↦ (still_retain w (.object payload)).cell?) (w.hearers m event) w
  rw [notify_eq]
  dsimp only
  split
  · exact hdelivered
  · exact hdelivered

theorem isFinished_notify : (w.notify m event payload).2.isFinished = w.isFinished := by
  funext x
  rw [isFinished, isFinished, status_eq, status_eq, cell?_notify]

theorem status_notify : (w.notify m event payload).2.status = w.status := by
  funext x
  rw [status_eq, status_eq, cell?_notify]

/-- Nobody leaves a ready queue. -/
theorem ready_notify {k : FrameId} (hk : k ∈ w.ready m') : k ∈ (w.notify m event payload).2.ready m' := by
  have hdelivered := rel_foldl (R := fun v w ↦ k ∈ v.ready m' → k ∈ w.ready m') (f := deliver m payload) (fun _ ↦ id)
    (fun h h' hk ↦ h' (h hk)) (fun _ _ ↦ mem_ready_modifyMind fun _ _ _ ↦ id) (w.hearers m event) w hk
  rw [notify_eq]
  dsimp only
  split
  · refine mem_ready_modifyMind (fun _ mind _ hk ↦ ?_) hdelivered
    rw [Mind.ready_wake]
    exact List.mem_append_left _ hk
  · exact hdelivered

end MindScript.World
