import MindScript.Proofs.Custody.Restored
import MindScript.Proofs.Custody.Resumptions
import MindScript.Proofs.Custody.Wakeups
import MindScript.Proofs.Wakeups.Payloads

/-!
# Payloads go to those who wait

A notification gives its payload to the frames that wait for the event, each of which uses it up once: in a step, or when it
settles, and in the next update of its Mind at the latest.  This holds in all worlds that hosts come to, and wherever a
native member notifies, stops or updates in the middle of a call.
-/

namespace MindScript

open Machine

variable {owned : List Link} {w : World} {m : MindId}

/-- A frame that waits for an event is due once it has a payload. -/
theorem World.delivered_of_isDue {f : FrameId} {e : FrameEntry} {event : String} (hdue : w.isDue m f = true)
    (he : w.entryAt m f = some e) (hwake : e.wake = some (.event event)) : e.delivered.isSome = true := by
  rw [isDue, timeWakeDue_of_event he hwake, Bool.false_or] at hdue
  obtain ⟨e', he', -, hhappened⟩ := conditionHolds_iff.mp hdue
  obtain rfl := Option.some.inj (he.symm.trans he')
  cases hhappened with
  | delivered _ hgiven => exact hgiven
  | finished h _ => cases hwake.symm.trans h
  | decided h _ _ _ => cases hwake.symm.trans h
  | childless h _ _ => cases hwake.symm.trans h

/-- A notification is for the frames that sleep until the event and have no payload. -/
theorem World.Sane.mem_hearers {σ : Footing} {A : List Link} (h : Sane σ A w) {event : String} {k : FrameId} :
    k ∈ w.hearers m event ↔ ∃ e, w.entryAt m k = some e ∧ w.status e.handle = .suspended ∧
      e.wake = some (.event event) ∧ e.delivered = none := by
  rw [World.mem_hearers]
  constructor
  · rintro ⟨-, e, he, hawaits⟩
    obtain ⟨hwake, hnone, -⟩ := World.awaitsEvent_iff.mp hawaits
    exact ⟨e, he, World.status_of_wake h.books.valid he hwake, hwake, hnone⟩
  · rintro ⟨e, he, hs, hwake, hnone⟩
    obtain ⟨hu, -⟩ := World.asleep h.books.valid he hs
    exact ⟨(h.books.listed.mem m k).mpr (by rw [he]; rfl), e, he, World.awaitsEvent_iff.mpr ⟨hwake, hnone, hu⟩⟩

theorem World.Sane.nodup_hearers {σ : Footing} {A : List Link} (h : Sane σ A w) (event : String) :
    (w.hearers m event).Nodup :=
  (h.books.listed.once m).filter _

/-- Whoever has a payload makes a step in the phases of an update, or settles. -/
theorem World.Sane.moved_of_carries {σ : Footing} {A : List Link} (h : Sane σ A w) (hidle : w.Idle m) {n k : ℕ}
    {elapsed : Float} {w' : World}
    (hrun : Machine.resumePhases (.ofBudget n) m (Machine.beginUpdate m elapsed w).2 = (.ok k, w')) {f : FrameId}
    {event : String} {p : Ref} (hc : w.Carries m f event p) : World.Moved m f w w' := by
  have hbegun := h.beginUpdate m elapsed
  have hentry : (Machine.beginUpdate m elapsed w).2.entryAt m f = w.entryAt m f := by
    rw [(w.still_beginUpdate m elapsed).entryAt]
  obtain ⟨-, -, -, hmoved, -⟩ := hbegun.resumePhases (hidle.isUpdating_beginUpdate elapsed) hrun
  obtain ⟨e, he, hwake, hgiven⟩ := hc
  rw [← hentry] at he
  have hs := World.status_of_wake hbegun.books.valid he hwake
  have hcond := World.conditionHolds_iff.mpr ⟨e, he, hs, .delivered hwake (by rw [hgiven]; rfl)⟩
  obtain ⟨e', he', hmoves⟩ := hmoved f ((hbegun.books.listed.mem m f).mpr (by rw [he]; rfl)) hcond
  exact ⟨e', hentry.symm.trans he', hmoves⟩

/-- The phases of an update are a journey. -/
theorem World.Sane.journey_phases {σ : Footing} {A : List Link} (h : Sane σ A w) (hidle : w.Idle m) {n k : ℕ}
    {elapsed : Float} {w' : World}
    (hrun : Machine.resumePhases (.ofBudget n) m (Machine.beginUpdate m elapsed w).2 = (.ok k, w')) :
    Journey ⟨σ.stack, w⟩ ⟨σ.stack, w'⟩ := by
  obtain ⟨hwatched, -⟩ := (h.beginUpdate m elapsed).resumePhases (hidle.isUpdating_beginUpdate elapsed) hrun
  exact .head ⟨_, World.deed_beginUpdate σ.stack w m elapsed⟩ hwatched.vigil.journey

/-- In every reached world a notification gives its payload to just the frames that sleep until this event and have no
payload, and returns their number.  In all that may happen from there, frames have payloads from notifications of the events
that they wait for, and keep them until they use them up, after which they have none.  A call that comes to resume a frame
that waits for an event has its payload to give to it.  An update leaves no payload that was there when it was called. -/
theorem payloads_go_to_waiting (hw : Reached owned w) :
    (∀ m event p, (w.notify m event p).1 = (w.hearers m event).length ∧ (w.hearers m event).Nodup ∧
      (∀ k, k ∈ w.hearers m event ↔ ∃ e, w.entryAt m k = some e ∧ w.status e.handle = .suspended ∧
        e.wake = some (.event event) ∧ e.delivered = none) ∧
      ∀ m' k, (w.notify m event p).2.entryAt m' k =
        (w.entryAt m' k).map fun e ↦ if m' = m ∧ k ∈ w.hearers m event then { e with delivered := some p } else e) ∧
    ∃ s, Moment.Valid ⟨s, w⟩ ∧
      (∀ M N, Story M N → M 0 = ⟨s, w⟩ → ∀ m k event p, Moment.Fair M N m k event p) ∧
      (∀ n {α : Type} (f : Machine α) v, Passes n w.setting f w none v →
        ∃ M N, Story M N ∧ M 0 = ⟨s, w⟩ ∧ (M N).world = v) ∧
      (∀ n {α : Type} (f : Machine α) m k v e event, Passes n w.setting f w (some (m, k)) v → v.entryAt m k = some e →
        e.wake = some (.event event) → (∃ M N, Story M N ∧ M 0 = ⟨s, w⟩ ∧ (M N).world = v) ∧
          ∃ p frame, e.delivered = some p ∧ e.frame = some frame ∧
            ∀ j, (Engine.ofBudget (j + 1)).resume m k v = runFrame (.ofBudget j) m k e frame v) ∧
      ∀ m elapsed n, w.Idle m → (update (.ofBudget n) m elapsed w).1 ≠ .error .exhausted →
        ∃ resumed w', resumePhases (.ofBudget n) m (beginUpdate m elapsed w).2 = (.ok resumed, w') ∧
          (∃ M N, Story M N ∧ M 0 = ⟨s, w⟩ ∧ (M N).world = w') ∧
          ∀ M N, Story M N → M 0 = ⟨s, w⟩ → (M N).world = w' → ∀ k event p, w.Carries m k event p →
            ∃ l < N, Kept M m k event p 0 l ∧ (M l).Uses m k p (M (l + 1)) := by
  obtain ⟨σ, hsane⟩ := hw.sane
  have hvalid := hsane.books.valid
  have hstarts : Starts w.setting σ.stack w := ⟨hvalid, hvalid.current.symm, Nat.le_refl _, hw.deferred⟩
  have hstory : ∀ {s' v}, Journey ⟨σ.stack, w⟩ ⟨s', v⟩ → ∃ M N, Story M N ∧ M 0 = ⟨σ.stack, w⟩ ∧ (M N).world = v := by
    intro s' v hjourney
    obtain ⟨M, N, hM, hM₀, hMN⟩ := hjourney.story
    exact ⟨M, N, hM, hM₀, congrArg Moment.world hMN⟩
  refine ⟨fun m event p ↦ ⟨?_, hsane.nodup_hearers event, fun k ↦ hsane.mem_hearers, fun m' k ↦ World.entryAt_notify k⟩,
    σ.stack, hvalid, fun M N hM hM₀ m k event p ↦ hM.fair (hM₀ ▸ hvalid) (hM₀ ▸ hw.slept) m k event p,
    fun n α f v hpasses ↦ ?_, fun n α f m k v e event hpasses he hwake ↦ ?_, fun m elapsed n hidle hne ↦ ?_⟩
  · rw [World.notify_eq]
  · obtain ⟨s', hjourney⟩ := hpasses.satisfies passing_journey σ.stack hstarts fun _ _ hk ↦ by cases hk
    exact hstory hjourney
  · have hne : e.wake ≠ none := by simp [hwake]
    obtain ⟨s', hjourney⟩ := hpasses.satisfies passing_journey σ.stack hstarts fun m' k' hk ↦ by
      cases hk
      exact ⟨e, he, hne⟩
    obtain ⟨hdue, -⟩ := (hpasses.satisfies passing_ripe σ.stack hstarts m k rfl e he).resolve_left hne
    have hs := World.status_of_wake (hvalid.journey hjourney) he hwake
    obtain ⟨hu, hframe⟩ := World.asleep (hvalid.journey hjourney) he hs
    obtain ⟨frame, hframe⟩ := Option.isSome_iff_exists.mp hframe
    obtain ⟨p, hgiven⟩ := Option.isSome_iff_exists.mp (World.delivered_of_isDue hdue he hwake)
    refine ⟨hstory hjourney, p, frame, hgiven, hframe, fun j ↦ ?_⟩
    exact resumeFrame_of_stored he hu hframe
  · obtain ⟨resumed, w', hrun, -⟩ := phases_of_update hidle hne
    refine ⟨resumed, w', hrun, hstory (hsane.journey_phases hidle hrun), fun M N hM hM₀ hMN k event p hc ↦ ?_⟩
    exact hM.used_of_moved (hM₀ ▸ hvalid) (hM₀ ▸ hc)
      (by rw [hM₀, hMN]; exact hsane.moved_of_carries hidle hrun hc)

/-- The coroutine has the payload of the event and uses it up in the next update. -/
theorem payloads_go_to_waiting_notified : ∃ owned s M N resumed w', Reached owned World.notified ∧
    World.notified.Carries ⟨0⟩ ⟨0, 0⟩ "ping" .nil ∧ World.notified.Idle ⟨0⟩ ∧
    resumePhases (.ofBudget 2) ⟨0⟩ (beginUpdate ⟨0⟩ 0.5 World.notified).2 = (.ok resumed, w') ∧
    Story M N ∧ M 0 = ⟨s, World.notified⟩ ∧ (M N).world = w' ∧
    ∃ l < N, Kept M ⟨0⟩ ⟨0, 0⟩ "ping" .nil 0 l ∧ (M l).Uses ⟨0⟩ ⟨0, 0⟩ .nil (M (l + 1)) := by
  obtain ⟨owned, hnotified⟩ := Reached.notified
  obtain ⟨e, he, hwake, hgiven, -⟩ := World.entryAt_notified
  have hc : World.notified.Carries ⟨0⟩ ⟨0, 0⟩ "ping" .nil := ⟨e, he, hwake, hgiven⟩
  obtain ⟨-, s, -, -, -, -, hupdate⟩ := payloads_go_to_waiting hnotified
  obtain ⟨resumed, w', hrun, ⟨M, N, hM, hM₀, hMN⟩, huses⟩ :=
    hupdate ⟨0⟩ 0.5 2 World.idle_notified update_notified_ends
  exact ⟨owned, s, M, N, resumed, w', hnotified, hc, World.idle_notified, hrun, hM, hM₀, hMN,
    huses M N hM hM₀ hMN ⟨0, 0⟩ "ping" .nil hc⟩

end MindScript
