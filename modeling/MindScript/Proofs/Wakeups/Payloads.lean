import MindScript.Proofs.Wakeups.Naps
import MindScript.Proofs.Wakeups.Turns

/-!
# What becomes of a payload

A notification puts its payload down with each frame that waits for the event.  There it stays, whatever else happens,
until the frame begins a step, which is given the payload, or settles.  Notifications, stops, steps and the parts of
updates come in any order; a story is a sequence of moments in which each deed leads to the next one.
-/

namespace MindScript

open Machine

/-! ### Stories -/

/-- Each of the first moments is followed by a deed. -/
def Story (M : ℕ → Moment) (N : ℕ) : Prop := ∀ i < N, ∃ pumped, Deed pumped (M i) (M (i + 1))

theorem Story.journey {M : ℕ → Moment} {N : ℕ} (h : Story M N) {i : ℕ} (hi : i ≤ N) : Journey (M 0) (M i) := by
  induction i with
  | zero => exact .refl
  | succ i ih => exact (ih (Nat.le_of_succ_le hi)).tail (h i hi)

theorem Journey.story {A B : Moment} (h : Journey A B) : ∃ M N, Story M N ∧ M 0 = A ∧ M N = B := by
  induction h with
  | refl => exact ⟨fun _ ↦ A, 0, fun i hi ↦ absurd hi (Nat.not_lt_zero i), rfl, rfl⟩
  | @tail B C _ hdeed ih =>
    obtain ⟨M, N, hstory, rfl, rfl⟩ := ih
    refine ⟨fun i ↦ if i ≤ N then M i else C, N + 1, fun i hi ↦ ?_, by simp, by simp⟩
    rcases Nat.lt_or_eq_of_le (Nat.le_of_lt_succ hi) with hlt | rfl
    · simpa [hlt.le, Nat.succ_le_of_lt hlt] using hstory i hlt
    · dsimp only
      rw [if_pos (Nat.le_refl i), if_neg (Nat.not_succ_le_self i)]
      exact hdeed

/-! ### Payloads -/

/-- The frame waits for the event and has been given a payload. -/
def World.Carries (w : World) (m : MindId) (k : FrameId) (event : String) (p : Ref) : Prop :=
  ∃ e, w.entryAt m k = some e ∧ e.wake = some (.event event) ∧ e.delivered = some p

/-- A frame uses its payload up. -/
inductive Moment.Uses (L : Moment) (m : MindId) (k : FrameId) (p : Ref) : Moment → Prop where
  /-- It begins a step, which is given the payload. -/
  | step {e : FrameEntry} {frame : Frame} : L.world.entryAt m k = some e → e.frame = some frame → e.delivered = some p →
      Uses L m k p ⟨(m, k) :: L.stack, L.world.takeFrame m k e frame⟩
  | settled {L' : Moment} {e : FrameEntry} : L.world.entryAt m k = some e → e.delivered = some p →
      L.world.isFinished e.handle = false → L'.world.isFinished e.handle = true → Uses L m k p L'

/-- The Mind is notified of an event that the frame waits for without a payload. -/
structure Moment.Tells (L : Moment) (m : MindId) (k : FrameId) (event : String) (p : Ref) (L' : Moment) : Prop where
  notify : L'.world = (L.world.notify m event p).2
  waits : ∃ e, L.world.entryAt m k = some e ∧ L.world.status e.handle = .suspended ∧ e.wake = some (.event event) ∧
    e.delivered = none

section

variable {pumped : Option MindId} {L L' : Moment} {m : MindId} {k : FrameId} {event : String} {p : Ref}

theorem Moment.Uses.carries (h : L.Uses m k p L') : ∃ e, L.world.entryAt m k = some e ∧ e.delivered = some p := by
  cases h with
  | step he _ hgiven => exact ⟨_, he, hgiven⟩
  | settled he hgiven _ _ => exact ⟨_, he, hgiven⟩

/-- A deed that begins a step of a frame takes the frame out of its entry. -/
theorem Deed.begins (h : Deed pumped L L') (hstack : L'.stack = (m, k) :: L.stack) :
    ∃ e frame, L.world.entryAt m k = some e ∧ e.frame = some frame ∧
      L' = ⟨(m, k) :: L.stack, L.world.takeFrame m k e frame⟩ := by
  have hlength := congrArg List.length hstack
  cases h with
  | begin he _ hframe =>
    obtain ⟨hkey, -⟩ := List.cons.inj hstack
    cases hkey
    exact ⟨_, _, he, hframe, rfl⟩
  | _ => simp only [List.length_cons] at hlength; omega

/-- In each deed a frame that has a payload keeps all that it has, or it uses the payload up. -/
theorem Deed.keeps_or_uses (h : Deed pumped L L') (hvalid : L.Valid) {e : FrameEntry} (he : L.world.entryAt m k = some e)
    (hwake : e.wake = some (.event event)) (hgiven : e.delivered = some p) :
    (∃ e', L'.world.entryAt m k = some e' ∧ e.Keeps e') ∨
      L.Uses m k p L' ∧ ∀ e', L'.world.entryAt m k = some e' → e'.delivered = none := by
  obtain ⟨hu, hframe⟩ := World.asleep hvalid he (World.status_of_wake hvalid he hwake)
  rcases h.cases_pumped with ⟨-, hstill, -⟩ | hdeed
  · exact .inl ⟨e, by rw [hstill.entryAt, he], .refl e⟩
  by_cases hbegin : L'.stack = (m, k) :: L.stack
  · obtain ⟨e₁, frame, he₁, hframe₁, rfl⟩ := hdeed.begins hbegin
    obtain rfl := Option.some.inj (he.symm.trans he₁)
    refine .inr ⟨.step he hframe₁ hgiven, fun e' he' ↦ ?_⟩
    rw [World.entryAt_takeFrame he, Option.some.injEq] at he'
    exact he' ▸ rfl
  rcases (hdeed.dozes hvalid (Option.some_ne_none m).symm hbegin).rests e he hframe hu with hfin | ⟨e', he', hkeeps, -⟩
  · refine .inr ⟨.settled he hgiven hu hfin, fun e' he' ↦ ?_⟩
    cases hdeed.origin hvalid he' with
    | awake hawake => exact hawake.delivered
    | @slept e₁ he₁ hnaps =>
      -- A frame that sleeps has not settled.
      obtain rfl := Option.some.inj (he.symm.trans he₁)
      have hstatus := World.status_of_wake (hvalid.act hdeed.act) he' (hnaps.wake.trans hwake)
      rw [hnaps.handle] at hstatus
      rw [World.isFinished, hstatus] at hfin
      cases hfin
    | returned hstack _ _ =>
      rw [hvalid.frame_of_mem (hstack ▸ List.mem_cons_self) he] at hframe
      cases hframe
    | notified _ he₁ hawaits _ =>
      obtain rfl := Option.some.inj (he.symm.trans he₁)
      cases hgiven.symm.trans (World.awaitsEvent_iff.mp hawaits).2.1
  · exact .inl ⟨e', he', hkeeps⟩

theorem FrameEntry.Keeps.given {e e' : FrameEntry} (h : e.Keeps e') (hgiven : e.delivered = some p) :
    e'.delivered = some p := by
  rw [h.delivered (by rw [hgiven]; rfl), hgiven]

/-- A frame that has used its payload up has none. -/
theorem Deed.not_carries (h : Deed pumped L L') (hvalid : L.Valid) (hslept : L.world.Slept) {q : Ref}
    (huses : L.Uses m k q L') : ¬ L'.world.Carries m k event p := by
  rintro ⟨e', he', hwake', hgiven'⟩
  obtain ⟨e, he, hgiven⟩ := huses.carries
  obtain ⟨name, hwake⟩ := hslept.event m k e he (by rw [hgiven]; rfl)
  rcases h.keeps_or_uses hvalid he hwake hgiven with ⟨e'', he'', hkeeps⟩ | ⟨-, hnone⟩
  · obtain rfl := Option.some.inj (he'.symm.trans he'')
    cases huses with
    | step he₁ hframe hgiven₁ =>
      rw [World.entryAt_takeFrame he₁, Option.some.injEq] at he'
      subst he'
      cases hwake'
    | settled he₁ _ _ hfin =>
      obtain rfl := Option.some.inj (he.symm.trans he₁)
      have hstatus := World.status_of_wake (hvalid.act h.act) he' hwake'
      rw [hkeeps.handle] at hstatus
      rw [World.isFinished, hstatus] at hfin
      cases hfin
  · cases hgiven'.symm.trans (hnone e' he')

/-- A frame that has a payload after a deed had it before, or has been given it by a notification of the event that it
waits for. -/
theorem Deed.carried (h : Deed pumped L L') (hvalid : L.Valid) (hslept : L.world.Slept)
    (hc : L'.world.Carries m k event p) : L.world.Carries m k event p ∨ L.Tells m k event p L' := by
  obtain ⟨e', he', hwake, hgiven⟩ := hc
  cases h.origin hvalid he' with
  | awake hawake => cases hgiven.symm.trans hawake.delivered
  | slept he hnaps => exact .inl ⟨_, he, hnaps.wake.symm.trans hwake, hnaps.delivered.symm.trans hgiven⟩
  | returned hstack _ hold =>
    rcases hold with hnone | ⟨e, he, hsame⟩
    · cases hgiven.symm.trans hnone
    · rw [← hsame, hvalid.delivered_of_mem hslept (hstack ▸ List.mem_cons_self) he] at hgiven
      cases hgiven
  | notified hnotify he hawaits heq =>
    subst heq
    obtain ⟨hawaited, hnone, -⟩ := World.awaitsEvent_iff.mp hawaits
    cases hawaited.symm.trans hwake
    cases hgiven
    exact .inr ⟨hnotify, _, he, World.status_of_wake hvalid he hawaited, hawaited, hnone⟩

end

/-! ### Payloads in a story -/

section

variable (M : ℕ → Moment) (N : ℕ) (m : MindId) (k : FrameId) (event : String) (p : Ref)

/-- Between two moments of a story the frame has the payload all along. -/
def Kept (i j : ℕ) : Prop := ∀ l, i ≤ l → l ≤ j → (M l).world.Carries m k event p

/-- In a story a frame has the payload of an event from a notification, keeps it until it uses it up, and then has none
until the next notification. -/
structure Moment.Fair : Prop where
  given : ∀ j ≤ N, (M j).world.Carries m k event p →
    Kept M m k event p 0 j ∨ ∃ i < j, (M i).Tells m k event p (M (i + 1)) ∧ Kept M m k event p (i + 1) j
  used : ∀ i j, i ≤ j → j ≤ N → (M i).world.Carries m k event p →
    Kept M m k event p i j ∨ ∃ l, i ≤ l ∧ l < j ∧ Kept M m k event p i l ∧ (M l).Uses m k p (M (l + 1))
  once : ∀ l j, l < j → j ≤ N → ∀ q, (M l).Uses m k q (M (l + 1)) → (M j).world.Carries m k event p →
    ∃ i, l < i ∧ i < j ∧ (M i).Tells m k event p (M (i + 1)) ∧ Kept M m k event p (i + 1) j

end

section

variable {M : ℕ → Moment} {N : ℕ} {m : MindId} {k : FrameId} {event : String} {p : Ref} {i j : ℕ}

theorem Kept.succ (h : Kept M m k event p i j) (hc : (M (j + 1)).world.Carries m k event p) :
    Kept M m k event p i (j + 1) := by
  intro l hil hlj
  rcases Nat.lt_or_eq_of_le hlj with hlt | rfl
  · exact h l hil (Nat.le_of_lt_succ hlt)
  · exact hc

theorem Kept.single (h : (M i).world.Carries m k event p) : Kept M m k event p i i :=
  fun _ hil hli ↦ Nat.le_antisymm hil hli ▸ h

namespace Story

variable (h : Story M N) (hvalid : (M 0).Valid)

include h hvalid

theorem valid (hj : j ≤ N) : (M j).Valid := hvalid.journey (h.journey hj)

theorem used (hij : i ≤ j) (hj : j ≤ N) (hc : (M i).world.Carries m k event p) :
    Kept M m k event p i j ∨ ∃ l, i ≤ l ∧ l < j ∧ Kept M m k event p i l ∧ (M l).Uses m k p (M (l + 1)) := by
  induction j with
  | zero =>
    obtain rfl := Nat.le_zero.mp hij
    exact .inl (.single hc)
  | succ j ih =>
    rcases Nat.lt_or_eq_of_le hij with hlt | rfl
    · rcases ih (Nat.le_of_lt_succ hlt) (Nat.le_of_succ_le hj) with hkept | ⟨l, hil, hlj, hrest⟩
      · have hle := Nat.le_of_lt_succ hlt
        obtain ⟨pumped, hdeed⟩ := h j hj
        obtain ⟨e, he, hwake, hgiven⟩ := hkept j hle (Nat.le_refl j)
        rcases hdeed.keeps_or_uses (h.valid hvalid (Nat.le_of_succ_le hj)) he hwake hgiven with
          ⟨e', he', hkeeps⟩ | ⟨huses, -⟩
        · exact .inl (hkept.succ ⟨e', he', hkeeps.wake.trans hwake, hkeeps.given hgiven⟩)
        · exact .inr ⟨j, hle, Nat.lt_succ_self j, hkept, huses⟩
      · exact .inr ⟨l, hil, Nat.lt_succ_of_lt hlj, hrest⟩
    · exact .inl (.single hc)

theorem given (hslept : (M 0).world.Slept) (hj : j ≤ N) (hc : (M j).world.Carries m k event p) :
    Kept M m k event p 0 j ∨ ∃ i < j, (M i).Tells m k event p (M (i + 1)) ∧ Kept M m k event p (i + 1) j := by
  induction j with
  | zero => exact .inl (.single hc)
  | succ j ih =>
    obtain ⟨pumped, hdeed⟩ := h j hj
    have hle := Nat.le_of_succ_le hj
    rcases hdeed.carried (h.valid hvalid hle) ((h.journey hle).slept hvalid hslept) hc with hbefore | htells
    · rcases ih hle hbefore with hkept | ⟨i, hi, htells, hkept⟩
      · exact .inl (hkept.succ hc)
      · exact .inr ⟨i, Nat.lt_succ_of_lt hi, htells, hkept.succ hc⟩
    · exact .inr ⟨j, Nat.lt_succ_self j, htells, .single hc⟩

theorem fair (hslept : (M 0).world.Slept) (m : MindId) (k : FrameId) (event : String) (p : Ref) :
    Moment.Fair M N m k event p where
  given _ := h.given hvalid hslept
  used _ _ := h.used hvalid
  once l j hlj hj q huses hc := by
    have hle := Nat.le_of_lt (Nat.lt_of_lt_of_le hlj hj)
    obtain ⟨pumped, hdeed⟩ := h l (Nat.lt_of_lt_of_le hlj hj)
    have hnot : ¬ (M (l + 1)).world.Carries m k event p :=
      hdeed.not_carries (h.valid hvalid hle) ((h.journey hle).slept hvalid hslept) huses
    rcases h.given hvalid hslept hj hc with hkept | ⟨i, hij, htells, hkept⟩
    · exact absurd (hkept (l + 1) (Nat.zero_le _) hlj) hnot
    · refine ⟨i, Nat.lt_of_not_le fun hil ↦ hnot (hkept (l + 1) (Nat.succ_le_succ hil) hlj), hij, htells, hkept⟩

/-- A frame that keeps its payload keeps all that it has. -/
theorem keeps (hkept : Kept M m k event p 0 N) {e : FrameEntry} (he : (M 0).world.entryAt m k = some e) :
    ∃ e', (M N).world.entryAt m k = some e' ∧ e.Keeps e' := by
  have hkeeps : ∀ j ≤ N, ∃ e', (M j).world.entryAt m k = some e' ∧ e.Keeps e' := by
    intro j hj
    induction j with
    | zero => exact ⟨e, he, .refl e⟩
    | succ j ih =>
      have hle := Nat.le_of_succ_le hj
      obtain ⟨e₁, he₁, hkeeps⟩ := ih hle
      obtain ⟨e₁', he₁', hwake, hgiven⟩ := hkept j (Nat.zero_le j) hle
      obtain rfl := Option.some.inj (he₁.symm.trans he₁')
      obtain ⟨pumped, hdeed⟩ := h j hj
      rcases hdeed.keeps_or_uses (h.valid hvalid hle) he₁ hwake hgiven with ⟨e₂, he₂, hkeeps'⟩ | ⟨-, hnone⟩
      · exact ⟨e₂, he₂, hkeeps.trans hkeeps'⟩
      · obtain ⟨e₂, he₂, -, hgiven₂⟩ := hkept (j + 1) (Nat.zero_le _) hj
        cases hgiven₂.symm.trans (hnone e₂ he₂)
  exact hkeeps N (Nat.le_refl N)

/-- A frame that has made a step or has settled in the end has used its payload up. -/
theorem used_of_moved (hc : (M 0).world.Carries m k event p) (hmoved : World.Moved m k (M 0).world (M N).world) :
    ∃ l < N, Kept M m k event p 0 l ∧ (M l).Uses m k p (M (l + 1)) := by
  rcases h.used hvalid (Nat.zero_le N) (Nat.le_refl N) hc with hkept | ⟨l, -, hl, hkept, huses⟩
  · exfalso
    obtain ⟨e, he, hmoves⟩ := hmoved
    obtain ⟨e', he', hkeeps⟩ := h.keeps hvalid hkept he
    obtain ⟨e'', he'', hwake, -⟩ := hkept N (Nat.zero_le N) (Nat.le_refl N)
    obtain rfl := Option.some.inj (he'.symm.trans he'')
    rcases hmoves with hfin | ⟨e'', he'', -, frame, frame', hframe, hframe', hlt⟩
    · have hvalid' := h.valid hvalid (Nat.le_refl N)
      obtain ⟨hu, -⟩ := World.asleep hvalid' he' (World.status_of_wake hvalid' he' hwake)
      rw [hkeeps.handle, hfin] at hu
      cases hu
    · obtain rfl := Option.some.inj (he'.symm.trans he'')
      obtain rfl := Option.some.inj (hframe.symm.trans (hkeeps.frame.symm.trans hframe'))
      exact Nat.lt_irrefl _ hlt
  · exact ⟨l, hl, hkept, huses⟩

end Story

end

end MindScript
