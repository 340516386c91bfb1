import MindScript.Proofs.Alike
import MindScript.Proofs.Scheduler.Deeds

/-!
# The loops of an update, written down

An update looks at one frame after another and resumes those that have something to do.  Here its loops are written once
more such that they hand over whom they have looked at, in which world and on what account; the steps that an update
counts are the turns in which a frame was resumed.  What else is known of an update comes by induction on its turns.
-/

namespace MindScript

open Machine

/-! ### Queues -/

namespace World

/-- Only the queues of the Mind differ. -/
structure Shifted (m : MindId) (w w' : World) : Prop where
  still : Still w w'
  steady : Steady w w'
  tends : Tends (some m) w w'
  updating : w'.isUpdating m = w.isUpdating m
  clock : w'.clock m = w.clock m
  tick : w'.tick m = w.tick m

variable {w w₀ : World} {m : MindId} {s : List FrameKey}

theorem shifted_modifyMind {F : Mind → Mind} (hslots : ∀ mind, (F mind).slots = mind.slots)
    (hfree : ∀ mind, (F mind).free = mind.free) (hlive : ∀ mind, (F mind).live = mind.live)
    (hupdating : ∀ mind, (F mind).updating = mind.updating) (hclock : ∀ mind, (F mind).clock = mind.clock)
    (htick : ∀ mind, (F mind).tick = mind.tick) : Shifted m w (w.modifyMind m F) :=
  ⟨still_modifyMind w m hslots hfree, (inward_modifyMind w m F).steady,
    tends_modifyMind w m hlive (fun mind ↦ (htick mind).ge) (absurd rfl),
    congrArg (·.getD false) (w.map_mind?_modifyMind fun _ mind ↦ hupdating mind),
    congrArg (·.getD 0) (w.map_mind?_modifyMind fun _ mind ↦ hclock mind),
    congrArg (·.getD 0) (w.map_mind?_modifyMind fun _ mind ↦ htick mind)⟩

theorem Shifted.deed (h : Shifted m w w₀) : Deed (some m) ⟨s, w⟩ ⟨s, w₀⟩ := .compute h.still h.steady h.tends

/-- A queue is empty, or its first frame is taken out of it. -/
theorem popReady_cases (m : MindId) (w : World) : (popReady m w = (.ok none, w) ∧ w.ready m = []) ∨
    ∃ id w₀, popReady m w = (.ok (some id), w₀) ∧ w.ready m = id :: w₀.ready m ∧ Shifted m w w₀ := by
  unfold popReady
  rw [modifyGet_apply]
  cases hmind : w.mind? m with
  | none => exact .inl ⟨by simp, by simp [ready, hmind]⟩
  | some mind =>
    cases hready : mind.ready with
    | nil => exact .inl ⟨by simp [hready], by simp [ready, hmind, hready]⟩
    | cons id rest =>
      refine .inr ⟨id, w.modifyMind m fun mind ↦ { mind with ready := rest }, by simp [hready], ?_,
        shifted_modifyMind (fun _ ↦ rfl) (fun _ ↦ rfl) (fun _ ↦ rfl) (fun _ ↦ rfl) (fun _ ↦ rfl) fun _ ↦ rfl⟩
      simp [ready, mind?_modifyMind, hmind, hready]

theorem popPending_cases (m : MindId) (w : World) : (popPending m w = (.ok none, w) ∧ w.pending m = []) ∨
    ∃ id w₀, popPending m w = (.ok (some id), w₀) ∧ w.pending m = id :: w₀.pending m ∧ w₀.ready m = w.ready m ∧
      Shifted m w w₀ := by
  unfold popPending
  rw [modifyGet_apply]
  cases hmind : w.mind? m with
  | none => exact .inl ⟨by simp, by simp [pending, hmind]⟩
  | some mind =>
    cases hpending : mind.pending with
    | nil => exact .inl ⟨by simp [hpending], by simp [pending, hmind, hpending]⟩
    | cons id rest =>
      refine .inr ⟨id, w.modifyMind m fun mind ↦ { mind with pending := rest }, by simp [hpending], ?_, ?_,
        shifted_modifyMind (fun _ ↦ rfl) (fun _ ↦ rfl) (fun _ ↦ rfl) (fun _ ↦ rfl) (fun _ ↦ rfl) fun _ ↦ rfl⟩
      · simp [pending, mind?_modifyMind, hmind, hpending]
      · simp [ready, mind?_modifyMind, hmind]

end World

/-! ### Turns -/

/-- On what account an update looks at a frame. -/
inductive Cause where
  /-- The time that it sleeps until may have come. -/
  | clock
  /-- What it waits for may have happened before its turn. -/
  | poll
  /-- It was woken in this update. -/
  | queue
  /-- Its first step was left to this update. -/
  | deferral
  deriving DecidableEq

/-- A turn of a frame in an update. -/
structure Turn where
  cause : Cause
  frame : FrameId
  /-- The world in which the turn begins. -/
  world : World
  /-- Whether the frame is resumed. -/
  resumed : Bool

namespace Machine

def readyTurns (E : Engine) (m : MindId) : Nat → Machine (List Turn)
  | 0 => exhausted
  | n + 1 => do
    match ← popReady m with
    | none => return []
    | some id =>
      let w ← get
      if w.conditionHolds m id then
        E.resume m id
        let later ← readyTurns E m n
        return ⟨.queue, id, w, true⟩ :: later
      else
        let later ← readyTurns E m n
        return ⟨.queue, id, w, false⟩ :: later

def dueTurns (E : Engine) (m : MindId) (cause : Cause) (isDue : World → FrameId → Bool) :
    List FrameId → Machine (List Turn)
  | [] => return []
  | id :: rest => do
    let w ← get
    if isDue w id then
      E.resume m id
      let woken ← readyTurns E m E.budget
      let later ← dueTurns E m cause isDue rest
      return ⟨cause, id, w, true⟩ :: (woken ++ later)
    else
      let later ← dueTurns E m cause isDue rest
      return ⟨cause, id, w, false⟩ :: later

def pendingTurns (E : Engine) (m : MindId) : Nat → Machine (List Turn)
  | 0 => exhausted
  | n + 1 => do
    match ← popPending m with
    | none => return []
    | some id =>
      let w ← get
      E.resume m id
      let woken ← readyTurns E m E.budget
      let later ← pendingTurns E m n
      return ⟨.deferral, id, w, true⟩ :: (woken ++ later)

/-- All turns of an update, in order. -/
def turns (E : Engine) (m : MindId) : Machine (List Turn) := do
  let order := (← get).live m
  let timed ← dueTurns E m .clock (fun w id ↦ w.timeWakeDue m id) order
  let polled ← dueTurns E m .poll (fun w id ↦ w.conditionHolds m id) order
  let woken ← readyTurns E m E.budget
  let started ← pendingTurns E m E.budget
  return timed ++ (polled ++ (woken ++ started))

/-- The number of steps in some turns. -/
def steps (turns : List Turn) : Nat := turns.countP Turn.resumed

@[simp] theorem steps_nil : steps [] = 0 := rfl

@[simp] theorem steps_cons (t : Turn) (turns : List Turn) :
    steps (t :: turns) = (if t.resumed then 1 else 0) + steps turns := by
  rw [steps, List.countP_cons, Nat.add_comm, steps]

@[simp] theorem steps_append (turns turns' : List Turn) : steps (turns ++ turns') = steps turns + steps turns' :=
  List.countP_append

/-! ### The loops are those of the update -/

variable (E : Engine) (m : MindId)

theorem drainReady_eq (n r : Nat) :
    drainReady E m n r = readyTurns E m n >>= fun turns ↦ pure (r + steps turns) := by
  induction n generalizing r with
  | zero => rfl
  | succ n ih =>
    simp only [drainReady, readyTurns, bind_assoc]
    congr 1
    funext id?
    cases id? with
    | none => rfl
    | some id =>
      simp only [bind_assoc]
      congr 1
      funext w
      split
      · simp [ih, Nat.add_assoc]
      · simp [ih]

theorem resumeDue_eq (cause : Cause) (isDue : World → FrameId → Bool) (ids : List FrameId) (r : Nat) :
    resumeDue E m isDue ids r = dueTurns E m cause isDue ids >>= fun turns ↦ pure (r + steps turns) := by
  induction ids generalizing r with
  | nil => rfl
  | cons id rest ih =>
    simp only [resumeDue, dueTurns, bind_assoc]
    congr 1
    funext w
    split
    · simp [ih, drainReady_eq, Nat.add_assoc]
    · simp [ih]

theorem drainPending_eq (n r : Nat) :
    drainPending E m n r = pendingTurns E m n >>= fun turns ↦ pure (r + steps turns) := by
  induction n generalizing r with
  | zero => rfl
  | succ n ih =>
    simp only [drainPending, pendingTurns, bind_assoc]
    congr 1
    funext id?
    cases id? with
    | none => rfl
    | some id =>
      funext w
      simp only [bind_assoc]
      rw [get_bind]
      simp [ih, drainReady_eq, Nat.add_assoc]

/-- The steps of an update are those of its turns. -/
theorem resumePhases_eq : resumePhases E m = turns E m >>= fun turns ↦ pure (steps turns) := by
  simp only [resumePhases, turns, bind_assoc, resumeDue_eq E m .clock fun w id ↦ w.timeWakeDue m id,
    resumeDue_eq E m .poll fun w id ↦ w.conditionHolds m id, drainReady_eq, drainPending_eq]
  simp [World.live, Nat.add_assoc]

/-! ### One turn at a time -/

variable {E m} {n : Nat} {ts : List Turn} {w w' : World}

/-- The next turn in a drain of the ready queue. -/
theorem readyTurns_cases (hrun : readyTurns E m (n + 1) w = (.ok ts, w')) :
    (w.ready m = [] ∧ ts = [] ∧ w' = w) ∨
    ∃ id w₀, popReady m w = (.ok (some id), w₀) ∧ w.ready m = id :: w₀.ready m ∧ World.Shifted m w w₀ ∧
      ((w₀.conditionHolds m id = true ∧ ∃ w₁ later, E.resume m id w₀ = (.ok (), w₁) ∧
          readyTurns E m n w₁ = (.ok later, w') ∧ ts = ⟨.queue, id, w₀, true⟩ :: later) ∨
        (w₀.conditionHolds m id = false ∧ ∃ later, readyTurns E m n w₀ = (.ok later, w') ∧
          ts = ⟨.queue, id, w₀, false⟩ :: later)) := by
  unfold readyTurns at hrun
  rcases World.popReady_cases m w with ⟨hpop, hempty⟩ | ⟨id, w₀, hpop, hready, hshifted⟩
  · rw [bind_of_ok hpop] at hrun
    cases hrun
    exact .inl ⟨hempty, rfl, rfl⟩
  rw [bind_of_ok hpop] at hrun
  dsimp only at hrun
  rw [get_bind] at hrun
  refine .inr ⟨id, w₀, hpop, hready, hshifted, ?_⟩
  cases hcond : w₀.conditionHolds m id with
  | true =>
    rw [hcond, if_pos rfl] at hrun
    obtain ⟨⟨⟩, w₁, hresume, hrun⟩ := exists_of_bind_eq_ok hrun
    obtain ⟨later, w₂, hlater, hrun⟩ := exists_of_bind_eq_ok hrun
    cases hrun
    exact .inl ⟨rfl, w₁, later, hresume, hlater, rfl⟩
  | false =>
    rw [hcond, if_neg Bool.false_ne_true] at hrun
    obtain ⟨later, w₂, hlater, hrun⟩ := exists_of_bind_eq_ok hrun
    cases hrun
    exact .inr ⟨rfl, later, hlater, rfl⟩

/-- The next turn among the frames of a list: those that are resumed wake others, which come next. -/
theorem dueTurns_cases {cause : Cause} {isDue : World → FrameId → Bool} {id : FrameId} {rest : List FrameId}
    (hrun : dueTurns E m cause isDue (id :: rest) w = (.ok ts, w')) :
    (isDue w id = true ∧ ∃ w₁ woken w₂ later, E.resume m id w = (.ok (), w₁) ∧
        readyTurns E m E.budget w₁ = (.ok woken, w₂) ∧ dueTurns E m cause isDue rest w₂ = (.ok later, w') ∧
        ts = ⟨cause, id, w, true⟩ :: (woken ++ later)) ∨
      (isDue w id = false ∧ ∃ later, dueTurns E m cause isDue rest w = (.ok later, w') ∧
        ts = ⟨cause, id, w, false⟩ :: later) := by
  unfold dueTurns at hrun
  rw [get_bind] at hrun
  cases hcond : isDue w id with
  | true =>
    rw [hcond, if_pos rfl] at hrun
    obtain ⟨⟨⟩, w₁, hresume, hrun⟩ := exists_of_bind_eq_ok hrun
    obtain ⟨woken, w₂, hwoken, hrun⟩ := exists_of_bind_eq_ok hrun
    obtain ⟨later, w₃, hlater, hrun⟩ := exists_of_bind_eq_ok hrun
    cases hrun
    exact .inl ⟨rfl, w₁, woken, w₂, later, hresume, hwoken, hlater, rfl⟩
  | false =>
    rw [hcond, if_neg Bool.false_ne_true] at hrun
    obtain ⟨later, w₂, hlater, hrun⟩ := exists_of_bind_eq_ok hrun
    cases hrun
    exact .inr ⟨rfl, later, hlater, rfl⟩

/-- The next first step. -/
theorem pendingTurns_cases (hrun : pendingTurns E m (n + 1) w = (.ok ts, w')) :
    (w.pending m = [] ∧ ts = [] ∧ w' = w) ∨
    ∃ id w₀ w₁ woken w₂ later, popPending m w = (.ok (some id), w₀) ∧ w.pending m = id :: w₀.pending m ∧
      w₀.ready m = w.ready m ∧ World.Shifted m w w₀ ∧ E.resume m id w₀ = (.ok (), w₁) ∧
      readyTurns E m E.budget w₁ = (.ok woken, w₂) ∧ pendingTurns E m n w₂ = (.ok later, w') ∧
      ts = ⟨.deferral, id, w₀, true⟩ :: (woken ++ later) := by
  unfold pendingTurns at hrun
  rcases World.popPending_cases m w with ⟨hpop, hempty⟩ | ⟨id, w₀, hpop, hpending, hsame, hshifted⟩
  · rw [bind_of_ok hpop] at hrun
    cases hrun
    exact .inl ⟨hempty, rfl, rfl⟩
  rw [bind_of_ok hpop] at hrun
  dsimp only at hrun
  rw [get_bind] at hrun
  obtain ⟨⟨⟩, w₁, hresume, hrun⟩ := exists_of_bind_eq_ok hrun
  obtain ⟨woken, w₂, hwoken, hrun⟩ := exists_of_bind_eq_ok hrun
  obtain ⟨later, w₃, hlater, hrun⟩ := exists_of_bind_eq_ok hrun
  cases hrun
  exact .inr ⟨id, w₀, w₁, woken, w₂, later, hpop, hpending, hsame, hshifted, hresume, hwoken, hlater, rfl⟩

/-- The phases of an update. -/
theorem exists_of_turns (hrun : turns E m w = (.ok ts, w')) : ∃ timed w₁ polled w₂ woken w₃ started,
    dueTurns E m .clock (fun w id ↦ w.timeWakeDue m id) (w.live m) w = (.ok timed, w₁) ∧
    dueTurns E m .poll (fun w id ↦ w.conditionHolds m id) (w.live m) w₁ = (.ok polled, w₂) ∧
    readyTurns E m E.budget w₂ = (.ok woken, w₃) ∧ pendingTurns E m E.budget w₃ = (.ok started, w') ∧
    ts = timed ++ (polled ++ (woken ++ started)) := by
  unfold turns at hrun
  rw [get_bind] at hrun
  obtain ⟨timed, w₁, htimed, hrun⟩ := exists_of_bind_eq_ok hrun
  obtain ⟨polled, w₂, hpolled, hrun⟩ := exists_of_bind_eq_ok hrun
  obtain ⟨woken, w₃, hwoken, hrun⟩ := exists_of_bind_eq_ok hrun
  obtain ⟨started, w₄, hstarted, hrun⟩ := exists_of_bind_eq_ok hrun
  cases hrun
  exact ⟨timed, w₁, polled, w₂, woken, w₃, started, htimed, hpolled, hwoken, hstarted, rfl⟩

end Machine

end MindScript
