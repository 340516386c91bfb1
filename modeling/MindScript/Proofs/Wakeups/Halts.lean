import MindScript.Proofs.Calls.Calm
import MindScript.Proofs.Checked
import MindScript.Proofs.Wakeups.Turns

/-!
# Runs that are halted on the way

The worlds that a run goes through between its steps are those in which an engine that checks the world after each
step can be made to give up.  The run of an engine that does so is followed here to where it is halted.  A run that is
not halted goes on from that world, and forgets no sleeping frame from there to its end.
-/

namespace MindScript

open Machine
open World (Anchored)

/-- A run that ends in `w`, with these steps under way, goes through `v`, and forgets no frame from there on. -/
def World.EnRoute (m : MindId) (s : List FrameKey) (v w : World) : Prop :=
  v.Anchored ∧ ∃ s', Moment.Valid ⟨s', v⟩ ∧ Vigil Anchored m ⟨s', v⟩ ⟨s, w⟩

namespace Machine

/-- A step of a frame ends in `v` in this run: the run is given up in `v` if the world is checked after each step, and
`v` is the first one that fails. -/
def StepEnds {α : Type} (n : ℕ) (f : Engine → Machine α) (w v : World) : Prop :=
  ∃ ok : World → Bool, ok v = false ∧ f (.checked ok n) w = (.error .exhausted, v)

/-- The action comes to this end, or is given up on the way there. -/
def Trails {α : Type} (m : MindId) (s : List FrameKey) (f : Machine α) (w : World)
    (r : Except Interrupt α × World) : Prop :=
  f w = r ∨ ∃ v, f w = (.error .exhausted, v) ∧ World.EnRoute m s v r.2

end Machine

section

variable {m : MindId} {s s' : List FrameKey} {v w w₁ w' : World}

theorem World.EnRoute.onward (h : EnRoute m s v w) (h' : Vigil Anchored m ⟨s, w⟩ ⟨s', w'⟩) : EnRoute m s' v w' := by
  obtain ⟨hanchored, t, hvalid, hvigil⟩ := h
  exact ⟨hanchored, t, hvalid, hvigil.trans h'⟩

namespace Machine

variable {α β : Type} {f g : Machine α} {F G : α → Machine β} {a : α} {ok : World → Bool}

namespace Trails

theorem refl (m : MindId) (s : List FrameKey) (f : Machine α) (w : World) : Trails m s f w (f w) := .inl rfl

/-- The action may be the same as another one in another world. -/
theorem of_eq {r : Except Interrupt α × World} (h : f w = g w₁) (hg : Trails m s g w₁ r) : Trails m s f w r := by
  rwa [Trails, h]

theorem bind_of_ok {r : Except Interrupt β × World} (hf : Trails m s f w (.ok a, w₁))
    (hF : Trails m s' (F a) w₁ r) (hvigil : Vigil Anchored m ⟨s, w₁⟩ ⟨s', r.2⟩) : Trails m s' (f >>= F) w r := by
  rcases hf with hrun | ⟨v, hv, hroute⟩
  · rwa [Trails, Machine.bind_of_ok hrun]
  · exact .inr ⟨v, bind_of_error hv, hroute.onward hvigil⟩

theorem bind_pure (hf : Trails m s f w (.ok a, w₁)) (F : α → β) :
    Trails m s (f >>= fun a ↦ Pure.pure (F a)) w (.ok (F a), w₁) := hf.bind_of_ok (.refl m s _ w₁) .refl

theorem bind_of_error {i : Interrupt} (hf : Trails m s f w (.error i, w₁)) :
    Trails m s (f >>= F) w (.error i, w₁) := by
  rcases hf with hrun | ⟨v, hv, hroute⟩
  · exact .inl (Machine.bind_of_error hrun)
  · exact .inr ⟨v, Machine.bind_of_error hv, hroute⟩

/-- Whoever looks at how the action has ended does not see that it is given up. -/
theorem attempt (hf : Trails m s f w (g w)) : Trails m s (attempt f) w (attempt g w) := by
  rcases hf with hrun | ⟨v, hv, hroute⟩
  · exact .inl (attempt_of_eq hrun)
  · have hsame : (Machine.attempt g w).2 = (g w).2 := by
      rcases hg : g w with ⟨(_ | _) | _, _⟩ <;> simp only [Machine.attempt, hg]
    exact .inr ⟨v, attempt_of_exhausted hv, hsame ▸ hroute⟩

/-- A step may be given up where it ends. -/
theorem checked (hf : Trails m s f w (.ok a, w')) (hanchored : w'.Anchored) (hvalid : Moment.Valid ⟨s, w'⟩)
    (ok : World → Bool) : Trails m s (Machine.checked ok f) w (.ok a, w') := by
  rcases hf with hrun | ⟨v, hv, hroute⟩
  · cases hok : ok w' with
    | true =>
      left
      rw [Machine.checked, Machine.bind_of_ok hrun, get_bind, hok]
      rfl
    | false =>
      refine .inr ⟨w', ?_, hanchored, s, hvalid, .refl⟩
      rw [Machine.checked, Machine.bind_of_ok hrun, get_bind, hok]
      rfl
  · exact .inr ⟨v, Machine.bind_of_error hv, hroute⟩

end Trails

/-! ### Actions over two engines -/

/-- The second action forgets no sleeping frame, and the first one trails it. -/
structure Follows (m : MindId) (σ : Setting) (f g : Machine α) : Prop where
  heedful : Heedful Anchored m σ g
  trails : σ.pumping ≠ some m → ∀ s w, Moment.Valid ⟨s, w⟩ → s.head? = σ.current → σ.minds ≤ w.minds.size →
    w.isUpdating m = true → w.Anchored → (g w).1 ≠ .error .exhausted → Trails m s f w (g w)

namespace Follows

variable {σ : Setting}

theorem refl (h : Heedful Anchored m σ f) : Follows m σ f f := ⟨h, fun _ s w _ _ _ _ _ _ ↦ .refl m s f w⟩

theorem bind (hf : Follows m σ f g) (hF : ∀ a, Follows m σ (F a) (G a)) : Follows m σ (f >>= F) (g >>= G) := by
  refine ⟨hf.heedful.bind fun a ↦ (hF a).heedful, fun hpumping s w hvalid hhead hminds hw hP hne ↦ ?_⟩
  have htrails := hf.trails hpumping s w hvalid hhead hminds hw hP
  have hfirst := hf.heedful hpumping s w hvalid hhead hminds hw hP
  rcases hgw : g w with ⟨i | a, w₁⟩
  · rw [hgw] at htrails
    rw [Machine.bind_of_error hgw] at hne ⊢
    exact (htrails fun heq ↦ hne (by cases heq; rfl)).bind_of_error
  · rw [hgw] at htrails hfirst
    rw [Machine.bind_of_ok hgw] at hne ⊢
    have hwatched := hfirst (by simp)
    have hjourney := hwatched.vigil.journey
    have hvalid₁ := hvalid.journey hjourney
    have hminds₁ := hminds.trans hjourney.run.minds_le
    exact (htrails (by simp)).bind_of_ok
      ((hF a).trails hpumping s w₁ hvalid₁ hhead hminds₁ hwatched.updating hwatched.still hne)
      ((hF a).heedful hpumping s w₁ hvalid₁ hhead hminds₁ hwatched.updating hwatched.still hne).vigil

theorem attempt (h : Follows m σ f g) : Follows m σ (attempt f) (attempt g) := by
  refine ⟨h.heedful.attempt, fun hpumping s w hvalid hhead hminds hw hP hne ↦
    (h.trails hpumping s w hvalid hhead hminds hw hP fun hexhausted ↦ hne ?_).attempt⟩
  rcases hg : g w with ⟨_, w'⟩
  rw [hg] at hexhausted
  cases hexhausted
  rw [attempt_of_exhausted hg]

theorem look {F G : World → Machine α} (h : ∀ w, Follows m σ (F w) (G w)) : Follows m σ (get >>= F) (get >>= G) :=
  ⟨fun hpumping s w ↦ (h w).heedful hpumping s w, fun hpumping s w ↦ (h w).trails hpumping s w⟩

theorem whenIdle {f g : Machine Nat} (m' : MindId) (h : Follows m { σ with pumping := some m' } f g) :
    Follows m σ (whenIdle m' f) (whenIdle m' g) := by
  refine ⟨h.heedful.whenIdle m', fun _ s w hvalid hhead hminds hw hP hne ↦ ?_⟩
  rcases whenIdle_cases m' w with hbusy | ⟨hidle, hrun⟩
  · exact .inl ((hbusy f).trans (hbusy g).symm)
  · rw [hrun] at hne ⊢
    rw [Trails, hrun]
    refine h.trails (fun heq ↦ ?_) s w hvalid hhead hminds hw hP hne
    obtain rfl := Option.some.inj heq
    exact absurd (hidle.symm.trans hw) Bool.false_ne_true

/-! ### Contexts, invocations, scopes and handlers -/

section

variable (hcomposite : Composite (Heedful Anchored m))

include hcomposite

theorem pure (a : α) : Follows m σ (pure a) (pure a) := .refl (hcomposite.pure a)

theorem raise (e : EvalError) : Follows m σ (raise e : Machine α) (raise e) := .refl (hcomposite.raise e)

theorem ofExcept (r : Except EvalError α) : Follows m σ (ofExcept r) (ofExcept r) := .refl (hcomposite.ofExcept r)

theorem basic {f : Machine α} {scoping : Bool} (h : Basic { σ with scoping } f) : Follows m σ f f :=
  .refl (hcomposite.basic h)

theorem setContext (F : World → Context) :
    Follows m σ (modify fun w ↦ { w with context := F w }) (modify fun w ↦ { w with context := F w }) :=
  .refl (hcomposite.setContext F)

theorem setCallStack (F : World → CallStack) :
    Follows m σ (modify fun w ↦ { w with callStack := F w }) (modify fun w ↦ { w with callStack := F w }) :=
  .refl (hcomposite.setCallStack F)

theorem withContext (h : Follows m σ f g) (c : Context) : Follows m σ (withContext c f) (withContext c g) :=
  .look fun _ ↦ (setContext hcomposite fun _ ↦ c).bind fun _ ↦ h.attempt.bind fun _ ↦ .look fun _ ↦
    (setContext hcomposite _).bind fun _ ↦ .pure hcomposite _

theorem withInvocation (h : Follows m σ f g) (i : Invocation) (held : List Ref) :
    Follows m σ (withInvocation i held f) (withInvocation i held g) := by
  refine .look fun w ↦ ?_
  split
  · exact (basic hcomposite (.releaseLinks (σ := σ) _)).bind fun _ ↦ .raise hcomposite _
  · refine (setCallStack hcomposite _).bind fun _ ↦ h.attempt.bind fun result ↦ .look fun _ ↦
      (setCallStack hcomposite _).bind fun _ ↦ ?_
    cases result with
    | ok a => exact .pure hcomposite a
    | error e => exact .raise hcomposite _

theorem inScope {f g : Machine Ref} (h : Follows m σ f g) : Follows m σ (inScope f) (inScope g) :=
  (basic hcomposite (.pushScope rfl)).bind fun _ ↦ h.attempt.bind fun r ↦
    (basic hcomposite (.popScope rfl)).bind fun _ ↦ .ofExcept hcomposite r

theorem rescue {f g : Machine Ref} {F G : EvalError → Machine Ref} (h : Follows m σ f g)
    (hF : ∀ e, Follows m σ (F e) (G e)) (catches : EvalError → Bool) :
    Follows m σ (rescue f catches F) (rescue g catches G) := by
  refine .look fun w ↦ h.attempt.bind fun r ↦ ?_
  cases r with
  | ok value => exact .pure hcomposite value
  | error e =>
    dsimp only
    split
    · exact (basic hcomposite (.truncateScopes rfl _)).bind fun _ ↦ hF e
    · exact .raise hcomposite e

theorem stepInvocation {E E' : Engine} {m' : MindId} {id : FrameId} {frame : Frame} {delivered : Option Ref}
    (h : Follows m σ (stepBody E m' id frame delivered) (stepBody E' m' id frame delivered)) (i : Invocation) :
    Follows m σ (stepInvocation E m' id i frame delivered) (stepInvocation E' m' id i frame delivered) := by
  refine .look fun w ↦ ?_
  split
  · exact .pure hcomposite _
  · exact (setCallStack hcomposite _).bind fun _ ↦ h.attempt.bind fun _ ↦ .look fun _ ↦
      (setCallStack hcomposite _).bind fun _ ↦ .pure hcomposite _

end

end Follows

end Machine

end

/-- The calls of the first engine may be given up where those of the second one go on. -/
structure Engine.Follows (m : MindId) (E E' : Engine) : Prop where
  budget : E.budget = E'.budget
  eval : ∀ σ id, Machine.Follows m σ (E.eval id) (E'.eval id)
  invoke : ∀ σ this member args, Machine.Follows m σ (E.invoke this member args) (E'.invoke this member args)
  resume : ∀ σ m' id, Machine.Follows m σ (E.resume m' id) (E'.resume m' id)

variable {m : MindId} {E E' : Engine}

/-- An action over the first engine trails the same action over the second one. -/
theorem Machine.Alike.follows (hE : E.Follows m E') {σ : Setting} {α : Type} {f g : Machine α}
    (h : Alike E E' σ f g) : Follows m σ f g := by
  have hcomposite := Heedful.composite World.steadfast_anchored m
  induction h with
  | basic hbasic => exact .basic hcomposite hbasic
  | pure a => exact .pure hcomposite a
  | raise e => exact .raise hcomposite e
  | exhausted g hg =>
    rw [hg hE.budget]
    exact .refl (hcomposite.unchanged fun _ ↦ rfl)
  | bind _ _ ihf ihF => exact ihf.bind ihF
  | read _ _ _ ih =>
    exact ⟨hcomposite.read fun w hw ↦ (ih w hw).heedful, fun hpumping s w hvalid hhead hminds ↦
      (ih w (hvalid.holds hhead hminds)).trails hpumping s w hvalid hhead (Nat.le_refl _)⟩
  | attempt _ ih => exact ih.attempt
  | withContext c _ ih => exact ih.withContext hcomposite c
  | withInvocation i held _ ih => exact ih.withInvocation hcomposite i held
  | inScope _ ih => exact ih.inScope hcomposite
  | rescue catches _ _ ihf ihF => exact ihf.rescue hcomposite ihF catches
  | @whenIdle σ _ _ m' elapsed _ ih =>
    have hbegin : Basic { σ with pumping := some m' } (beginUpdate m' elapsed) := .beginUpdate rfl elapsed
    exact .whenIdle m' ((Follows.basic hcomposite hbegin).bind fun _ ↦ ih)
  | eval id => exact hE.eval _ id
  | invoke this member args => exact hE.invoke _ this member args
  | spawn m' name owner parent frame hm hparent hfresh _ ih =>
    exact (Follows.basic hcomposite (.register m' name owner parent frame hm hparent hfresh)).bind fun h ↦
      (hE.resume _ m' h.frame).bind fun _ ↦ ih h
  | resumeDue id isDue _ _ _ _ _ ih ih' =>
    refine .look fun w ↦ ?_
    split
    · exact (hE.resume _ _ id).bind fun _ ↦ ih
    · exact ih'
  | resumePending hm _ _ ih ih' =>
    refine (Follows.basic hcomposite (.popPending hm)).bind fun id? ↦ ?_
    cases id? with
    | none => exact ih
    | some id => exact (hE.resume _ _ id).bind fun _ ↦ ih'

/-! ### Steps -/

variable {s : List FrameKey} {w w' : World}

/-- Whoever is halted in a step has the way back still to go. -/
theorem Machine.Trails.resumeFrame (hE : E.Follows m E') (hvalid : Moment.Valid ⟨s, w⟩) (hw : w.isUpdating m = true)
    (hanchored : w.Anchored) {m' : MindId} {id : FrameId} (hrun : resumeFrame E' m' id w = (.ok (), w'))
    (hend : w'.Anchored) : Trails m s (resumeFrame E m' id) w (.ok (), w') := by
  rcases resumeFrame_cases m' id w with hidle | ⟨entry, frame, he, hu, hframe⟩
  · exact .inl ((hidle E).trans ((hidle E').symm.trans hrun))
  rw [resumeFrame_of_stored he hu hframe] at hrun
  let i : Invocation := ⟨w.classes.nameOf entry.owner, entry.handle.name⟩
  have hbegin : Deed none ⟨s, w⟩ ⟨(m', id) :: s, w.takeFrame m' id entry frame⟩ := .begin he hu hframe
  have hbegun := hvalid.act hbegin.act
  have hle : E.budget ≤ E'.budget := Nat.le_of_eq hE.budget
  have hbody : Follows m ⟨some (m', id), 0, true, none⟩ (stepInvocation E m' id i frame entry.delivered)
      (stepInvocation E' m' id i frame entry.delivered) :=
    ((Alike.stepBody rfl hle rfl frame entry.delivered).follows hE).stepInvocation
      (Heedful.composite World.steadfast_anchored m) i
  have hupdating := (hbegin.sameTick (by simp)).updating.trans hw
  have hbegun_anchored := World.steadfast_anchored.deed hbegin hvalid (Nat.le_succ _) hanchored
  rcases hstep : stepInvocation E' m' id i frame entry.delivered (w.takeFrame m' id entry frame) with ⟨result, w₁⟩
  have hwatched := hbody.heedful (by simp) _ _ hbegun rfl (Nat.zero_le _) hupdating hbegun_anchored
  have htrails := hbody.trails (by simp) _ _ hbegun rfl (Nat.zero_le _) hupdating hbegun_anchored
  rw [hstep] at hwatched htrails
  match result with
  | .error interrupt =>
    rw [runFrame_of_error rfl hstep] at hrun
    cases hrun
  | .ok (body, step, unused) =>
    have hwatched := hwatched (by simp)
    rw [runFrame_of_ok rfl hstep] at hrun
    rw [Trails, resumeFrame_of_stored he hu hframe]
    rcases htrails (by simp) with heq | ⟨v, hv, hroute⟩
    · exact .inl ((runFrame_of_ok rfl heq).trans hrun)
    · refine .inr ⟨v, runFrame_of_error rfl hv, hroute.onward ?_⟩
      obtain ⟨-, rfl⟩ := Prod.mk.inj hrun
      have hcurrent : w.current = s.head? := hvalid.current
      simp only [hcurrent] at hend ⊢
      exact (Heedful.back World.steadfast_anchored (hbegun.journey hwatched.vigil.journey) hwatched.updating
        hwatched.still w.context _ step _ hend).2.2

/-! ### The loops of an update -/

namespace Engine.Follows

variable (hE : E.Follows m E') (hrouses : E'.Rouses Anchored m) (hvalid : Moment.Valid ⟨s, w⟩)
  (hw : w.isUpdating m = true) (hanchored : w.Anchored) {n : ℕ} {ts : List Turn}

include hE hrouses hvalid hw hanchored

/-- A frame is resumed, and the loop goes on. -/
theorem resume_bind {id : FrameId} {F G : Machine (List Turn)}
    (hrun : (E'.resume m id >>= fun _ ↦ G) w = (.ok ts, w'))
    (hF : ∀ w₁, Moment.Valid ⟨s, w₁⟩ → w₁.isUpdating m = true → w₁.Anchored → G w₁ = (.ok ts, w') →
      Trails m s F w₁ (.ok ts, w') ∧ Watched Anchored m s w₁ w') :
    Trails m s (E.resume m id >>= fun _ ↦ F) w (.ok ts, w') := by
  obtain ⟨⟨⟩, w₁, hresume, hlater⟩ := exists_of_bind_eq_ok hrun
  have hstep := hrouses.resume hvalid hw hanchored hresume
  have htrails := (hE.resume ⟨s.head?, 0, false, none⟩ m id).trails (by simp) s w hvalid rfl (Nat.zero_le _) hw hanchored
  rw [hresume] at htrails
  obtain ⟨hrest, hwatched⟩ := hF w₁ (hvalid.journey hstep.vigil.journey) hstep.updating hstep.still hlater
  exact (htrails (by simp)).bind_of_ok hrest hwatched.vigil

theorem readyTurns (hrun : Machine.readyTurns E' m n w = (.ok ts, w')) :
    Trails m s (Machine.readyTurns E m n) w (.ok ts, w') := by
  induction n generalizing w ts with
  | zero => cases hrun
  | succ n ih =>
    rw [Machine.readyTurns] at hrun ⊢
    rcases World.popReady_cases m w with ⟨hpop, -⟩ | ⟨id, w₀, hpop, -, hshifted⟩
    · rw [bind_of_ok hpop] at hrun
      exact .inl ((bind_of_ok hpop).trans hrun)
    have hvalid₀ : Moment.Valid ⟨s, w₀⟩ := hvalid.act hshifted.deed.act
    have hw₀ := hshifted.updating.trans hw
    have hanchored₀ := World.steadfast_anchored.still hshifted.still hanchored
    rw [bind_of_ok hpop] at hrun
    dsimp only at hrun
    rw [get_bind] at hrun
    refine .of_eq (bind_of_ok hpop) (.of_eq (get_bind _ w₀) ?_)
    cases hcond : w₀.conditionHolds m id with
    | true =>
      rw [hcond, if_pos rfl] at hrun
      rw [if_pos rfl]
      refine hE.resume_bind hrouses hvalid₀ hw₀ hanchored₀ hrun fun w₁ hvalid₁ hw₁ hanchored₁ hrest ↦ ?_
      obtain ⟨later, w₂, hlater, hend⟩ := exists_of_bind_eq_ok hrest
      cases hend
      exact ⟨(ih hvalid₁ hw₁ hanchored₁ hlater).bind_pure _,
        (hrouses.readyTurns World.steadfast_anchored hvalid₁ hw₁ hanchored₁ hlater).1⟩
    | false =>
      rw [hcond, if_neg Bool.false_ne_true] at hrun
      rw [if_neg Bool.false_ne_true]
      obtain ⟨later, w₂, hlater, hend⟩ := exists_of_bind_eq_ok hrun
      cases hend
      exact (ih hvalid₀ hw₀ hanchored₀ hlater).bind_pure _

/-- A frame is resumed, and so are those that are woken, before the loop goes on. -/
theorem turn_bind {id : FrameId} {F G : List Turn → Machine (List Turn)}
    (hrun : (E'.resume m id >>= fun _ ↦ Machine.readyTurns E' m n >>= G) w = (.ok ts, w'))
    (hF : ∀ woken w₁, Moment.Valid ⟨s, w₁⟩ → w₁.isUpdating m = true → w₁.Anchored → w₁.ready m = [] →
      G woken w₁ = (.ok ts, w') → Trails m s (F woken) w₁ (.ok ts, w') ∧ Watched Anchored m s w₁ w') :
    Trails m s (E.resume m id >>= fun _ ↦ Machine.readyTurns E m n >>= F) w (.ok ts, w') := by
  refine hE.resume_bind hrouses hvalid hw hanchored hrun fun w₁ hvalid₁ hw₁ hanchored₁ hrest ↦ ?_
  obtain ⟨woken, w₂, hwoken, hlater⟩ := exists_of_bind_eq_ok hrest
  obtain ⟨hdrained, hempty⟩ := hrouses.readyTurns World.steadfast_anchored hvalid₁ hw₁ hanchored₁ hwoken
  obtain ⟨htrails, hwatched⟩ := hF woken w₂ (hvalid₁.journey hdrained.vigil.journey) hdrained.updating hdrained.still
    hempty hlater
  exact ⟨(hE.readyTurns hrouses hvalid₁ hw₁ hanchored₁ hwoken).bind_of_ok htrails hwatched.vigil,
    hdrained.trans hwatched⟩

theorem dueTurns {cause : Cause} {isDue : World → FrameId → Bool} {ids : List FrameId}
    (hrun : Machine.dueTurns E' m cause isDue ids w = (.ok ts, w')) :
    Trails m s (Machine.dueTurns E m cause isDue ids) w (.ok ts, w') := by
  induction ids generalizing w ts with
  | nil => exact .inl hrun
  | cons id rest ih =>
    rw [Machine.dueTurns, get_bind] at hrun
    rw [Machine.dueTurns]
    refine .of_eq (get_bind _ w) ?_
    cases hdue : isDue w id with
    | true =>
      rw [hdue, if_pos rfl, ← hE.budget] at hrun
      rw [if_pos rfl]
      refine hE.turn_bind hrouses hvalid hw hanchored hrun fun woken w₁ hvalid₁ hw₁ hanchored₁ _ hrest ↦ ?_
      obtain ⟨later, w₂, hlater, hend⟩ := exists_of_bind_eq_ok hrest
      cases hend
      exact ⟨(ih hvalid₁ hw₁ hanchored₁ hlater).bind_pure _,
        hrouses.dueTurns World.steadfast_anchored hvalid₁ hw₁ hanchored₁ hlater⟩
    | false =>
      rw [hdue, if_neg Bool.false_ne_true] at hrun
      rw [if_neg Bool.false_ne_true]
      obtain ⟨later, w₂, hlater, hend⟩ := exists_of_bind_eq_ok hrun
      cases hend
      exact (ih hvalid hw hanchored hlater).bind_pure _

theorem pendingTurns (hrun : Machine.pendingTurns E' m n w = (.ok ts, w')) (hready : w.ready m = []) :
    Trails m s (Machine.pendingTurns E m n) w (.ok ts, w') := by
  induction n generalizing w ts with
  | zero => cases hrun
  | succ n ih =>
    rw [Machine.pendingTurns] at hrun ⊢
    rcases World.popPending_cases m w with ⟨hpop, -⟩ | ⟨id, w₀, hpop, -, hsame, hshifted⟩
    · rw [bind_of_ok hpop] at hrun
      exact .inl ((bind_of_ok hpop).trans hrun)
    rw [bind_of_ok hpop] at hrun
    dsimp only at hrun
    rw [get_bind, ← hE.budget] at hrun
    refine .of_eq (bind_of_ok hpop) (.of_eq (get_bind _ w₀) ?_)
    refine hE.turn_bind hrouses (hvalid.act hshifted.deed.act) (hshifted.updating.trans hw)
      (World.steadfast_anchored.still hshifted.still hanchored) hrun
      fun woken w₁ hvalid₁ hw₁ hanchored₁ hempty hrest ↦ ?_
    obtain ⟨later, w₂, hlater, hend⟩ := exists_of_bind_eq_ok hrest
    cases hend
    exact ⟨(ih hvalid₁ hw₁ hanchored₁ hlater hempty).bind_pure _,
      (hrouses.pendingTurns World.steadfast_anchored hvalid₁ hw₁ hanchored₁ hlater hempty).1⟩

/-- The phases of an update are halted only in worlds that they go through. -/
theorem resumePhases {k : ℕ} (hrun : Machine.resumePhases E' m w = (.ok k, w')) :
    Trails m s (Machine.resumePhases E m) w (.ok k, w') := by
  rw [resumePhases_eq] at hrun ⊢
  obtain ⟨ts, w₄, hturns, hrun⟩ := exists_of_bind_eq_ok hrun
  cases hrun
  refine Trails.bind_pure ?_ _
  obtain ⟨timed, w₁, polled, w₂, woken, w₃, started, htimed, hpolled, hwoken, hstarted, rfl⟩ := exists_of_turns hturns
  have hfirst := hrouses.dueTurns World.steadfast_anchored hvalid hw hanchored htimed
  have hvalid₁ := hvalid.journey hfirst.vigil.journey
  have hsecond := hrouses.dueTurns World.steadfast_anchored hvalid₁ hfirst.updating hfirst.still hpolled
  have hvalid₂ := hvalid₁.journey hsecond.vigil.journey
  obtain ⟨hthird, hempty⟩ :=
    hrouses.readyTurns World.steadfast_anchored hvalid₂ hsecond.updating hsecond.still hwoken
  have hvalid₃ := hvalid₂.journey hthird.vigil.journey
  obtain ⟨hlast, -⟩ :=
    hrouses.pendingTurns World.steadfast_anchored hvalid₃ hthird.updating hthird.still hstarted hempty
  rw [← hE.budget] at hwoken hstarted
  refine .of_eq (get_bind _ w) ?_
  refine (hE.dueTurns hrouses hvalid hw hanchored htimed).bind_of_ok ?_
    (hsecond.trans (hthird.trans hlast)).vigil
  refine (hE.dueTurns hrouses hvalid₁ hfirst.updating hfirst.still hpolled).bind_of_ok ?_ (hthird.trans hlast).vigil
  refine (hE.readyTurns hrouses hvalid₂ hsecond.updating hsecond.still hwoken).bind_of_ok ?_ hlast.vigil
  exact (hE.pendingTurns hrouses hvalid₃ hthird.updating hthird.still hstarted hempty).bind_pure _

end Engine.Follows

/-! ### The checked engine -/

variable {ok : World → Bool}

theorem Machine.Calm.checked {α : Type} {f : Machine α} (hf : Calm f) (ok : World → Bool) : Calm (Machine.checked ok f) := by
  refine hf.bind fun a ↦ .read fun w ↦ ?_
  split
  · exact .pure a
  · exact .exhausted

/-- A checked action that has come to its end has passed the check. -/
theorem Machine.ok_of_checked {α : Type} {f : Machine α} {a : α} {w' : World}
    (h : Machine.checked ok f w = (.ok a, w')) : f w = (.ok a, w') ∧ ok w' = true := by
  obtain ⟨b, w₁, hf, hrest⟩ := exists_of_bind_eq_ok h
  rw [get_bind] at hrest
  cases hok : ok w₁ with
  | true =>
    rw [hok, if_pos rfl] at hrest
    obtain ⟨hb, rfl⟩ := Prod.mk.inj hrest
    cases hb
    exact ⟨hf, hok⟩
  | false =>
    rw [hok, if_neg Bool.false_ne_true] at hrest
    cases hrest

namespace Engine

/-- A step that is not given up ends in a world that passes the check. -/
theorem ends_checked {n : ℕ} {m : MindId} {id : FrameId} {w : World}
    (hne : ((Engine.checked ok (n + 1)).resume m id w).1 ≠ .error .exhausted) :
    ∃ w', (Engine.checked ok (n + 1)).resume m id w = (.ok (), w') ∧
      resumeFrame (.checked ok n) m id w = (.ok (), w') ∧ ok w' = true := by
  rcases hrun : (Engine.checked ok (n + 1)).resume m id w with ⟨(e | _) | ⟨⟩, w'⟩
  · exact absurd (congrArg Prod.fst hrun) ((Calm.resumeFrame _ m id).checked ok w e)
  · rw [hrun] at hne
    exact absurd rfl hne
  · obtain ⟨hresumed, hw'⟩ := ok_of_checked hrun
    exact ⟨w', rfl, hresumed, hw'⟩

/-- As long as the check is passed, no call forgets a sleeping frame. -/
theorem rouses_checked (hok : ∀ w, ok w = true → w.Anchored) (m : MindId) (n : Nat) :
    (Engine.checked ok n).Rouses Anchored m := by
  induction n with
  | zero =>
    exact ⟨⟨fun _ _ _ _ _ _ _ _ _ _ hne ↦ absurd rfl hne, fun _ _ _ _ _ _ _ _ _ _ _ _ hne ↦ absurd rfl hne,
      fun _ _ _ _ _ _ _ _ _ _ _ hne ↦ absurd rfl hne⟩, fun _ _ _ _ _ _ hne ↦ absurd rfl hne⟩
  | succ n ih =>
    have hle : (Engine.checked ok n).budget ≤ (Engine.checked ok n).budget := Nat.le_refl _
    have hcomposite := Heedful.composite World.steadfast_anchored m
    have hstep : ∀ {τ : Setting} {s w w' m' id e frame}, τ.pumping ≠ some m → Moment.Valid ⟨s, w⟩ →
        τ.minds ≤ w.minds.size → w.isUpdating m = true → w.Anchored → w.entryAt m' id = some e →
        w.isFinished e.handle = false → e.frame = some frame →
        resumeFrame (.checked ok n) m' id w = (.ok (), w') → w'.Anchored →
        Watched Anchored m s w w' ∧ World.Moved m' id w w' := by
      intro τ s w w' m' id e frame hpumping hvalid hminds hw hP he hu hframe hrun hend
      rw [resumeFrame_of_stored he hu hframe] at hrun
      have hresult := Heedful.runFrame World.steadfast_anchored
        (fun i ↦ hcomposite.ofStep (σ := τ) (ih.heedful.serves hcomposite) m' id i frame e.delivered) hpumping hvalid
        hminds hw hP he hu hframe
        (by rwa [hrun]) (by simp [hrun])
      rwa [hrun] at hresult
    refine ⟨⟨fun _ id ↦ (Alike.evalNode hle id).composite hcomposite ih.heedful,
      fun _ this m args ↦ (Alike.invokeMember hle this m args).composite hcomposite ih.heedful,
      fun τ m' id hpumping s w hvalid hhead hminds hw hP hne ↦ ?_⟩, ?_⟩
    · obtain ⟨w', hrun, hresumed, hend⟩ := ends_checked hne
      rw [hrun]
      rcases resumeFrame_cases m' id w with hidle | ⟨e, frame, he, hu, hframe⟩
      · obtain ⟨-, rfl⟩ := Prod.mk.inj ((hidle _).symm.trans hresumed)
        exact .refl hw hP
      · exact (hstep hpumping hvalid hminds hw hP he hu hframe hresumed (hok w' hend)).1
    · intro s w id e hvalid hw hP he hu hframe hne
      obtain ⟨w', hrun, hresumed, hend⟩ := ends_checked hne
      obtain ⟨frame, hframe⟩ := Option.isSome_iff_exists.mp hframe
      rw [hrun]
      exact (hstep (τ := ⟨none, 0, false, none⟩) (by simp) hvalid (Nat.zero_le _) hw hP he hu hframe hresumed
        (hok w' hend)).2

/-- So a run that is halted after some step is on its way to where it ends otherwise. -/
theorem follows_checked (hok : ∀ w, ok w = true → w.Anchored) (halts : World → Bool) (m : MindId) (n : ℕ) :
    (Engine.checked halts n).Follows m (.checked ok n) := by
  have hbudget : ∀ n, (Engine.checked halts n).budget = (Engine.checked ok n).budget := fun n ↦
    (budget_checked halts n).trans (budget_checked ok n).symm
  induction n with
  | zero =>
    have hheedful := (rouses_checked hok m 0).heedful
    exact ⟨hbudget 0, fun σ id ↦ .refl (hheedful.eval σ id),
      fun σ this member args ↦ .refl (hheedful.invoke σ this member args), fun σ m' id ↦ .refl (hheedful.resume σ m' id)⟩
  | succ n ih =>
    have hle : (Engine.checked halts n).budget ≤ (Engine.checked ok n).budget := Nat.le_of_eq (hbudget n)
    have hheedful := (rouses_checked hok m (n + 1)).heedful
    refine ⟨hbudget (n + 1), fun _ id ↦ (Alike.evalNode hle id).follows ih,
      fun _ this member args ↦ (Alike.invokeMember hle this member args).follows ih, fun σ m' id ↦
        ⟨hheedful.resume σ m' id, fun hpumping s w hvalid hhead hminds hw hanchored hne ↦ ?_⟩⟩
    have hwatched := hheedful.resume σ m' id hpumping s w hvalid hhead hminds hw hanchored hne
    obtain ⟨w', hrun, hresumed, hend⟩ := ends_checked hne
    rw [hrun] at hwatched ⊢
    exact (Trails.resumeFrame ih hvalid hw hanchored hresumed (hok w' hend)).checked hwatched.still
      (hvalid.journey hwatched.vigil.journey) halts

end Engine

end MindScript
