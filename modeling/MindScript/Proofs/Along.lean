import MindScript.Proofs.Scheduler.Runs

/-!
# What lasts through every action

A relation between worlds that holds across each single change holds across every action: by induction on
how the action is put together, and on the budget of its engine.  Where the changes are not all alike, it may be
relied on that a condition holds when an action starts, if the relation keeps that condition.
-/

namespace MindScript

open Machine

/-- A relation that holds across every change that the interpreter makes. -/
structure World.Lasting (R : World → World → Prop) : Prop where
  refl : ∀ w, R w w
  trans : ∀ {w w' w''}, R w w' → R w' w'' → R w w''
  basic : ∀ {σ : Setting} {α : Type} {f : Machine α}, Basic σ f → ∀ w, R w (f w).2
  enter : ∀ w context current, R w (w.enter context current)
  callStack : ∀ (w : World) callStack, R w { w with callStack }
  take : ∀ w m id entry frame, R w (w.takeFrame m id entry frame)
  back : ∀ w m id frame step, R w (w.returnFrame m id frame step)

theorem World.Lasting.release {R : World → World → Prop} (hR : World.Lasting R) (w : World) (ls : List Link) :
    R w (w.release ls) :=
  hR.basic (.releaseLinks (σ := ⟨none, 0, true, none⟩) ls) w

/-- A relation that holds across every basic action that starts under a condition, and that keeps the condition.  The
condition may speak of the Mind whose update the action is part of. -/
structure World.Leading (H : Option MindId → World → Prop) (R : World → World → Prop) : Prop where
  refl : ∀ w, R w w
  trans : ∀ {w w' w''}, R w w' → R w' w'' → R w w''
  keeps : ∀ {pumping w w'}, H pumping w → R w w' → H pumping w'
  /-- A Mind that is not being updated may be updated. -/
  begins : ∀ {pumping m mind s w} (elapsed : Float), H pumping w → Moment.Valid ⟨s, w⟩ → w.mind? m = some mind →
    mind.updating = false → R w (beginUpdate m elapsed w).2 ∧ H (some m) (beginUpdate m elapsed w).2
  basic : ∀ {σ : Setting} {α : Type} {f : Machine α} {s w}, Basic σ f → Moment.Valid ⟨s, w⟩ → s.head? = σ.current →
    σ.minds ≤ w.minds.size → H σ.pumping w → R w (f w).2
  context : ∀ (w : World) context, R w { w with context }
  callStack : ∀ (w : World) callStack, R w { w with callStack }

theorem World.Lasting.leading {R : World → World → Prop} (hR : World.Lasting R) : World.Leading (fun _ _ ↦ True) R where
  refl := hR.refl
  trans := hR.trans
  keeps _ _ := trivial
  begins elapsed _ _ _ _ := ⟨hR.basic (.beginUpdate (σ := ⟨none, 0, true, some _⟩) rfl elapsed) _, trivial⟩
  basic h _ _ _ _ := hR.basic h _
  context w context := hR.enter w context w.current
  callStack := hR.callStack

namespace Machine

/-- An action that is a run, and along which the relation holds if the condition does at its start. -/
structure Leads (H : Option MindId → World → Prop) (R : World → World → Prop) {α : Type} (σ : Setting) (f : Machine α) :
    Prop where
  tracked : Tracked σ f
  leads : ∀ s w, Moment.Valid ⟨s, w⟩ → s.head? = σ.current → σ.minds ≤ w.minds.size → H σ.pumping w → R w (f w).2

namespace Leads

variable {H : Option MindId → World → Prop} {R : World → World → Prop} {σ : Setting} {α β : Type} {f : Machine α}

theorem change (htracked : Tracked σ f) (h : ∀ w, R w (f w).2) : Leads H R σ f :=
  ⟨htracked, fun _ w _ _ _ _ ↦ h w⟩

theorem attempt (hf : Leads H R σ f) : Leads H R σ (attempt f) := by
  refine ⟨hf.tracked.attempt, fun s w hvalid hhead hminds hH ↦ ?_⟩
  have hsame : (Machine.attempt f w).2 = (f w).2 := by
    unfold Machine.attempt
    rcases f w with ⟨(_ | _) | _, w'⟩ <;> rfl
  rw [hsame]
  exact hf.leads s w hvalid hhead hminds hH

theorem look {F : World → Machine α} (hF : ∀ w, Leads H R σ (F w)) : Leads H R σ (get >>= F) :=
  ⟨Tracked.compositional.look fun w ↦ (hF w).tracked, fun s w ↦ (hF w).leads s w⟩

variable (hR : World.Leading H R)

include hR

/-- More may be known of where the first action starts. -/
theorem bind_from {H' : Option MindId → World → Prop} {F : α → Machine β} (hf : Leads H' R σ f)
    (hF : ∀ a, Leads H R σ (F a)) : Leads (fun pumping w ↦ H pumping w ∧ H' pumping w) R σ (f >>= F) := by
  refine ⟨hf.tracked.bind fun a ↦ (hF a).tracked, fun s w hvalid hhead hminds hH ↦ ?_⟩
  have hfirst := hf.leads s w hvalid hhead hminds hH.2
  obtain ⟨s₁, hrun, hs⟩ := hf.tracked s w hvalid hhead hminds
  rcases hfw : f w with ⟨result, w₁⟩
  rw [hfw] at hfirst hrun hs
  cases result with
  | error i =>
    rw [bind_of_error hfw]
    exact hfirst
  | ok a =>
    obtain rfl := hs (by simp)
    rw [bind_of_ok hfw]
    exact hR.trans hfirst
      ((hF a).leads s₁ w₁ (hvalid.journey hrun) hhead (hminds.trans hrun.run.minds_le) (hR.keeps hH.1 hfirst))

theorem bind {F : α → Machine β} (hf : Leads H R σ f) (hF : ∀ a, Leads H R σ (F a)) : Leads H R σ (f >>= F) :=
  have hboth := bind_from hR hf hF
  ⟨hboth.tracked, fun s w hvalid hhead hminds hH ↦ hboth.leads s w hvalid hhead hminds ⟨hH, hH⟩⟩

theorem whenIdle {f : Machine Nat} (m : MindId) (elapsed : Float) (hf : Leads H R { σ with pumping := some m } f) :
    Leads H R σ (whenIdle m (beginUpdate m elapsed >>= fun _ ↦ f)) := by
  refine ⟨Tracked.compositional.whenIdle m elapsed hf.tracked, fun s w hvalid hhead hminds hH ↦ ?_⟩
  rw [Machine.whenIdle, get_bind]
  cases hmind : w.mind? m with
  | none => exact hR.refl w
  | some mind =>
    dsimp only
    split
    · exact hR.refl w
    · next hbusy =>
      have hidle : mind.updating = false := (Bool.or_eq_false_iff.mp (Bool.eq_false_iff.mpr hbusy)).2
      have hbegin : Basic { σ with pumping := some m } (beginUpdate m elapsed) := .beginUpdate rfl elapsed
      have hjourney := (hbegin.course hhead hminds).journey
      obtain ⟨hfirst, hH₁⟩ := hR.begins elapsed hH hvalid hmind hidle
      have hbegun : beginUpdate m elapsed w = (.ok (), (beginUpdate m elapsed w).2) := rfl
      rw [bind_of_ok hbegun]
      exact hR.trans hfirst
        (hf.leads s _ (hvalid.journey hjourney) hhead (hminds.trans hjourney.run.minds_le) hH₁)

theorem composite : Composite (Leads H R) where
  unchanged h := .change (.unchanged h) fun w ↦ by
    rw [h]
    exact hR.refl w
  bind := bind hR
  read hF := ⟨Tracked.compositional.read fun w hw ↦ (hF w hw).tracked, fun s w hvalid hhead hminds ↦
    (hF w (hvalid.holds hhead hminds)).leads s w hvalid hhead (Nat.le_refl _)⟩
  look := look
  attempt := attempt
  basic h := ⟨Tracked.compositional.basic h, fun _ _ hvalid hhead hminds hH ↦ hR.basic h hvalid hhead hminds hH⟩
  setContext F := .change (Tracked.compositional.setContext F) fun w ↦ hR.context w (F w)
  setCallStack F := .change (Tracked.compositional.setCallStack F) fun w ↦ hR.callStack w (F w)
  whenIdle := whenIdle hR

/-- A step of a frame: the relation holds where the frame is taken out, in the step, and where it comes
back. -/
theorem runFrame {E : Engine} {m : MindId} {id : FrameId} {frame : Frame} {s : List FrameKey} {w : World}
    {entry : FrameEntry} (h : ∀ i, Leads H R { σ with current := some (m, id), scoping := true }
      (stepInvocation E m id i frame entry.delivered)) (hvalid : Moment.Valid ⟨s, w⟩)
    (hminds : σ.minds ≤ w.minds.size) (hH : H σ.pumping w) (he : w.entryAt m id = some entry)
    (hu : w.isFinished entry.handle = false) (hframe : entry.frame = some frame)
    (htake : R w (w.takeFrame m id entry frame))
    (hback : ∀ i w₁ body step unused, Moment.Valid ⟨(m, id) :: s, w₁⟩ → R (w.takeFrame m id entry frame) w₁ →
      stepInvocation E m id i frame entry.delivered (w.takeFrame m id entry frame) = (.ok (body, step, unused), w₁) →
      R w₁ ((w₁.enter w.context s.head?).returnFrame m id
        { frame with context := w₁.context, body, updateCount := frame.updateCount + 1 } step)) :
    R w (runFrame E m id entry frame w).2 := by
  have hbegin : Act ⟨s, w⟩ ⟨(m, id) :: s, w.takeFrame m id entry frame⟩ := .begin he hu hframe
  have hbegun := hvalid.act hbegin
  let i : Invocation := ⟨w.classes.nameOf entry.owner, entry.handle.name⟩
  have hstep := (h i).leads _ _ hbegun rfl (hminds.trans hbegin.minds_le) (hR.keeps hH htake)
  obtain ⟨s₁, hrun, hs⟩ := (h i).tracked _ _ hbegun rfl (hminds.trans hbegin.minds_le)
  rcases hres : stepInvocation E m id i frame entry.delivered (w.takeFrame m id entry frame) with
    ⟨_ | ⟨body, step, unused⟩, w₁⟩
  · rw [hres] at hstep
    rw [runFrame_of_error rfl hres]
    exact hR.trans htake hstep
  · rw [hres] at hstep hrun hs
    obtain rfl := hs (by simp)
    have hvalid₁ := hbegun.journey hrun
    let after : Frame := { frame with context := w₁.context, body, updateCount := frame.updateCount + 1 }
    have hreturned := hback i w₁ body step unused hvalid₁ hstep hres
    have hlast := hvalid₁.act (.back w.context after step)
    have hcurrent : w.current = s.head? := hvalid.current
    rw [runFrame_of_ok rfl hres, hcurrent]
    have hthere := hR.trans htake (hR.trans hstep hreturned)
    exact hR.trans hthere (hR.basic (.releaseLinks (σ := { σ with current := s.head? }) (unused.map .object)) hlast rfl
      (Nat.le_trans hminds (hbegin.minds_le.trans (hrun.run.minds_le.trans (Act.minds_le (.back w.context after step)))))
      (hR.keeps hH hthere))

end Leads

/-- An action that is a run, and along which the relation holds. -/
abbrev Along (R : World → World → Prop) {α : Type} (σ : Setting) (f : Machine α) : Prop := Leads (fun _ _ ↦ True) R σ f

namespace Along

variable {R : World → World → Prop} {σ : Setting} {α : Type} {f : Machine α}

theorem along (h : Along R σ f) (s : List FrameKey) (w : World) (hvalid : Moment.Valid ⟨s, w⟩)
    (hhead : s.head? = σ.current) (hminds : σ.minds ≤ w.minds.size) : R w (f w).2 :=
  h.leads s w hvalid hhead hminds trivial

variable (hR : World.Lasting R)

include hR

theorem resumeFrame {E : Engine} {m : MindId} {id : FrameId}
    (h : ∀ i frame delivered, Along R { σ with current := some (m, id), scoping := true }
      (stepInvocation E m id i frame delivered)) : Along R σ (resumeFrame E m id) := by
  refine ⟨Tracked.compositional.step m id fun i frame delivered ↦ (h i frame delivered).tracked,
    fun s w hvalid hhead hminds _ ↦ ?_⟩
  rcases resumeFrame_cases m id w with hsame | ⟨entry, frame, he, hu, hframe⟩
  · rw [hsame]
    exact hR.refl w
  · rw [resumeFrame_of_stored he hu hframe]
    exact Leads.runFrame hR.leading (fun i ↦ h i frame entry.delivered) hvalid hminds trivial he hu hframe
      (hR.take w m id entry frame) fun _ w₁ _ step _ _ _ _ ↦ hR.trans (hR.enter w₁ w.context s.head?) (hR.back _ m id _ step)

theorem compositional : Compositional (Along R) where
  toComposite := Leads.composite hR.leading
  step _ _ h := resumeFrame hR h

end Along

end Machine

/-! ### Engines -/

/-- The relation holds along every call of the engine. -/
abbrev Engine.Along (R : World → World → Prop) (E : Engine) : Prop := E.Satisfies (Machine.Along R)

theorem Machine.Alike.along {R : World → World → Prop} (hR : World.Lasting R) {E E' : Engine}
    (hE : E.Along R) {σ : Setting} {α : Type} {f g : Machine α} (h : Alike E E' σ f g) : Along R σ f :=
  h.compositional (Along.compositional hR) hE

theorem Engine.along_ofBudget {R : World → World → Prop} (hR : World.Lasting R) (n : Nat) :
    (Engine.ofBudget n).Along R :=
  Engine.satisfies_ofBudget (Along.compositional hR) n

end MindScript
