import MindScript.Proofs.Alike.Induction
import MindScript.Proofs.Scheduler.Deeds

/-!
# Every action is a run

Whatever an action of the interpreter does is a sequence of deeds, and when it ends, the steps under way are
those that were under way before.  Only an action that uses up its budget may leave steps behind.
-/

namespace MindScript

theorem Act.minds_le {M M' : Moment} (h : Act M M') : M.world.minds.size ≤ M'.world.minds.size := by
  cases h with
  | compute _ hsteady => exact hsteady.minds.ge
  | register name owner frame => exact (World.inward_register ..).minds.ge
  | begin => simp [World.takeFrame, World.enter, World.release, World.setStatus, World.modifyEntry]
  | @back s w m id context frame step =>
    exact (World.inward_returnFrame (w.enter context s.head?) m id frame step).minds.ge
  | stop m id => exact (World.inward_stopFrame ..).minds.ge
  | sweep m => exact (World.inward_sweep ..).minds.ge
  | detach m id => exact (World.inward_detachChildren ..).minds.ge
  | notify m event payload => exact (World.inward_notify ..).minds.ge
  | setUpdateInterval x seconds => exact (World.inward_modifyEntry ..).minds.ge
  | createMind name => simp [World.createMind]

theorem Run.minds_le {M M' : Moment} (h : Run M M') : M.world.minds.size ≤ M'.world.minds.size := by
  induction h with
  | refl => exact Nat.le_refl _
  | tail _ hact ih => exact ih.trans hact.minds_le

theorem Moment.Valid.journey {M M' : Moment} (h : M.Valid) (hrun : Journey M M') : M'.Valid := h.run hrun.run

theorem Moment.Valid.holds {σ : Machine.Setting} {s : List FrameKey} {w : World} (h : Moment.Valid ⟨s, w⟩)
    (hhead : s.head? = σ.current) (hminds : σ.minds ≤ w.minds.size) : σ.Holds w := by
  refine ⟨h.current.trans hhead, hminds, fun m id hcurrent ↦ ?_, h.defaultMind⟩
  -- The step under way belongs to a stored frame, whose Mind is there.
  obtain ⟨c, hc, -⟩ := h.card_of_head? (h.current.symm.trans hcurrent)
  obtain ⟨e, he, -⟩ := World.card_eq_some_iff.mp hc
  obtain ⟨mind, hmind, -⟩ := Option.bind_eq_some_iff.mp he
  exact (Array.getElem?_eq_some_iff.mp hmind).1

/-! ### Basic actions -/

section

variable {pumped : Option MindId} (s : List FrameKey) {w w' : World}

/-- A change that has to do with neither frames nor Minds. -/
theorem Course.of_minds (hminds : w'.minds = w.minds) (hcurrent : w'.current = w.current)
    (hdefault : w'.defaultMind = w.defaultMind)
    (houtcomes : w'.heap.outcomes.map Outcome.bare = w.heap.outcomes.map Outcome.bare) :
    Course pumped ⟨s, w⟩ ⟨s, w'⟩ :=
  .of_deed (.compute ⟨by rw [hminds], by rw [hminds], houtcomes⟩ ⟨hcurrent, hdefault, by rw [hminds]⟩
    (World.tends_of_minds hminds pumped)) (.of_minds hminds)

theorem Course.of_heap {heap : Heap}
    (h : heap.outcomes.map Outcome.bare = w.heap.outcomes.map Outcome.bare) :
    Course pumped ⟨s, w⟩ ⟨s, { w with heap }⟩ :=
  .of_minds s rfl rfl rfl h

/-- A change to a Mind other than to its frames and its list of them. -/
theorem Course.of_modifyMind (m : MindId) {f : Mind → Mind} (hslots : ∀ mind, (f mind).slots = mind.slots)
    (hfree : ∀ mind, (f mind).free = mind.free) (hlive : ∀ mind, (f mind).live = mind.live)
    (htick : ∀ mind, mind.tick ≤ (f mind).tick)
    (hidle : pumped ≠ some m → ∀ mind, (f mind).ready = mind.ready ∧ (f mind).updating = mind.updating ∧
      (f mind).clock = mind.clock ∧ (f mind).tick = mind.tick)
    (hfailures : ∀ mind, (f mind).failures = mind.failures) : Course pumped ⟨s, w⟩ ⟨s, w.modifyMind m f⟩ :=
  .of_deed (.compute (World.still_modifyMind w m hslots hfree) (World.inward_modifyMind w m f).steady
    (World.tends_modifyMind w m hlive htick hidle)) (.modifyMind w m hfailures)

theorem course_onHeap {α : Type} {f : Heap → α × Heap} (hf : ∀ h, (f h).2.outcomes = h.outcomes) :
    Course pumped ⟨s, w⟩ ⟨s, (Machine.onHeap f w).2⟩ :=
  .of_heap s (congrArg _ (hf w.heap))

theorem course_onClasses {α : Type} (act : Registry.Action α) :
    Course pumped ⟨s, w⟩ ⟨s, (Machine.onClasses act w).2⟩ := by
  unfold Machine.onClasses
  rcases act w.classes with ⟨_ | _, classes⟩
  · exact .of_minds s rfl rfl rfl rfl
  · exact .of_minds s rfl rfl rfl rfl

theorem outcomes_truncate (e : Environment) (h : Heap) (depth : Nat) :
    (e.truncate h depth).2.outcomes.map Outcome.bare = h.outcomes.map Outcome.bare :=
  Heap.bare_outcomes_release h _

theorem outcomes_pop (e : Environment) (h : Heap) :
    (e.pop h).2.outcomes.map Outcome.bare = h.outcomes.map Outcome.bare := by
  unfold Environment.pop
  split
  · exact outcomes_truncate e h _
  · rfl

theorem course_store (name : String) (value : Ref) (place : Machine.Place) :
    Course pumped ⟨s, w⟩ ⟨s, (Machine.store name value place w).2⟩ := by
  cases place with
  | binding b => exact .of_heap s (Heap.bare_outcomes_release (w.heap.define b name value).2 _)
  | slot owner i => exact .of_heap s (Heap.bare_outcomes_release (w.heap.modifyObject owner _) _)
  | classDatum c i => exact .of_minds s rfl rfl rfl (Heap.bare_outcomes_release w.heap _)

theorem course_popReady (m : MindId) : Course (some m) ⟨s, w⟩ ⟨s, (Machine.popReady m w).2⟩ := by
  rw [Machine.popReady, Machine.modifyGet_apply]
  dsimp only
  split
  · exact .of_modifyMind s m (fun _ ↦ rfl) (fun _ ↦ rfl) (fun _ ↦ rfl) (fun _ ↦ Nat.le_refl _) (fun hne ↦ absurd rfl hne)
      fun _ ↦ rfl
  · exact .refl

theorem course_popPending (m : MindId) : Course pumped ⟨s, w⟩ ⟨s, (Machine.popPending m w).2⟩ := by
  rw [Machine.popPending, Machine.modifyGet_apply]
  dsimp only
  split
  · exact .of_modifyMind s m (fun _ ↦ rfl) (fun _ ↦ rfl) (fun _ ↦ rfl) (fun _ ↦ Nat.le_refl _)
      (fun _ _ ↦ ⟨rfl, rfl, rfl, rfl⟩) fun _ ↦ rfl
  · exact .refl

theorem course_endUpdate (m : MindId) : Course (some m) ⟨s, w⟩ ⟨s, (Machine.endUpdate m w).2⟩ :=
  .trans (Course.of_deed (.sweep m) (.sweep w m)) (Course.of_modifyMind s m (fun _ ↦ rfl) (fun _ ↦ rfl) (fun _ ↦ rfl)
    (fun _ ↦ Nat.le_refl _) (fun hne ↦ absurd rfl hne) fun _ ↦ rfl)

end

section

variable {pumped : Option MindId} (s : List FrameKey) (w : World)

theorem course_settleMind (m : MindId) : Course pumped ⟨s, w⟩ ⟨s, w.settleMind m⟩ := by
  unfold World.settleMind
  split
  · exact .refl
  · exact .of_deed (.sweep m) (.sweep w m)

theorem course_foldl {α : Type} {F : World → α → World} (hF : ∀ w a, Course pumped ⟨s, w⟩ ⟨s, F w a⟩)
    (xs : List α) : Course pumped ⟨s, w⟩ ⟨s, xs.foldl F w⟩ := by
  induction xs generalizing w with
  | nil => exact .refl
  | cons a rest ih => exact (hF w a).trans (ih _)

theorem course_stopFrames (m : MindId) (ids : List FrameId) :
    Course pumped ⟨s, w⟩ ⟨s, ids.foldl (World.stopFrame m) w⟩ :=
  course_foldl s w (fun w id ↦ .of_deed (.stop m id) (.stopFrame w m id)) ids

theorem course_stop (x : Handle) : Course pumped ⟨s, w⟩ ⟨s, w.stop x⟩ := by
  unfold World.stop
  split
  · exact .trans (Course.of_deed (.stop x.mind x.frame) (.stopFrame w x.mind x.frame)) (course_settleMind ..)
  · exact .refl

theorem course_stopAll (m : MindId) : Course pumped ⟨s, w⟩ ⟨s, w.stopAll m⟩ := by
  unfold World.stopAll
  split
  · exact .refl
  · exact (course_stopFrames ..).trans (course_settleMind ..)

theorem course_stopOnMind (target : Ref) (m : MindId) :
    Course pumped ⟨s, w⟩ ⟨s, w.stopOnMind target m⟩ := by
  unfold World.stopOnMind
  split
  · exact .refl
  · exact (course_stopFrames ..).trans (course_settleMind ..)

end

/-- Every basic action is a course of deeds. -/
theorem Machine.Basic.course {σ : Machine.Setting} {α : Type} {f : Machine α} (h : Machine.Basic σ f)
    {s : List FrameKey} {w : World} (hhead : s.head? = σ.current) (hminds : σ.minds ≤ w.minds.size) :
    Course σ.pumping ⟨s, w⟩ ⟨s, (f w).2⟩ := by
  cases h with
  | retainLink l => exact .of_heap s (World.still_retain w l).outcomes
  | releaseLinks ls => exact .of_heap s (World.still_release w ls).outcomes
  | newValue c p => exact course_onHeap s fun _ ↦ rfl
  | allocate c slots => exact .of_heap s rfl
  | disarm r => exact .of_heap s rfl
  | newScope => exact course_onHeap s fun _ ↦ rfl
  | chainedScope _ => exact course_onHeap s fun _ ↦ rfl
  | pushScope _ => exact .of_minds s rfl rfl rfl rfl
  | popScope _ => exact .of_minds s rfl rfl rfl (outcomes_pop w.context.env w.heap)
  | truncateScopes _ depth => exact .of_minds s rfl rfl rfl (outcomes_truncate w.context.env w.heap depth)
  | define name value =>
    exact .of_heap s (Heap.bare_outcomes_release (w.heap.define w.context.env.innermost name value).2 _)
  | store name value place => exact course_store s name value place
  | setItems r _ => exact .of_heap s rfl
  | modifyItems r F => exact .of_heap s rfl
  | findMember c name => exact course_onClasses s _
  | resolve c name qualifier => exact course_onClasses s _
  | register m name owner parent frame hm hparent hfresh =>
    exact .of_deed (.register name owner frame (Nat.lt_of_lt_of_le hm hminds) (fun p hp ↦ hhead.trans (hparent p hp)) hfresh)
      (.register w m name owner parent frame)
  | deferFrame m name owner parent frame hm hparent hfresh =>
    refine .trans (Course.of_deed (.register name owner frame (Nat.lt_of_lt_of_le hm hminds)
      (fun p hp ↦ hhead.trans (hparent p hp)) hfresh) (.register w m name owner parent frame))
      (Course.of_modifyMind s m ?_ ?_ ?_ ?_ ?_ ?_)
    · exact fun _ ↦ rfl
    · exact fun _ ↦ rfl
    · exact fun _ ↦ rfl
    · exact fun _ ↦ Nat.le_refl _
    · exact fun _ _ ↦ ⟨rfl, rfl, rfl, rfl⟩
    · exact fun _ ↦ rfl
  | settleMind m => exact course_settleMind s w m
  | stop x => exact course_stop s w x
  | stopAll m => exact course_stopAll s w m
  | stopAllFor r => exact course_foldl s w (fun w m ↦ course_stopOnMind s w r m) _
  | detachChildren m id => exact .of_deed (.detach m id) (.detachChildren w m id)
  | notify m event payload => exact .of_deed (.notify m event payload) (.notify w m event payload)
  | createMind name => exact .of_deed (.createMind name) (.createMind w name)
  | setSuspended m suspended =>
    exact .of_modifyMind s m (fun _ ↦ rfl) (fun _ ↦ rfl) (fun _ ↦ rfl) (fun _ ↦ Nat.le_refl _)
      (fun _ _ ↦ ⟨rfl, rfl, rfl, rfl⟩) fun _ ↦ rfl
  | setUpdateInterval x seconds => exact .of_deed (.setUpdateInterval x seconds) (.modifyMind w x.mind fun _ ↦ rfl)
  | @popReady m hm =>
    rw [hm]
    exact course_popReady s m
  | popPending _ => exact course_popPending s _
  | @beginUpdate m hm elapsed =>
    rw [hm]
    exact .of_modifyMind s m (fun _ ↦ rfl) (fun _ ↦ rfl) (fun _ ↦ rfl) (fun _ ↦ Nat.le_succ _) (fun hne ↦ absurd rfl hne)
      fun _ ↦ rfl
  | @endUpdate m hm =>
    rw [hm]
    exact course_endUpdate s m
  | takeDue => exact course_onHeap s fun _ ↦ rfl
  | setDraining draining => exact .of_minds s rfl rfl rfl rfl
  | writeDown run line => exact .of_minds s rfl rfl rfl rfl

namespace Machine

/-! ### Actions as sequences of acts -/

/-- An action that is a sequence of acts of a kind in every moment of the setting. -/
def Traced (D : Moment → Moment → Prop) {α : Type} (σ : Setting) (f : Machine α) : Prop :=
  ∀ s w, Moment.Valid ⟨s, w⟩ → s.head? = σ.current → σ.minds ≤ w.minds.size →
    ∃ s', Relation.ReflTransGen D ⟨s, w⟩ ⟨s', (f w).2⟩ ∧ ((f w).1 ≠ .error .exhausted → s' = s)

/-- A kind of acts that basic actions are made of, and that frames are taken out with and come back with. -/
structure Tracing (D : Moment → Moment → Prop) : Prop where
  act : ∀ {M M' : Moment}, D M M' → Act M M'
  basic : ∀ {σ : Setting} {α : Type} {f : Machine α}, Basic σ f → ∀ {s : List FrameKey} {w : World},
    Moment.Valid ⟨s, w⟩ → s.head? = σ.current → σ.minds ≤ w.minds.size → Relation.ReflTransGen D ⟨s, w⟩ ⟨s, (f w).2⟩
  context : ∀ (s : List FrameKey) (w : World) (context : Context),
    Relation.ReflTransGen D ⟨s, w⟩ ⟨s, { w with context }⟩
  callStack : ∀ (s : List FrameKey) (w : World) (callStack : CallStack),
    Relation.ReflTransGen D ⟨s, w⟩ ⟨s, { w with callStack }⟩
  take : ∀ {s : List FrameKey} {w : World} {m : MindId} {id : FrameId} {e : FrameEntry} {frame : Frame},
    w.entryAt m id = some e → w.isFinished e.handle = false → e.frame = some frame →
    D ⟨s, w⟩ ⟨(m, id) :: s, w.takeFrame m id e frame⟩
  back : ∀ {s : List FrameKey} {w : World} {m : MindId} {id : FrameId}, Moment.Valid ⟨(m, id) :: s, w⟩ →
    ∀ (context : Context) (frame : Frame) (step : Except EvalError Step),
    D ⟨(m, id) :: s, w⟩ ⟨s, (w.enter context s.head?).returnFrame m id frame step⟩

namespace Traced

variable {D : Moment → Moment → Prop} {σ : Setting} {α β : Type} {f : Machine α}

theorem unchanged (h : ∀ w, (f w).2 = w) : Traced D σ f :=
  fun s w _ _ _ ↦ ⟨s, by rw [h], fun _ ↦ rfl⟩

theorem attempt (hf : Traced D σ f) : Traced D σ (attempt f) := by
  intro s w hvalid hhead hminds
  obtain ⟨s', hrun, hs⟩ := hf s w hvalid hhead hminds
  rcases hfw : f w with ⟨result, w'⟩
  rw [hfw] at hrun hs
  match result with
  | .ok a =>
    rw [attempt_of_ok hfw]
    exact ⟨s', hrun, fun _ ↦ hs (by simp)⟩
  | .error (.raised e) =>
    rw [attempt_of_raised hfw]
    exact ⟨s', hrun, fun _ ↦ hs (by simp)⟩
  | .error .exhausted =>
    rw [attempt_of_exhausted hfw]
    exact ⟨s', hrun, fun hne ↦ absurd rfl hne⟩

theorem whenIdle {f : Machine Nat} (m : MindId) (hf : Traced D σ f) : Traced D σ (whenIdle m f) := by
  intro s w hvalid hhead hminds
  rw [Machine.whenIdle, get_bind]
  cases w.mind? m with
  | none => exact ⟨s, .refl, fun _ ↦ rfl⟩
  | some mind =>
    dsimp only
    split
    · exact ⟨s, .refl, fun _ ↦ rfl⟩
    · exact hf s w hvalid hhead hminds

variable (hD : Tracing D)

include hD

theorem run {M M' : Moment} (h : Relation.ReflTransGen D M M') : Run M M' :=
  Relation.ReflTransGen.mono (fun _ _ ↦ hD.act) _ _ h

theorem ofBasic (h : Basic σ f) : Traced D σ f :=
  fun s _ hvalid hhead hminds ↦ ⟨s, hD.basic h hvalid hhead hminds, fun _ ↦ rfl⟩

theorem bind {F : α → Machine β} (hf : Traced D σ f) (hF : ∀ a, Traced D σ (F a)) :
    Traced D σ (f >>= F) := by
  intro s w hvalid hhead hminds
  obtain ⟨s₁, hrun, hs⟩ := hf s w hvalid hhead hminds
  rcases hfw : f w with ⟨result, w₁⟩
  rw [hfw] at hrun hs
  cases result with
  | error i =>
    rw [bind_of_error hfw]
    refine ⟨s₁, hrun, fun hne ↦ hs fun heq ↦ hne ?_⟩
    rw [Except.error.inj heq]
  | ok a =>
    obtain rfl := hs (by simp)
    rw [bind_of_ok hfw]
    have hthere := run hD hrun
    obtain ⟨s₂, hrun', hs'⟩ := hF a s₁ w₁ (hvalid.run hthere) hhead (hminds.trans hthere.minds_le)
    exact ⟨s₂, hrun.trans hrun', hs'⟩

/-- A step of a frame from where the frame has been taken out: its body runs, and the frame comes back. -/
theorem runFrame {E : Engine} {m : MindId} {id : FrameId}
    (hbody : ∀ i frame delivered, Traced D { σ with current := some (m, id), scoping := true }
      (stepInvocation E m id i frame delivered))
    {s : List FrameKey} {w : World} (hvalid : Moment.Valid ⟨s, w⟩) (hminds : σ.minds ≤ w.minds.size)
    {entry : FrameEntry} {frame : Frame} (he : w.entryAt m id = some entry)
    (hu : w.isFinished entry.handle = false) (hframe : entry.frame = some frame) :
    ∃ s', Relation.ReflTransGen D ⟨(m, id) :: s, w.takeFrame m id entry frame⟩
        ⟨s', (runFrame E m id entry frame w).2⟩ ∧
      ((Machine.runFrame E m id entry frame w).1 ≠ .error .exhausted → s' = s) := by
  let i : Invocation := ⟨w.classes.nameOf entry.owner, entry.handle.name⟩
  have hbegin : Act ⟨s, w⟩ ⟨(m, id) :: s, w.takeFrame m id entry frame⟩ := .begin he hu hframe
  have hbegun := hvalid.act hbegin
  obtain ⟨s₁, hrun, hs⟩ := hbody i frame entry.delivered _ _ hbegun rfl (hminds.trans hbegin.minds_le)
  rcases hstep : stepInvocation E m id i frame entry.delivered (w.takeFrame m id entry frame) with ⟨result, w₁⟩
  rw [hstep] at hrun hs
  match result with
  | .error .exhausted =>
    rw [runFrame_of_error rfl hstep]
    exact ⟨s₁, hrun, fun hne ↦ absurd rfl hne⟩
  | .error (.raised e) => exact absurd (congrArg Prod.fst hstep) (Calm.stepInvocation E m id i frame _ _ e)
  | .ok (body, step, unused) =>
    obtain rfl := hs (by simp)
    have hvalid₁ := hbegun.run (run hD hrun)
    let after := { frame with context := w₁.context, body, updateCount := frame.updateCount + 1 }
    have hback : D ⟨(m, id) :: s, w₁⟩ ⟨s, (w₁.enter w.context w.current).returnFrame m id after step⟩ := by
      have hcurrent : w.current = s.head? := hvalid.current
      rw [hcurrent]
      exact hD.back hvalid₁ w.context after step
    rw [runFrame_of_ok rfl hstep]
    have hrelease : Basic ⟨s.head?, 0, true, none⟩ (releaseLinks (unused.map .object)) := .releaseLinks _
    exact ⟨s, (hrun.tail hback).trans (hD.basic hrelease (hvalid₁.act (hD.act hback)) rfl (Nat.zero_le _)), fun _ ↦ rfl⟩

/-- Being a sequence of acts is kept by every way of putting actions together. -/
theorem compositional : Compositional (Traced D) where
  unchanged := .unchanged
  bind := .bind hD
  read hF s w hvalid hhead hminds := hF w (hvalid.holds hhead hminds) s w hvalid hhead (Nat.le_refl _)
  look hF s w hvalid hhead hminds := hF w s w hvalid hhead hminds
  attempt := .attempt
  basic hbasic s w hvalid hhead hminds := ofBasic hD hbasic s w hvalid hhead hminds
  setContext F s w _ _ _ := ⟨s, hD.context s w (F w), fun _ ↦ rfl⟩
  setCallStack F s w _ _ _ := ⟨s, hD.callStack s w (F w), fun _ ↦ rfl⟩
  whenIdle {σ f} m elapsed hf := by
    have hbegin : Basic { σ with pumping := some m } (beginUpdate m elapsed) := .beginUpdate rfl elapsed
    have hbegun : Traced D { σ with pumping := some m } (beginUpdate m elapsed) := ofBasic hD hbegin
    exact .whenIdle m (hbegun.bind hD fun _ ↦ hf)
  step m id hbody s w hvalid hhead hminds := by
    rcases resumeFrame_cases m id w with hsame | ⟨entry, frame, he, hu, hframe⟩
    · exact ⟨s, by rw [hsame], fun _ ↦ rfl⟩
    · rw [resumeFrame_of_stored he hu hframe]
      obtain ⟨s', hrun, hs⟩ := Traced.runFrame hD hbody hvalid hminds he hu hframe
      exact ⟨s', .head (hD.take he hu hframe) hrun, hs⟩

end Traced

/-! ### Actions as journeys -/

/-- Deeds are acts of a kind. -/
theorem tracing_deed : Tracing fun M M' ↦ ∃ pumped, Deed pumped M M' where
  act := fun ⟨_, hdeed⟩ ↦ hdeed.act
  basic h _ _ _ hhead hminds := (h.course hhead hminds).journey
  context s w context := by
    have hcourse : Course none ⟨s, w⟩ ⟨s, { w with context }⟩ := .of_minds s rfl rfl rfl rfl
    exact hcourse.journey
  callStack s w callStack := by
    have hcourse : Course none ⟨s, w⟩ ⟨s, { w with callStack }⟩ := .of_minds s rfl rfl rfl rfl
    exact hcourse.journey
  take he hu hframe := ⟨none, .begin he hu hframe⟩
  back _ context frame step := ⟨none, .back context frame step⟩

/-- An action that is a sequence of deeds in every moment of the setting. -/
def Tracked {α : Type} (σ : Setting) (f : Machine α) : Prop :=
  ∀ s w, Moment.Valid ⟨s, w⟩ → s.head? = σ.current → σ.minds ≤ w.minds.size →
    ∃ s', Journey ⟨s, w⟩ ⟨s', (f w).2⟩ ∧ ((f w).1 ≠ .error .exhausted → s' = s)

namespace Tracked

variable {σ : Setting} {α β : Type} {f : Machine α}

theorem ofCourse (h : ∀ s w, ∃ pumped, Course pumped ⟨s, w⟩ ⟨s, (f w).2⟩) : Tracked σ f := by
  intro s w _ _ _
  obtain ⟨pumped, hcourse⟩ := h s w
  exact ⟨s, hcourse.journey, fun _ ↦ rfl⟩

theorem unchanged (h : ∀ w, (f w).2 = w) : Tracked σ f := Traced.unchanged h

theorem bind {F : α → Machine β} (hf : Tracked σ f) (hF : ∀ a, Tracked σ (F a)) : Tracked σ (f >>= F) :=
  Traced.bind tracing_deed hf hF

theorem attempt (hf : Tracked σ f) : Tracked σ (attempt f) := Traced.attempt hf

/-- Being a sequence of deeds is kept by every way of putting actions together. -/
theorem compositional : Compositional Tracked := Traced.compositional tracing_deed

end Tracked

theorem journey_runFrame {σ : Setting} {E : Engine} {m : MindId} {id : FrameId}
    (hbody : ∀ i frame delivered, Tracked { σ with current := some (m, id), scoping := true }
      (stepInvocation E m id i frame delivered))
    {s : List FrameKey} {w : World} (hvalid : Moment.Valid ⟨s, w⟩) (hminds : σ.minds ≤ w.minds.size)
    {entry : FrameEntry} {frame : Frame} (he : w.entryAt m id = some entry)
    (hu : w.isFinished entry.handle = false) (hframe : entry.frame = some frame) :
    ∃ s', Journey ⟨(m, id) :: s, w.takeFrame m id entry frame⟩ ⟨s', (runFrame E m id entry frame w).2⟩ ∧
      ((runFrame E m id entry frame w).1 ≠ .error .exhausted → s' = s) :=
  Traced.runFrame tracing_deed hbody hvalid hminds he hu hframe

end Machine

/-! ### Engines -/

/-- Every call of the engine is a sequence of deeds. -/
abbrev Engine.Tracked (E : Engine) : Prop := E.Satisfies Machine.Tracked

/-- An action that is put together over an engine whose calls are sequences of deeds is one itself. -/
theorem Machine.Alike.tracked {E E' : Engine} (hE : E.Tracked) {σ : Machine.Setting} {α : Type}
    {f g : Machine α} (h : Machine.Alike E E' σ f g) : Machine.Tracked σ f :=
  h.compositional Machine.Tracked.compositional hE

theorem Engine.tracked_ofBudget (n : Nat) : (Engine.ofBudget n).Tracked :=
  Engine.satisfies_ofBudget Machine.Tracked.compositional n

end MindScript
