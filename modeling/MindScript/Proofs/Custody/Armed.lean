import MindScript.Proofs.Continuation.Agreement
import MindScript.Proofs.Custody.Restored
import MindScript.Proofs.Custody.Resumptions
import MindScript.Proofs.Destructors.History

/-!
# What holds at every moment of a step

An instance is made to wait for its destructor if its class has one, and classes keep their destructors.  So
whoever waits is of a class that has a destructor, in each world that is reached and at each moment that a call
passes.  The Minds that such a world names are there and a scope is open in it, so expressions may be evaluated
there at once or task by task.
-/

namespace MindScript

open Machine

namespace World

variable {w w' : World}

/-- An instance waits for its destructor only if its class has one. -/
def Armed (w : World) : Prop :=
  ∀ r o, w.heap.object? r = some o → o.armed = true → w.classes.hasDestructor o.classId = true

namespace Armed

/-- Classes keep their destructors, and who comes to wait for one is of a class that has it. -/
theorem mono (h : w.Armed) (hmarks : w.classes.KeepsMarks w'.classes)
    (hobjects : ∀ r o', w'.heap.object? r = some o' → o'.armed = true →
      (∃ o, w.heap.object? r = some o ∧ o.armed = true ∧ o'.classId = o.classId) ∨
        w'.classes.hasDestructor o'.classId = true) : w'.Armed := by
  intro r o' ho' harmed
  rcases hobjects r o' ho' harmed with ⟨o, ho, hold, hclass⟩ | hnew
  · rw [hclass]
    exact hmarks o.classId (h r o ho hold)
  · exact hnew

theorem of_objects (h : w.Armed) (hmarks : w.classes.KeepsMarks w'.classes)
    (hobjects : w'.heap.objects = w.heap.objects) : w'.Armed := by
  refine h.mono hmarks fun r o' ho' harmed ↦ .inl ⟨o', ?_, harmed, rfl⟩
  rwa [Heap.object?, ← hobjects]

/-- Counts and marks do not matter. -/
theorem ages (h : w.Armed) (hmarks : w.classes.KeepsMarks w'.classes) (hages : w.heap.Ages w'.heap) : w'.Armed := by
  refine h.mono hmarks fun r o' ho' harmed ↦ .inl ?_
  obtain ⟨o, ho, heq⟩ := Typed.object_of_stock hages.stock ho'
  have hsame : o'.armed = o.armed := (congrArg Object.armed heq :)
  exact ⟨o, ho, hsame.symm.trans harmed, (congrArg Object.classId heq :)⟩

theorem newObject (h : w.Armed) {o : Object} (ho : o.armed = true → w.classes.hasDestructor o.classId = true) :
    Armed { w with heap := (w.heap.newObject o).2 } := by
  refine h.mono (.refl _) fun r o' ho' harmed ↦ ?_
  by_cases hr : r = (w.heap.newObject o).1
  · rw [hr] at ho'
    obtain rfl := Option.some.inj ((Heap.object?_newObject_self w.heap o).symm.trans ho')
    exact .inr (ho harmed)
  · exact .inl ⟨o', (Heap.object?_newObject_of_ne hr).symm.trans ho', harmed, rfl⟩

theorem modifyObject (h : w.Armed) (r : Ref) {f : Object → Object}
    (hf : ∀ o, (f o).armed = o.armed ∧ (f o).classId = o.classId) :
    Armed { w with heap := w.heap.modifyObject r f } := by
  refine h.mono (.refl _) fun s o' ho' harmed ↦ .inl ?_
  simp only [Heap.object?_modifyObject] at ho'
  split at ho'
  · obtain ⟨o, ho, rfl⟩ := Option.map_eq_some_iff.mp ho'
    exact ⟨o, ho, (hf o).1.symm.trans harmed, (hf o).2⟩
  · exact ⟨o', ho', harmed, rfl⟩

theorem deals (h : w.Armed) (hdeals : w.Deals w') (hinward : w.Inward w') : w'.Armed :=
  h.ages (.of_classes (congrArg Registry.classes hinward.classes)) hdeals.ages

theorem onClasses (h : w.Armed) {α : Type} {act : Registry.Action α}
    (hmarks : w.classes.KeepsMarks (act w.classes).2) : (onClasses act w).2.Armed := by
  refine h.of_objects ?_ (by rw [heap_onClasses])
  unfold Machine.onClasses
  rcases hact : act w.classes with ⟨_ | _, classes⟩ <;> rw [hact] at hmarks <;> exact hmarks

theorem store (h : w.Armed) (name : String) (value : Ref) (place : Place) : (store name value place w).2.Armed := by
  cases place with
  | binding s =>
    have hbound : Armed { w with heap := (w.heap.define s name value).2 } := h.of_objects (.refl _) rfl
    exact hbound.deals (deals_release _ _) (inward_heap _ _)
  | slot owner i =>
    have hslot := h.modifyObject owner (f := fun o ↦ { o with slots := o.slots.setIfInBounds i value })
      fun _ ↦ ⟨rfl, rfl⟩
    exact hslot.deals (deals_release _ _) (inward_heap _ _)
  | classDatum c i =>
    have hset : Armed { w with classes := (w.classes.setClassData c i value).2 } :=
      h.of_objects (.setClassData _ c i value) rfl
    exact hset.deals (deals_release _ _) (inward_heap _ _)

/-- No change lets anybody wait for a destructor that its class does not have. -/
theorem basic (h : w.Armed) {σ : Setting} {α : Type} {f : Machine α} (hf : Basic σ f) : (f w).2.Armed := by
  cases hf with
  | retainLink l => exact h.deals (deals_retain w l) (inward_heap w _)
  | releaseLinks ls => exact h.deals (deals_release w ls) (inward_heap w _)
  | newValue c p => exact h.newObject fun harmed ↦ absurd harmed Bool.false_ne_true
  | allocate c slots => exact h.newObject id
  | disarm r => exact h.modifyObject r fun _ ↦ ⟨rfl, rfl⟩
  | setItems r s => exact h.modifyObject r fun _ ↦ ⟨rfl, rfl⟩
  | modifyItems r f =>
    refine h.modifyObject r fun o ↦ ?_
    split <;> exact ⟨rfl, rfl⟩
  | newScope => exact h.of_objects (.refl _) rfl
  | chainedScope s => exact h.ages (.refl _) (ages_chained w.heap s)
  | pushScope => exact h.ages (.refl _) (ages_chained w.heap _)
  | popScope => exact h.ages (.refl _) (ages_popScope w)
  | truncateScopes _ depth => exact h.ages (.refl _) (ages_truncateScopes w depth)
  | define name value => exact h.store name value (.binding w.context.env.innermost)
  | store name value place => exact h.store name value place
  | findMember c name => exact h.onClasses (.of_classes (Registry.classes_find _ c name))
  | resolve c name qualifier => exact h.onClasses (.of_classes (classes_resolve _ c name qualifier))
  | register m name owner parent frame =>
    exact h.deals (deals_register w m name owner parent frame) (inward_register w m name owner parent frame)
  | deferFrame m name owner parent frame =>
    have hregistered : (w.register m name owner parent frame).2.Armed :=
      h.deals (deals_register w m name owner parent frame) (inward_register w m name owner parent frame)
    exact hregistered.of_objects (.refl _) rfl
  | settleMind m => exact h.deals (deals_settleMind w m) (inward_settleMind w m)
  | stop x => exact h.deals (deals_stop w x) (inward_stop w x)
  | stopAll m => exact h.deals (deals_stopAll w m) (inward_stopAll w m)
  | stopAllFor r => exact h.deals (deals_stopAllFor w r) (inward_stopAllFor w r)
  | detachChildren m id => exact h.deals (deals_detachChildren w m id) (inward_detachChildren w m id)
  | notify m event payload => exact h.deals (deals_notify w m event payload) (inward_notify w m event payload)
  | endUpdate => exact (h.deals (deals_sweep w _) (inward_sweep w _)).of_objects (.refl _) rfl
  | popReady =>
    rw [popReady, modifyGet_apply]
    split <;> exact h.of_objects (.refl _) rfl
  | popPending =>
    rw [popPending, modifyGet_apply]
    split <;> exact h.of_objects (.refl _) rfl
  | _ => exact h.of_objects (.refl _) rfl

theorem takeFrame (h : w.Armed) (m : MindId) (id : FrameId) (entry : FrameEntry) (frame : Frame) :
    (w.takeFrame m id entry frame).Armed :=
  h.ages (.refl _) (deals_takeFrame w m id entry frame).ages

theorem lasting : World.Lasting fun w w' ↦ w.Armed → w'.Armed where
  refl _ := id
  trans h h' := h' ∘ h
  basic hf _ h := h.basic hf
  enter _ _ _ h := h.of_objects (.refl _) rfl
  callStack _ _ h := h.of_objects (.refl _) rfl
  take _ m id entry frame h := h.takeFrame m id entry frame
  back w m id frame step h := h.deals (deals_returnFrame w m id frame step) (inward_returnFrame w m id frame step)

/-- What a host does besides takes no destructor from a class. -/
theorem hospitable : Hospitable (Along fun w w' ↦ w.Armed → w'.Armed) where
  toCompositional := Along.compositional lasting
  onClasses act hact := .change (Tracked.hospitable.onClasses act hact) fun _ h ↦ h.onClasses (hact _)
  setClasses F hF := .change (Tracked.hospitable.setClasses F hF) fun w h ↦ h.of_objects (hF w) rfl
  takeFailures m := .change (Tracked.hospitable.takeFailures m) fun _ h ↦ h.of_objects (.refl _) rfl
  takeHistory m := .change (Tracked.hospitable.takeHistory m) fun _ h ↦ h.of_objects (.refl _) rfl
  retire := .change Tracked.hospitable.retire fun _ h ↦ h.of_objects (.refl _) rfl

end Armed

theorem armed_new (config : Config) : (World.new config).Armed := by
  intro r o ho harmed
  rw [Heap.object?, heap_new] at ho
  obtain ⟨_ | i⟩ := r
  · obtain rfl := Option.some.inj ho
    cases harmed
  · cases ho

end World

open World (Armed)

variable {owned : List Link} {w v : World}

theorem Reached.armed (h : Reached owned w) : w.Armed := by
  obtain ⟨config, hkept⟩ := h.along Armed.lasting Armed.hospitable
  exact hkept (World.armed_new config)

/-! ### On the way -/

/-- A relation that holds across every change holds between an action's start and all that it passes. -/
theorem World.Lasting.passing {R : World → World → Prop} (hR : World.Lasting R) :
    Passing fun σ w _ v ↦ ∀ s, Starts σ s w → R w v where
  here _ w _ _ := hR.refl w
  next {n σ k} α f w v hf hne ih s hs := by
    have halong : Along R σ f := hf.served (Along.compositional hR).toComposite
      ((Engine.along_ofBudget hR n).serves (Along.compositional hR).toComposite)
    exact hR.trans (halong.along s w hs.valid hs.head hs.minds) (ih s (hs.piece hf hne))
  read ih s hs := ih s ⟨hs.valid, hs.head, Nat.le_refl _, hs.deferred⟩
  basic hf ih s hs := hR.trans (hR.basic hf _) (ih s (hs.basic hf))
  setContext {σ k w v context} ih s hs :=
    hR.trans (hR.enter w context w.current) (ih s (hs.of_minds rfl rfl rfl rfl))
  push {σ k w v i callStack} _ ih s hs := hR.trans (hR.callStack w callStack) (ih s (hs.of_minds rfl rfl rfl rfl))
  whenIdle _ ih s hs := ih s ⟨hs.valid, hs.head, hs.minds, hs.deferred⟩
  take {σ k w v m id entry frame} he hu hframe ih s hs :=
    hR.trans (hR.take w m id entry frame) (ih _ (hs.take he hu hframe))
  spawns {σ w} m name owner parent frame hm hparent hfresh _ _ :=
    hR.basic (.register (σ := σ) m name owner parent frame hm hparent hfresh) w
  wakes {σ w m id} _ _ _ _ := hR.refl w
  starts {σ w w' m id} hm hpop _ _ := by
    have hpopped := hR.basic (.popPending hm) w
    rwa [hpop] at hpopped

/-- Wherever a call has come to, an expression may be evaluated at once or task by task. -/
theorem Reached.inStep (h : Reached owned w) {n : ℕ} {α : Type} {f : Machine α} {k : Option FrameKey}
    (hpasses : Passes n w.setting f w k v) : v.InStep := by
  obtain ⟨σ, hsane⟩ := h.sane
  have hvalid := hsane.books.valid
  have hstarts : Starts w.setting σ.stack w := ⟨hvalid, hvalid.current.symm, Nat.le_refl _, h.deferred⟩
  have hholds : w.setting.Holds w := ⟨rfl, Nat.le_refl _, (h.holds none).rooted⟩
  exact ⟨(hpasses.satisfies passing_limited hholds).2, v.context.env.depth_pos,
    hpasses.satisfies Armed.lasting.passing σ.stack hstarts h.armed⟩

end MindScript
