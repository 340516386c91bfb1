import MindScript.Proofs.Custody.Hosts

/-!
# Histories of the queue of destructors

A run is made of basic changes, and each time the queue is taken the history of the run notes who was on it.  A mark
is never removed and the queue takes nobody who is marked, so no instance is ever on the queue a second time: whoever
was on it at some time is noted, or still waits, once.
-/

namespace MindScript

open Machine

namespace World

/-- The changes between two worlds, with the instances that were taken from the queue meanwhile, in order. -/
inductive History : World → List Ref → World → Prop where
  | refl (w : World) : History w [] w
  /-- One of the changes that every action is made of, as long as nobody leaves the queue. -/
  | basic {w w' : World} {taken : List Ref} {σ : Setting} {α : Type} {f : Machine α} : History w taken w' → Basic σ f →
      (∀ r ∈ w'.heap.due.toList, r ∈ (f w').2.heap.due.toList) → History w taken (f w').2
  | takeFrame {w w' : World} {taken : List Ref} (m : MindId) (id : FrameId) (entry : FrameEntry) (frame : Frame) :
      History w taken w' → History w taken (w'.takeFrame m id entry frame)
  | returnFrame {w w' : World} {taken : List Ref} (m : MindId) (id : FrameId) (frame : Frame)
      (step : Except EvalError Step) : History w taken w' → History w taken (w'.returnFrame m id frame step)
  /-- A change that instances and the queue have no part in. -/
  | aside {w w' w'' : World} {taken : List Ref} : History w taken w' → w''.heap.objects = w'.heap.objects →
      w''.heap.due = w'.heap.due → w''.heap.reaping = w'.heap.reaping → History w taken w''
  /-- From then on nobody comes on the queue. -/
  | retire {w w' : World} {taken : List Ref} : History w taken w' →
      History w taken { w' with heap := { w'.heap with reaping := false } }
  | take {w w' : World} {taken : List Ref} : History w taken w' →
      History w (taken ++ w'.heap.due.toList) { w' with heap := w'.heap.takeDue.2 }

namespace History

variable {w w' w'' : World} {taken taken' : List Ref}

theorem trans (h : History w taken w') (h' : History w' taken' w'') : History w (taken ++ taken') w'' := by
  induction h' with
  | refl => rwa [List.append_nil]
  | basic _ hbasic hkept ih => exact ih.basic hbasic hkept
  | takeFrame m id entry frame _ ih => exact ih.takeFrame m id entry frame
  | returnFrame m id frame step _ ih => exact ih.returnFrame m id frame step
  | aside _ hobjects hdue hreaping ih => exact ih.aside hobjects hdue hreaping
  | retire _ ih => exact ih.retire
  | take _ ih =>
    rw [← List.append_assoc]
    exact ih.take

end History

/-! ### What a basic change does to marks and to the queue -/

open Heap (Reaps)

theorem reaps_store (w : World) (name : String) (value : Ref) (place : Place) :
    w.heap.Reaps (store name value place w).2.heap := by
  cases place with
  | binding s =>
    have hbind : w.heap.Ages (w.heap.define s name value).2 := .of_objects rfl rfl rfl
    exact (hbind.trans (.release _)).toReaps
  | slot owner i =>
    have hslot : w.heap.Reaps (w.heap.modifyObject owner fun o ↦ { o with slots := o.slots.setIfInBounds i value }) := by
      refine .modifyObject ?_ owner ?_
      · exact fun _ ho ↦ ho
      · exact fun _ _ ha _ ↦ ⟨ha, fun _ ↦ id⟩
    exact hslot.trans (Heap.Ages.release _).toReaps
  | classDatum c i => exact (Heap.Ages.release _).toReaps

theorem ages_truncateScopes (w : World) (depth : Nat) : w.heap.Ages (truncateScopes depth w).2.heap := .release _

theorem ages_popScope (w : World) : w.heap.Ages (popScope w).2.heap := by
  have hpop : (popScope w).2.heap = (w.context.env.pop w.heap).2 := rfl
  rw [hpop, Environment.pop]
  split
  · exact .release _
  · exact .refl _

theorem ages_chained (h : Heap) (s : ScopeId) : h.Ages (Environment.chained h s).2 :=
  (Heap.Ages.retain (.scope s)).trans (.of_objects rfl rfl rfl)

theorem reaps_modifyItems (h : Heap) (r : Ref) (f : Sequence → Sequence) : h.Reaps (h.modifyItems r f) := by
  refine .modifyObject (fun o ho ↦ ?_) r fun o _ ha _ ↦ ?_
  · split <;> exact ho
  · split at ha <;> exact ⟨ha, fun _ ↦ id⟩

theorem heap_onClasses {α : Type} (act : Registry.Action α) (w : World) : (onClasses act w).2.heap = w.heap := by
  unfold onClasses
  rcases act w.classes with ⟨_ | _, classes⟩ <;> rfl

theorem heap_popReady (m : MindId) (w : World) : (popReady m w).2.heap = w.heap := by
  rw [popReady, modifyGet_apply]
  split <;> rfl

theorem heap_popPending (m : MindId) (w : World) : (popPending m w).2.heap = w.heap := by
  rw [popPending, modifyGet_apply]
  split <;> rfl

/-- Only taking the queue lets anybody leave it. -/
theorem reaps_basic {σ : Setting} {α : Type} {f : Machine α} (h : Basic σ f) (w : World) :
    w.heap.Reaps (f w).2.heap ∨ (f w).2 = { w with heap := w.heap.takeDue.2 } := by
  cases h with
  | takeDue => exact .inr rfl
  | retainLink l => exact .inl (deals_retain w l).ages.toReaps
  | releaseLinks ls => exact .inl (deals_release w ls).ages.toReaps
  | newValue c p => exact .inl (.newObject Nat.one_pos)
  | allocate c slots => exact .inl (.newObject Nat.one_pos)
  | disarm r =>
    refine .inl (.modifyObject ?_ r ?_)
    · exact fun _ _ ↦ rfl
    · exact fun _ _ _ hd ↦ absurd hd.symm Bool.noConfusion
  | setItems r s =>
    refine .inl (.modifyObject ?_ r ?_)
    · exact fun _ ho ↦ ho
    · exact fun _ _ ha _ ↦ ⟨ha, fun _ ↦ id⟩
  | modifyItems r f => exact .inl (reaps_modifyItems w.heap r f)
  | newScope =>
    have hnew : w.heap.Ages (Environment.new w.heap).2 := .of_objects rfl rfl rfl
    exact .inl hnew.toReaps
  | chainedScope s => exact .inl (ages_chained w.heap s).toReaps
  | pushScope => exact .inl (ages_chained w.heap _).toReaps
  | popScope => exact .inl (ages_popScope w).toReaps
  | truncateScopes _ depth => exact .inl (ages_truncateScopes w depth).toReaps
  | define name value => exact .inl (reaps_store w name value (.binding w.context.env.innermost))
  | store name value place => exact .inl (reaps_store w name value place)
  | findMember c name => exact .inl (heap_onClasses (Registry.findMember c name) w ▸ .refl w.heap)
  | resolve c name qualifier => exact .inl (heap_onClasses (Registry.resolve c name qualifier) w ▸ .refl w.heap)
  | register m name owner parent frame => exact .inl (deals_register w m name owner parent frame).ages.toReaps
  | settleMind m => exact .inl (deals_settleMind w m).ages.toReaps
  | stop x => exact .inl (deals_stop w x).ages.toReaps
  | stopAll m => exact .inl (deals_stopAll w m).ages.toReaps
  | stopAllFor r => exact .inl (deals_stopAllFor w r).ages.toReaps
  | detachChildren m id => exact .inl (deals_detachChildren w m id).ages.toReaps
  | notify m event payload => exact .inl (deals_notify w m event payload).ages.toReaps
  | endUpdate => exact .inl (deals_sweep w _).ages.toReaps
  | popReady => exact .inl (heap_popReady _ w ▸ .refl w.heap)
  | popPending => exact .inl (heap_popPending _ w ▸ .refl w.heap)
  | deferFrame m name owner parent frame => exact .inl (deals_register w m name owner parent frame).ages.toReaps
  | createMind name => exact .inl (.refl _)
  | setSuspended m suspended => exact .inl (.refl _)
  | setUpdateInterval x seconds => exact .inl (.refl _)
  | beginUpdate => exact .inl (.refl _)
  | setDraining draining => exact .inl (.refl _)
  | writeDown run line => exact .inl (.refl _)

end World

/-! ### Keeping account of who was on the queue -/

namespace Heap

/-- Whoever was taken from the queue and whoever waits on it is there once and is marked, and either waited from the
start or had no mark then. -/
structure Accounts (h : Heap) (taken : List Ref) (h' : Heap) : Prop where
  destructed : ∀ r, h.Destructed r → h'.Destructed r
  once : (taken ++ h'.due.toList).Nodup
  marked : ∀ r ∈ taken ++ h'.due.toList, h'.Destructed r
  fresh : ∀ r ∈ taken ++ h'.due.toList, r ∈ h.due.toList ∨ ¬ h.Destructed r

namespace Accounts

variable {h h' h'' : Heap} {taken : List Ref}

theorem refl (hq : h.Queued) : Accounts h [] h :=
  ⟨fun _ hr ↦ hr, hq.once, fun r hr ↦ hq.marked r hr, fun _ hr ↦ .inl hr⟩

theorem queued (ha : Accounts h taken h') : h'.Queued :=
  ⟨(List.nodup_append.mp ha.once).2.1, fun r hr ↦ ha.marked r (List.mem_append_right _ hr)⟩

/-- Who comes on the queue had no mark before, so he was neither taken nor waiting. -/
theorem reaps (ha : Accounts h taken h') (hreaps : Reaps h' h'') : Accounts h taken h'' := by
  have hqueued := hreaps.queued ha.queued
  refine ⟨fun r hr ↦ hreaps.destructed r (ha.destructed r hr), ?_, fun r hr ↦ ?_, fun r hr ↦ ?_⟩
  · obtain ⟨htaken, -, hdisjoint⟩ := List.nodup_append.mp ha.once
    refine List.nodup_append.mpr ⟨htaken, hqueued.once, fun r hr r' hr' heq ↦ ?_⟩
    rcases hreaps.due r' hr' with hwaits | hunmarked
    · exact hdisjoint r hr r' hwaits heq
    · exact hunmarked (heq ▸ ha.marked r (List.mem_append_left _ hr))
  · rcases List.mem_append.mp hr with hr | hr
    · exact hreaps.destructed r (ha.marked r (List.mem_append_left _ hr))
    · exact hqueued.marked r hr
  · rcases List.mem_append.mp hr with hr | hr
    · exact ha.fresh r (List.mem_append_left _ hr)
    · rcases hreaps.due r hr with hwaits | hunmarked
      · exact ha.fresh r (List.mem_append_right _ hwaits)
      · exact .inr fun hd ↦ hunmarked (ha.destructed r hd)

theorem takeDue (ha : Accounts h taken h') : Accounts h (taken ++ h'.due.toList) h'.takeDue.2 := by
  have hempty : taken ++ h'.due.toList ++ h'.takeDue.2.due.toList = taken ++ h'.due.toList := List.append_nil _
  refine ⟨ha.destructed, ?_, ?_, ?_⟩ <;> rw [hempty]
  · exact ha.once
  · exact ha.marked
  · exact ha.fresh

end Accounts

end Heap

namespace World

/-- Taking an empty queue takes nobody. -/
theorem reaps_of_kept {σ : Setting} {α : Type} {f : Machine α} (h : Basic σ f) {w : World}
    (hkept : ∀ r ∈ w.heap.due.toList, r ∈ (f w).2.heap.due.toList) : w.heap.Reaps (f w).2.heap := by
  rcases reaps_basic h w with hreaps | htake
  · exact hreaps
  · rw [htake] at hkept ⊢
    have hempty : w.heap.due = #[] := by
      refine Array.toList_eq_nil_iff.mp (List.eq_nil_iff_forall_not_mem.mpr fun r hr ↦ ?_)
      exact absurd (hkept r hr) List.not_mem_nil
    have hsame : w.heap.Ages w.heap.takeDue.2 := .of_objects rfl hempty.symm rfl
    exact hsame.toReaps

namespace History

variable {w w' : World} {taken : List Ref}

/-- Nobody is on the queue a second time. -/
theorem accounts (h : History w taken w') (hq : w.heap.Queued) : w.heap.Accounts taken w'.heap := by
  induction h with
  | refl => exact .refl hq
  | basic _ hbasic hkept ih => exact ih.reaps (reaps_of_kept hbasic hkept)
  | takeFrame m id entry frame _ ih => exact ih.reaps (deals_takeFrame _ m id entry frame).ages.toReaps
  | returnFrame m id frame step _ ih => exact ih.reaps (deals_returnFrame _ m id frame step).ages.toReaps
  | aside _ hobjects hdue hreaping ih => exact ih.reaps (Heap.Ages.of_objects hobjects hdue hreaping).toReaps
  | retire _ ih => exact ih.reaps (Heap.Ages.retire _).toReaps
  | take _ ih => exact ih.takeDue

/-- Nobody is freed who belongs on the queue. -/
theorem guarded (h : History w taken w') (hg : w.heap.Guarded) : w'.heap.Guarded := by
  induction h with
  | refl => exact hg
  | basic _ hbasic hkept ih => exact (reaps_of_kept hbasic hkept).guarded ih
  | takeFrame m id entry frame _ ih => exact (deals_takeFrame _ m id entry frame).ages.guarded ih
  | returnFrame m id frame step _ ih => exact (deals_returnFrame _ m id frame step).ages.guarded ih
  | aside _ hobjects hdue hreaping ih => exact (Heap.Ages.of_objects hobjects hdue hreaping).guarded ih
  | retire _ ih => exact (Heap.Ages.retire _).guarded ih
  | take _ ih => exact ih

/-- Each change that the interpreter makes goes on with the history. -/
theorem lasting : World.Lasting fun w w' ↦ ∃ taken, History w taken w' where
  refl w := ⟨[], .refl w⟩
  trans := fun ⟨_, h⟩ ⟨_, h'⟩ ↦ ⟨_, h.trans h'⟩
  basic hf w := by
    rcases reaps_basic hf w with hreaps | htake
    · exact ⟨[], (refl w).basic hf hreaps.kept⟩
    · exact ⟨_, htake ▸ (refl w).take⟩
  enter w _ _ := ⟨[], (refl w).aside rfl rfl rfl⟩
  callStack w _ := ⟨[], (refl w).aside rfl rfl rfl⟩
  take w m id entry frame := ⟨[], (refl w).takeFrame m id entry frame⟩
  back w m id frame step := ⟨[], (refl w).returnFrame m id frame step⟩

end History

/-- What a host does besides has no part in the history. -/
theorem hospitable_history : Hospitable (Along fun w w' ↦ ∃ taken, History w taken w') where
  toCompositional := Along.compositional History.lasting
  onClasses act hact := .change (Tracked.hospitable.onClasses act hact) fun w ↦
    ⟨[], .aside (.refl w) (by rw [heap_onClasses]) (by rw [heap_onClasses]) (by rw [heap_onClasses])⟩
  setClasses F hF := .change (Tracked.hospitable.setClasses F hF) fun w ↦ ⟨[], .aside (.refl w) rfl rfl rfl⟩
  takeFailures m := .change (Tracked.hospitable.takeFailures m) fun w ↦ ⟨[], .aside (.refl w) rfl rfl rfl⟩
  takeHistory m := .change (Tracked.hospitable.takeHistory m) fun w ↦ ⟨[], .aside (.refl w) rfl rfl rfl⟩
  retire := .change Tracked.hospitable.retire fun w ↦ ⟨[], .retire (.refl w)⟩

end World

/-- The changes that lead to a reached world, with everybody who was taken from the queue. -/
theorem Reached.history {owned : List Link} {w : World} (h : Reached owned w) :
    ∃ config taken, World.History (.new config) taken w :=
  h.along World.History.lasting World.hospitable_history

end MindScript
