import MindScript.Machine.Resume

/-!
# Worlds without their counts

The bare form of a world forgets how often each cell is referred to.  Counts decide only when a cell is
freed, and a freed cell matters only through a destructor; so where no instance is armed, giving up and
taking references does not change the bare world at all.
-/

namespace MindScript

def Object.bare (o : Object) : Object := { o with count := 1 }

def Scope.bare (s : Scope) : Scope := { s with count := 1 }

def Outcome.bare (o : Outcome) : Outcome := { o with count := 1 }

@[simp] theorem Outcome.status_bare (o : Outcome) : o.bare.status = o.status := rfl

@[simp] theorem Outcome.result_bare (o : Outcome) : o.bare.result = o.result := rfl

@[simp] theorem Outcome.error_bare (o : Outcome) : o.bare.error = o.error := rfl

namespace Heap

/-- The heap with every count at one. -/
def bare (h : Heap) : Heap :=
  { h with
    objects := h.objects.map Object.bare
    scopes := h.scopes.map Scope.bare
    outcomes := h.outcomes.map Outcome.bare }

/-- No instance has a destructor to run. -/
def Unarmed (h : Heap) : Prop := ∀ r o, h.object? r = some o → o.armed = false

/-! ### What the bare heap still shows -/

@[simp] theorem object?_bare (h : Heap) (r : Ref) : h.bare.object? r = (h.object? r).map Object.bare := by
  simp [bare, object?]

@[simp] theorem scope?_bare (h : Heap) (s : ScopeId) : h.bare.scope? s = (h.scope? s).map Scope.bare := by
  simp [bare, scope?]

@[simp] theorem outcome?_bare (h : Heap) (o : OutcomeId) :
    h.bare.outcome? o = (h.outcome? o).map Outcome.bare := by
  simp [bare, outcome?]

@[simp] theorem object_bare (h : Heap) (r : Ref) : h.bare.object r = (h.object r).bare := by
  unfold object
  cases hr : h.object? r with
  | none =>
    simp [hr]
    rfl
  | some o => simp [hr]

@[simp] theorem outcome_bare (h : Heap) (o : OutcomeId) : h.bare.outcome o = (h.outcome o).bare := by
  unfold outcome
  cases ho : h.outcome? o with
  | none =>
    simp [ho]
    rfl
  | some c => simp [ho]

@[simp] theorem payload_bare (h : Heap) (r : Ref) : h.bare.payload r = h.payload r := by
  simp [payload, Object.bare]

@[simp] theorem classOf_bare (h : Heap) (r : Ref) : h.bare.classOf r = h.classOf r := by
  simp [classOf, Object.bare]

@[simp] theorem due_bare (h : Heap) : h.bare.due = h.due := rfl

@[simp] theorem size_objects_bare (h : Heap) : h.bare.objects.size = h.objects.size := by
  simp [bare]

@[simp] theorem size_scopes_bare (h : Heap) : h.bare.scopes.size = h.scopes.size := by
  simp [bare]

@[simp] theorem size_outcomes_bare (h : Heap) : h.bare.outcomes.size = h.outcomes.size := by
  simp [bare]

theorem binderWithin_bare (h : Heap) (name : String) (n : Nat) (s : ScopeId) :
    h.bare.binderWithin name n s = h.binderWithin name n s := by
  induction n generalizing s with
  | zero => rfl
  | succ n ih =>
    unfold binderWithin
    rw [scope?_bare]
    cases h.scope? s with
    | none => rfl
    | some scope =>
      have hstep : h.bare.binderWithin name n = h.binderWithin name n := funext ih
      simp [Scope.bare, hstep]

@[simp] theorem binder_bare (h : Heap) (s : ScopeId) (name : String) :
    h.bare.binder s name = h.binder s name :=
  binderWithin_bare h name _ s

@[simp] theorem lookup_bare (h : Heap) (s : ScopeId) (name : String) : h.bare.lookup s name = h.lookup s name := by
  rw [lookup_eq, lookup_eq, binder_bare]
  refine congrArg (Option.bind _) (funext fun b ↦ ?_)
  rw [scope?_bare, Option.bind_map]
  rfl

/-! ### Counting leaves the bare heap alone -/

theorem map_modify_of_eq {α β : Type} {f : α → α} {g : α → β} (hf : ∀ a, g (f a) = g a) (xs : Array α)
    (i : Nat) : (xs.modify i f).map g = xs.map g := by
  apply Array.ext (by simp)
  intro j hj hj'
  simp only [Array.getElem_map, Array.getElem_modify]
  split
  · exact hf _
  · rfl

theorem bare_modifyObject_of_eq {f : Object → Object} (hf : ∀ o, (f o).bare = o.bare) (h : Heap)
    (r : Ref) : (h.modifyObject r f).bare = h.bare := by
  simp only [bare, modifyObject, map_modify_of_eq hf]

theorem bare_modifyScope_of_eq {f : Scope → Scope} (hf : ∀ s, (f s).bare = s.bare) (h : Heap)
    (s : ScopeId) : (h.modifyScope s f).bare = h.bare := by
  simp only [bare, modifyScope, map_modify_of_eq hf]

theorem bare_modifyOutcome_of_eq {f : Outcome → Outcome} (hf : ∀ o, (f o).bare = o.bare) (h : Heap)
    (c : OutcomeId) : (h.modifyOutcome c f).bare = h.bare := by
  simp only [bare, modifyOutcome, map_modify_of_eq hf]

@[simp] theorem bare_retain (h : Heap) (l : Link) : (h.retain l).bare = h.bare := by
  cases l with
  | object r =>
    rw [retain, bare_modifyObject_of_eq]
    exact fun _ ↦ rfl
  | scope s =>
    rw [retain, bare_modifyScope_of_eq]
    exact fun _ ↦ rfl
  | outcome c =>
    rw [retain, bare_modifyOutcome_of_eq]
    exact fun _ ↦ rfl

/-- What giving up one reference can do: nothing, take one from a count, or put an instance on the queue
of due destructors. -/
theorem unlink_cases (h : Heap) (l : Link) :
    (h.unlink l).2 = h ∨
    (∃ r, (∀ o, h.object? r = some o → o.count = 1 → o.armed = true → o.destructed = false → h.reaping ≠ true) ∧
      (h.unlink l).2 = h.modifyObject r fun o ↦ { o with count := o.count - 1 }) ∨
    (∃ s, (h.unlink l).2 = h.modifyScope s fun o ↦ { o with count := o.count - 1 }) ∨
    (∃ c, (h.unlink l).2 = h.modifyOutcome c fun o ↦ { o with count := o.count - 1 }) ∨
    ∃ r o, h.object? r = some o ∧ o.count = 1 ∧ o.armed = true ∧ o.destructed = false ∧ h.reaping = true ∧
      (h.unlink l).2 =
        { h.modifyObject r fun o ↦ { o with destructed := true } with due := h.due.push r } := by
  cases l with
  | object r =>
    cases hr : h.object? r with
    | none => exact .inl (by simp only [unlink, hr])
    | some o =>
      simp only [unlink, hr]
      split
      · exact .inl rfl
      · split
        · next harmed =>
          simp only [Bool.and_eq_true, decide_eq_true_eq, Bool.not_eq_true'] at harmed
          exact .inr (.inr (.inr (.inr ⟨r, o, hr, harmed.1.1.1, harmed.1.1.2, harmed.1.2, harmed.2, rfl⟩)))
        · next hkept =>
          refine .inr (.inl ⟨r, fun o' ho' hone ha hd hreaping ↦ hkept ?_, rfl⟩)
          obtain rfl := Option.some.inj (hr.symm.trans ho')
          simp [hone, ha, hd, hreaping]
  | scope s =>
    cases hs : h.scope? s with
    | none => exact .inl (by simp only [unlink, hs])
    | some o =>
      simp only [unlink, hs]
      split
      · exact .inl rfl
      · exact .inr (.inr (.inl ⟨s, rfl⟩))
  | outcome c =>
    cases hc : h.outcome? c with
    | none => exact .inl (by simp only [unlink, hc])
    | some o =>
      simp only [unlink, hc]
      split
      · exact .inl rfl
      · exact .inr (.inr (.inr (.inl ⟨c, rfl⟩)))

theorem unlinkUntilFreed_induction {P : Heap → Prop} (step : ∀ h l, P h → P (h.unlink l).2)
    {h : Heap} (hh : P h) (ls : List Link) : P (h.unlinkUntilFreed ls).2 := by
  induction ls generalizing h with
  | nil => exact hh
  | cons l rest ih =>
    have hl := step h l hh
    unfold unlinkUntilFreed
    split
    · next h' heq => exact ih (by rwa [heq] at hl)
    · next links h' heq => rwa [heq] at hl

theorem releaseWithin_induction {P : Heap → Prop} (step : ∀ h l, P h → P (h.unlink l).2) (n : Nat)
    {h : Heap} (hh : P h) (ls : List Link) : P (releaseWithin n h ls) := by
  induction n generalizing h ls with
  | zero => exact hh
  | succ n ih =>
    have hfreed := unlinkUntilFreed_induction step hh ls
    unfold releaseWithin
    split
    · next h' heq => rwa [heq] at hfreed
    · next rest h' _ heq => exact ih (by rwa [heq] at hfreed) _

/-- What giving up one reference preserves, giving up any number of them does. -/
theorem release_induction {P : Heap → Prop} (step : ∀ h l, P h → P (h.unlink l).2)
    {h : Heap} (hh : P h) (ls : List Link) : P (h.release ls) := releaseWithin_induction step _ hh ls

theorem unarmed_of_bare_eq {h h' : Heap} (hb : h.bare = h'.bare) (hu : h.Unarmed) : h'.Unarmed := by
  intro r o ho
  have hr : (h.object? r).map Object.bare = some o.bare := by
    rw [← object?_bare, hb, object?_bare, ho, Option.map_some]
  obtain ⟨o', ho', heq⟩ := Option.map_eq_some_iff.mp hr
  have harmed : o'.bare.armed = o.bare.armed := congrArg Object.armed heq
  exact harmed.symm.trans (hu r o' ho')

theorem bare_unlink {h : Heap} (hu : h.Unarmed) (l : Link) : (h.unlink l).2.bare = h.bare := by
  rcases unlink_cases h l with heq | ⟨r, -, heq⟩ | ⟨s, heq⟩ | ⟨c, heq⟩ | ⟨r, o, hr, -, harmed, -, -, -⟩
  · rw [heq]
  · rw [heq, bare_modifyObject_of_eq]
    exact fun _ ↦ rfl
  · rw [heq, bare_modifyScope_of_eq]
    exact fun _ ↦ rfl
  · rw [heq, bare_modifyOutcome_of_eq]
    exact fun _ ↦ rfl
  · rw [hu r o hr] at harmed
    exact absurd harmed Bool.false_ne_true

theorem bare_release {h : Heap} (hu : h.Unarmed) (ls : List Link) : (h.release ls).bare = h.bare := by
  refine release_induction (P := fun h' ↦ h'.bare = h.bare) (fun h' l hh ↦ ?_) rfl ls
  exact (bare_unlink (unarmed_of_bare_eq hh.symm hu) l).trans hh

/-- Whatever is given up, outcomes change in their counts alone. -/
theorem bare_outcomes_release (h : Heap) (ls : List Link) :
    (h.release ls).outcomes.map Outcome.bare = h.outcomes.map Outcome.bare := by
  refine release_induction (P := fun h' ↦ h'.outcomes.map Outcome.bare = h.outcomes.map Outcome.bare)
    (fun h' l hh ↦ ?_) rfl ls
  rcases unlink_cases h' l with heq | ⟨r, -, heq⟩ | ⟨s, heq⟩ | ⟨c, heq⟩ | ⟨r, o, -, -, -, -, -, heq⟩ <;> rw [heq]
  · exact hh
  · exact hh
  · exact hh
  · refine Eq.trans ?_ hh
    rw [modifyOutcome, map_modify_of_eq]
    exact fun _ ↦ rfl
  · exact hh

end Heap

namespace World

/-- The world with every count at one. -/
def bare (w : World) : World := { w with heap := w.heap.bare }

/-! ### What the bare world still shows -/

@[simp] theorem heap_bare (w : World) : w.bare.heap = w.heap.bare := rfl

@[simp] theorem classes_bare (w : World) : w.bare.classes = w.classes := rfl

@[simp] theorem context_bare (w : World) : w.bare.context = w.context := rfl

@[simp] theorem callStack_bare (w : World) : w.bare.callStack = w.callStack := rfl

@[simp] theorem minds_bare (w : World) : w.bare.minds = w.minds := rfl

@[simp] theorem current_bare (w : World) : w.bare.current = w.current := rfl

@[simp] theorem mind?_bare (w : World) (m : MindId) : w.bare.mind? m = w.mind? m := rfl

@[simp] theorem entryAt_bare (w : World) (m : MindId) (id : FrameId) :
    w.bare.entryAt m id = w.entryAt m id := rfl

@[simp] theorem status_bare (w : World) : w.bare.status = w.status := by
  funext h
  simp [status]

@[simp] theorem isFinished_bare (w : World) : w.bare.isFinished = w.isFinished := by
  funext h
  simp [isFinished]

@[simp] theorem classNameOf_bare (w : World) (r : Ref) : w.bare.classNameOf r = w.classNameOf r := by
  simp [classNameOf]

@[simp] theorem describe_bare (w : World) (r : Ref) : w.bare.describe r = w.describe r := by
  simp [describe]

@[simp] theorem timeWakeDue_bare (w : World) (m : MindId) (id : FrameId) :
    w.bare.timeWakeDue m id = w.timeWakeDue m id := by
  simp [timeWakeDue]

@[simp] theorem conditionHolds_bare (w : World) (m : MindId) (id : FrameId) :
    w.bare.conditionHolds m id = w.conditionHolds m id := by
  simp [conditionHolds]

@[simp] theorem liveCount_bare (w : World) (m : MindId) : w.bare.liveCount m = w.liveCount m := by
  simp [liveCount]

theorem visibleSlots_bare (w : World) (r : Ref) : w.bare.visibleSlots r = w.visibleSlots r := by
  simp [visibleSlots, Object.bare]

theorem viewWithin_bare (w : World) (room : Nat) (r : Ref) :
    w.bare.viewWithin room r = w.viewWithin room r := by
  induction room generalizing r with
  | zero =>
    unfold viewWithin
    simp
  | succ room ih =>
    have hroom : w.bare.viewWithin room = w.viewWithin room := funext ih
    unfold viewWithin
    simp [visibleSlots_bare, hroom]

@[simp] theorem view_bare (w : World) : w.bare.view = w.view := by
  funext r
  simp [view, viewWithin_bare]

end World

namespace Machine

@[simp] theorem classDatumOf_bare (w : World) (name : String) :
    classDatumOf w.bare name = classDatumOf w name := by
  simp [classDatumOf]

end Machine

end MindScript
