import MindScript.Proofs.Custody.Cells
import MindScript.Proofs.Dealings

/-!
# What the scheduler does to instances

Taking and giving up references changes the counts of instances, and puts some on the queue of due destructors.  The
queue takes an instance at most once: it marks the ones that it takes, and takes none that is marked.  To the
instances the scheduler does nothing else.
-/

namespace MindScript

/-- The instance without what becomes of it as references to it are taken and given up. -/
def Object.stock (o : Object) : Object := { o with count := 1, destructed := false }

namespace Heap

/-- The destructor of the instance was scheduled or given up. -/
def Destructed (h : Heap) (r : Ref) : Prop := ∃ o, h.object? r = some o ∧ o.destructed = true

/-- Every instance on the queue is there once, and marked. -/
structure Queued (h : Heap) : Prop where
  once : h.due.toList.Nodup
  marked : ∀ r ∈ h.due.toList, h.Destructed r

/-- As long as destructors are run at all, no instance is freed whose destructor is neither scheduled nor given up. -/
def Guarded (h : Heap) : Prop :=
  h.reaping = true → ∀ r o, h.object? r = some o → o.armed = true → o.destructed = false → 0 < o.count

/-- The destructor of the instance is not to be scheduled. -/
def Waived (h : Heap) (r : Ref) : Prop :=
  ∃ o, h.object? r = some o ∧ (h.reaping = true → o.armed = true → o.destructed = true)

/-- Marks stay, who comes on the queue had none and waited for it, nobody leaves the queue, and nobody is freed who
belongs on it. -/
structure Reaps (h h' : Heap) : Prop where
  destructed : ∀ r, h.Destructed r → h'.Destructed r
  kept : ∀ r ∈ h.due.toList, r ∈ h'.due.toList
  due : ∀ r ∈ h'.due.toList, r ∈ h.due.toList ∨ ¬ h.Destructed r
  waived : ∀ r, h.Waived r → h'.Waived r ∧ (r ∈ h'.due.toList → r ∈ h.due.toList)
  queued : h.Queued → h'.Queued
  guarded : h.Guarded → h'.Guarded

/-- Moreover the instances are the same up to their counts and marks. -/
structure Ages (h h' : Heap) : Prop extends Reaps h h' where
  stock : h'.objects.map Object.stock = h.objects.map Object.stock

variable {h h' h'' : Heap}

theorem destructed_modifyObject {r s : Ref} {f : Object → Object} (hf : ∀ o, o.destructed = true → (f o).destructed = true)
    (hr : h.Destructed r) : (h.modifyObject s f).Destructed r := by
  obtain ⟨o, ho, hd⟩ := hr
  rw [Destructed, object?_modifyObject]
  split
  · exact ⟨f o, by rw [ho, Option.map_some], hf o hd⟩
  · exact ⟨o, ho, hd⟩

theorem Queued.modifyObject (hq : h.Queued) (r : Ref) {f : Object → Object}
    (hf : ∀ o, o.destructed = true → (f o).destructed = true) : (h.modifyObject r f).Queued :=
  ⟨hq.once, fun s hs ↦ destructed_modifyObject hf (hq.marked s hs)⟩

theorem Guarded.modifyObject (hg : h.Guarded) {r : Ref} {f : Object → Object}
    (hmark : ∀ o, o.destructed = true → (f o).destructed = true)
    (hguard : ∀ o, h.object? r = some o → (f o).armed = true → (f o).destructed = false →
      o.armed = true ∧ (h.reaping = true → 0 < o.count → 0 < (f o).count)) : (h.modifyObject r f).Guarded := by
  intro hreaping s o ho ha hd
  rw [object?_modifyObject] at ho
  split at ho
  · next heq =>
    subst heq
    obtain ⟨o, hold, rfl⟩ := Option.map_eq_some_iff.mp ho
    obtain ⟨ha', hcount⟩ := hguard o hold ha hd
    refine hcount hreaping (hg hreaping r o hold ha' ?_)
    exact Bool.eq_false_iff.mpr fun hd' ↦ by simp [hmark o hd'] at hd
  · exact hg hreaping s o ho ha hd

theorem Waived.modifyObject {r s : Ref} (hw : h.Waived s) {f : Object → Object}
    (hmark : ∀ o, o.destructed = true → (f o).destructed = true)
    (harmed : ∀ o, h.object? r = some o → (f o).armed = true → (f o).destructed = false → o.armed = true) :
    (h.modifyObject r f).Waived s := by
  obtain ⟨o, ho, hwaived⟩ := hw
  rw [Waived, object?_modifyObject]
  split
  · next heq =>
    refine ⟨f o, by rw [ho, Option.map_some], fun hreaping ha ↦ ?_⟩
    by_cases hd : (f o).destructed = true
    · exact hd
    · exact hmark o (hwaived hreaping (harmed o (heq ▸ ho) ha (Bool.eq_false_iff.mpr hd)))
  · exact ⟨o, ho, hwaived⟩

namespace Reaps

theorem refl (h : Heap) : Reaps h h :=
  ⟨fun _ hr ↦ hr, fun _ hr ↦ hr, fun _ hr ↦ .inl hr, fun _ hw ↦ ⟨hw, id⟩, id, id⟩

theorem trans (h₁ : Reaps h h') (h₂ : Reaps h' h'') : Reaps h h'' := by
  refine ⟨fun r hr ↦ h₂.destructed r (h₁.destructed r hr), fun r hr ↦ h₂.kept r (h₁.kept r hr), fun r hr ↦ ?_,
    fun r hw ↦ ?_, fun hq ↦ h₂.queued (h₁.queued hq), fun hg ↦ h₂.guarded (h₁.guarded hg)⟩
  · rcases h₂.due r hr with hr | hr
    · exact h₁.due r hr
    · exact .inr fun hd ↦ hr (h₁.destructed r hd)
  · obtain ⟨hw', hback⟩ := h₁.waived r hw
    obtain ⟨hw'', hback'⟩ := h₂.waived r hw'
    exact ⟨hw'', fun hr ↦ hback (hback' hr)⟩

/-- What leaves the queue alone and takes no marks away. -/
theorem of_due (hdue : h'.due = h.due) (hd : ∀ r, h.Destructed r → h'.Destructed r) (hw : ∀ r, h.Waived r → h'.Waived r)
    (hg : h.Guarded → h'.Guarded) : Reaps h h' :=
  ⟨hd, fun _ hr ↦ hdue ▸ hr, fun _ hr ↦ .inl (hdue ▸ hr), fun r hr ↦ ⟨hw r hr, fun hmem ↦ hdue ▸ hmem⟩, fun hq ↦
    ⟨hdue ▸ hq.once, fun r hr ↦ hd r (hq.marked r (hdue ▸ hr))⟩, hg⟩

theorem modifyObject {f : Object → Object} (hmark : ∀ o, o.destructed = true → (f o).destructed = true) (r : Ref)
    (hguard : ∀ o, h.object? r = some o → (f o).armed = true → (f o).destructed = false →
      o.armed = true ∧ (h.reaping = true → 0 < o.count → 0 < (f o).count)) : Reaps h (h.modifyObject r f) :=
  of_due rfl (fun _ ↦ destructed_modifyObject hmark)
    (fun _ hw ↦ hw.modifyObject hmark fun o ho ha hd ↦ (hguard o ho ha hd).1) fun hg ↦ hg.modifyObject hmark hguard

theorem newObject {o : Object} (hcount : 0 < o.count) : Reaps h (h.newObject o).2 := by
  have hold {r : Ref} {o' : Object} (ho' : h.object? r = some o') : (h.newObject o).2.object? r = some o' := by
    refine (object?_newObject_of_ne fun heq ↦ ?_).trans ho'
    have hlt := (Array.getElem?_eq_some_iff.mp ho').1
    rw [heq] at hlt
    exact Nat.lt_irrefl _ hlt
  refine of_due rfl (fun _ ⟨o', ho', hd⟩ ↦ ⟨o', hold ho', hd⟩) (fun _ ⟨o', ho', hw⟩ ↦ ⟨o', hold ho', hw⟩)
    fun hg hreaping r o' ho' ↦ ?_
  by_cases hr : r = (h.newObject o).1
  · rw [hr, object?_newObject_self] at ho'
    obtain rfl := Option.some.inj ho'
    exact fun _ _ ↦ hcount
  · exact hg hreaping r o' ((object?_newObject_of_ne hr).symm.trans ho')

/-- An instance whose destructor becomes due is marked as it comes on the queue. -/
theorem enqueue {r : Ref} {o : Object} (ho : h.object? r = some o) (harmed : o.armed = true)
    (hnew : o.destructed = false) (hreaping : h.reaping = true) :
    Reaps h { h.modifyObject r fun o ↦ { o with destructed := true } with due := h.due.push r } := by
  have hmarked : Reaps h (h.modifyObject r fun o ↦ { o with destructed := true }) :=
    modifyObject (fun _ _ ↦ rfl) r fun _ _ _ hd ↦ absurd hd.symm Bool.noConfusion
  have hnot : ¬ h.Destructed r := by
    rintro ⟨o', ho', hd⟩
    rw [ho] at ho'
    rw [← Option.some.inj ho', hnew] at hd
    exact absurd hd.symm Bool.noConfusion
  have hself : (h.modifyObject r fun o ↦ { o with destructed := true }).Destructed r :=
    ⟨{ o with destructed := true }, by rw [object?_modifyObject, if_pos rfl, ho, Option.map_some], rfl⟩
  refine ⟨hmarked.destructed, fun s hs ↦ ?_, fun s hs ↦ ?_, fun s hs ↦ ⟨(hmarked.waived s hs).1, fun hmem ↦ ?_⟩,
    fun hq ↦ ⟨?_, fun s hs ↦ ?_⟩, hmarked.guarded⟩
  · simp [hs]
  · rw [Array.toList_push, List.mem_append, List.mem_singleton] at hs
    rcases hs with hs | rfl
    · exact .inl hs
    · exact .inr hnot
  · rw [Array.toList_push, List.mem_append, List.mem_singleton] at hmem
    rcases hmem with hmem | rfl
    · exact hmem
    · obtain ⟨o', ho', hw⟩ := hs
      obtain rfl := Option.some.inj (ho.symm.trans ho')
      exact absurd ((hw hreaping harmed).symm.trans hnew) Bool.noConfusion
  · rw [Array.toList_push, List.nodup_append]
    refine ⟨hq.once, List.nodup_cons.mpr ⟨List.not_mem_nil, List.nodup_nil⟩, fun s hs s' hs' heq ↦ ?_⟩
    rw [List.mem_singleton] at hs'
    exact hnot (hs' ▸ heq ▸ hq.marked s hs)
  · rw [Array.toList_push, List.mem_append, List.mem_singleton] at hs
    rcases hs with hs | rfl
    · exact hmarked.destructed s (hq.marked s hs)
    · exact hself

end Reaps

namespace Ages

theorem refl (h : Heap) : Ages h h := ⟨.refl h, rfl⟩

theorem trans (h₁ : Ages h h') (h₂ : Ages h' h'') : Ages h h'' := ⟨h₁.toReaps.trans h₂.toReaps, h₂.stock.trans h₁.stock⟩

/-- What leaves the instances and the queue alone. -/
theorem of_objects (hobjects : h'.objects = h.objects) (hdue : h'.due = h.due) (hreaping : h'.reaping = h.reaping) :
    Ages h h' := by
  refine ⟨.of_due hdue (fun r hr ↦ ?_) (fun r hr ↦ ?_) fun hg hreaping' r o ho ↦ ?_, by rw [hobjects]⟩
  · rwa [Destructed, object?, hobjects]
  · rwa [Waived, object?, hobjects, hreaping]
  · rw [object?, hobjects] at ho
    exact hg (hreaping.symm.trans hreaping') r o ho

/-- From then on nobody comes on the queue. -/
theorem retire (h : Heap) : Ages h { h with reaping := false } :=
  ⟨.of_due rfl (fun _ hr ↦ hr) (fun _ ⟨o, ho, _⟩ ↦ ⟨o, ho, fun hreaping ↦ absurd hreaping Bool.false_ne_true⟩)
    fun _ hreaping ↦ absurd hreaping Bool.false_ne_true, rfl⟩

theorem modifyObject {f : Object → Object} (hstock : ∀ o, (f o).stock = o.stock)
    (hmark : ∀ o, o.destructed = true → (f o).destructed = true) (r : Ref)
    (hcount : ∀ o, h.object? r = some o → h.reaping = true → o.armed = true → (f o).destructed = false →
      0 < o.count → 0 < (f o).count) : Ages h (h.modifyObject r f) := by
  have harmed : ∀ o, (f o).armed = o.armed := fun o ↦ (congrArg Object.armed (hstock o) :)
  refine ⟨.modifyObject hmark r fun o ho ha hd ↦ ?_, Heap.map_modify_of_eq hstock _ _⟩
  rw [harmed] at ha
  exact ⟨ha, fun hreaping ↦ hcount o ho hreaping ha hd⟩

theorem retain (l : Link) : Ages h (h.retain l) := by
  cases l with
  | object r =>
    refine modifyObject ?_ ?_ r ?_
    · exact fun _ ↦ rfl
    · exact fun _ ho ↦ ho
    · exact fun _ _ _ _ _ _ ↦ Nat.succ_pos _
  | scope s => exact of_objects rfl rfl rfl
  | outcome c => exact of_objects rfl rfl rfl

theorem enqueue {r : Ref} {o : Object} (ho : h.object? r = some o) (harmed : o.armed = true)
    (hnew : o.destructed = false) (hreaping : h.reaping = true) :
    Ages h { h.modifyObject r fun o ↦ { o with destructed := true } with due := h.due.push r } :=
  ⟨.enqueue ho harmed hnew hreaping,
    Heap.map_modify_of_eq (f := fun o : Object ↦ { o with destructed := true }) (fun _ ↦ rfl) _ _⟩

/-- An instance is freed only if its destructor is not to be scheduled. -/
theorem unlink (l : Link) : Ages h (h.unlink l).2 := by
  rcases unlink_cases h l with heq | ⟨r, hlast, heq⟩ | ⟨s, heq⟩ | ⟨c, heq⟩ | ⟨r, o, ho, -, harmed, hnew, hreaping, heq⟩ <;>
    rw [heq]
  · exact refl h
  · refine modifyObject ?_ ?_ r ?_
    · exact fun _ ↦ rfl
    · exact fun _ ho ↦ ho
    · intro o ho hreaping ha hd hpos
      have hne : o.count ≠ 1 := fun hone ↦ hlast o ho hone ha hd hreaping
      exact Nat.sub_pos_of_lt (by omega)
  · exact of_objects rfl rfl rfl
  · exact of_objects rfl rfl rfl
  · exact enqueue ho harmed hnew hreaping

theorem release (ls : List Link) : Ages h (h.release ls) :=
  release_induction (P := Ages h) (fun _ l hh ↦ hh.trans (unlink l)) (refl h) ls

end Ages

/-- The scheduler does no more to instances than to age them. -/
theorem Dealt.ages (hd : Dealt h h') : Ages h h' := by
  induction hd with
  | refl => exact .refl h
  | retain l _ ih => exact ih.trans (.retain l)
  | release ls _ ih => exact ih.trans (.release ls)
  | newOutcome status _ ih => exact ih.trans (.of_objects rfl rfl rfl)
  | modifyOutcome c f _ ih => exact ih.trans (.of_objects rfl rfl rfl)

end Heap

theorem World.Deals.ages {w w' : World} (h : w.Deals w') : w.heap.Ages w'.heap := Heap.Dealt.ages h

end MindScript
