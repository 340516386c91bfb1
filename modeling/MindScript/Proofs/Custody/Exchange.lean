import MindScript.Proofs.Custody.Ages

/-!
# Exchanging links

A change to the heap takes links over and hands links back, and whatever else is held stays covered.  Nobody who is held
besides gets a mark: an instance is put on the queue with the last reference to it, and here there is another one.
-/

namespace MindScript.Heap

/-- For the links that are taken over others are handed back, and nobody who is held besides is marked. -/
def Exchanges (A : List Link) (h : Heap) (B : List Link) (h' : Heap) : Prop :=
  ∀ G, h.Covers (A ++ G) → h'.Covers (B ++ G) ∧ ∀ r, .object r ∈ G → h'.Destructed r → h.Destructed r

namespace Exchanges

variable {h h' h'' : Heap} {A B C : List Link} {l : Link}

theorem refl (A : List Link) (h : Heap) : Exchanges A h A h := fun _ hG ↦ ⟨hG, fun _ _ hd ↦ hd⟩

theorem trans (h₁ : Exchanges A h B h') (h₂ : Exchanges B h' C h'') : Exchanges A h C h'' := by
  intro G hG
  obtain ⟨hG', hold⟩ := h₁ G hG
  obtain ⟨hG'', hold'⟩ := h₂ G hG'
  exact ⟨hG'', fun r hr hd ↦ hold r hr (hold' r hr hd)⟩

theorem weaken (h₁ : Exchanges A h B h') (hle : Within C B) : Exchanges A h C h' := by
  intro G hG
  obtain ⟨hG', hold⟩ := h₁ G hG
  refine ⟨hG'.mono fun l ↦ ?_, hold⟩
  have hl := hle l
  simp only [List.count_append]
  omega

/-- What is not touched stays in hand. -/
theorem frame (h₁ : Exchanges A h B h') (C : List Link) : Exchanges (A ++ C) h (B ++ C) h' := by
  intro G hG
  rw [List.append_assoc] at hG
  obtain ⟨hG', hold⟩ := h₁ (C ++ G) hG
  rw [List.append_assoc]
  exact ⟨hG', fun r hr ↦ hold r (List.mem_append_right C hr)⟩

/-- A change that marks nobody. -/
theorem of_covers (hcovers : ∀ G, h.Covers (A ++ G) → h'.Covers (B ++ G)) (hmarks : ∀ r, h'.Destructed r → h.Destructed r) :
    Exchanges A h B h' :=
  fun G hG ↦ ⟨hcovers G hG, fun r _ ↦ hmarks r⟩

theorem of_objects (hobjects : h'.objects = h.objects) (hcovers : ∀ G, h.Covers (A ++ G) → h'.Covers (B ++ G)) :
    Exchanges A h B h' :=
  of_covers hcovers fun r hd ↦ by rwa [Destructed, object?, hobjects] at hd

theorem destructed_of_modifyObject {r s : Ref} {f : Object → Object} (hf : ∀ o, (f o).destructed = o.destructed)
    (hd : (h.modifyObject r f).Destructed s) : h.Destructed s := by
  obtain ⟨o, ho, hd⟩ := hd
  rw [object?_modifyObject] at ho
  split at ho
  · obtain ⟨o', ho', rfl⟩ := Option.map_eq_some_iff.mp ho
    exact ⟨o', ho', (hf o').symm.trans hd⟩
  · exact ⟨o, ho, hd⟩

theorem modifyObject (r : Ref) {f : Object → Object} (hf : ∀ o, (f o).destructed = o.destructed)
    (hcovers : ∀ G, h.Covers (A ++ G) → (h.modifyObject r f).Covers (B ++ G)) : Exchanges A h B (h.modifyObject r f) :=
  of_covers hcovers fun _ hd ↦ destructed_of_modifyObject hf hd

theorem retain (hl : h.Alive l) (A : List Link) : Exchanges A h (l :: A) (h.retain l) := by
  refine of_covers (fun G hG ↦ hG.retain hl) fun r hd ↦ ?_
  cases l with
  | object s => exact destructed_of_modifyObject (f := fun o ↦ { o with count := o.count + 1 }) (fun _ ↦ rfl) hd
  | scope s => exact hd
  | outcome c => exact hd

/-- Only the last reference to an instance marks it when it is given up. -/
theorem destructed_of_unlink {r : Ref} (hd : (h.unlink l).2.Destructed r) :
    h.Destructed r ∨ l = .object r ∧ h.counted l = 1 := by
  cases l with
  | object s =>
    simp only [Heap.unlink] at hd
    cases ho : h.object? s with
    | none => exact .inl (by simpa [ho] using hd)
    | some o =>
      rw [ho] at hd
      dsimp only at hd
      split at hd
      · exact .inl hd
      · split at hd
        · next harmed =>
          simp only [Bool.and_eq_true, decide_eq_true_eq] at harmed
          have hcounted : h.counted (.object s) = 1 := by simp [counted, refCount, ho, harmed.1.1.1]
          obtain ⟨o', ho', hd⟩ := hd
          have ho' : (h.modifyObject s fun o ↦ { o with destructed := true }).object? r = some o' := ho'
          rw [object?_modifyObject] at ho'
          split at ho'
          · next heq => exact .inr ⟨heq ▸ rfl, hcounted⟩
          · exact .inl ⟨o', ho', hd⟩
        · exact .inl (destructed_of_modifyObject (f := fun o ↦ { o with count := o.count - 1 }) (fun _ ↦ rfl) hd)
  | scope s =>
    refine .inl ?_
    simp only [Heap.unlink] at hd
    split at hd
    · exact hd
    · split at hd <;> exact hd
  | outcome c =>
    refine .inl ?_
    simp only [Heap.unlink] at hd
    split at hd
    · exact hd
    · split at hd <;> exact hd

theorem unlink (h : Heap) (l : Link) : Exchanges [l] h ((h.unlink l).1.getD []) (h.unlink l).2 := by
  intro G hG
  refine ⟨hG.unlink, fun r hr hd ↦ (destructed_of_unlink hd).resolve_right ?_⟩
  rintro ⟨rfl, hone⟩
  have hcount := hG.counts (.object r)
  have hpos := List.count_pos_iff.mpr hr
  simp only [List.singleton_append, count_cons_hits, Link.hits_self] at hcount
  omega

theorem unlinkUntilFreed (h : Heap) (ls : List Link) :
    Exchanges ls h (h.unlinkUntilFreed ls).1 (h.unlinkUntilFreed ls).2 := by
  induction ls generalizing h with
  | nil => exact .refl [] h
  | cons l rest ih =>
    have hl := (unlink h l).frame rest
    unfold Heap.unlinkUntilFreed
    rcases hu : h.unlink l with ⟨_ | links, h'⟩ <;> rw [hu] at hl
    · exact hl.trans (ih h')
    · exact hl

/-- References are given up with all that hangs on them. -/
theorem release (h : Heap) (ls : List Link) : Exchanges ls h [] (h.release ls) := by
  suffices hwithin : ∀ n (h : Heap) ls, Exchanges ls h [] (releaseWithin n h ls) from hwithin _ h ls
  intro n
  induction n with
  | zero => exact fun h ls ↦ (Exchanges.refl ls h).weaken fun l ↦ by simp
  | succ n ih =>
    intro h ls
    have hfreed := unlinkUntilFreed h ls
    unfold releaseWithin
    split
    · next h' heq => rwa [heq] at hfreed
    · next rest h' _ heq =>
      rw [heq] at hfreed
      exact hfreed.trans (ih h' rest)

theorem newObject {o : Object} (hone : o.count = 1) (hnew : o.destructed = false) (A : List Link) :
    Exchanges (o.links ++ A) h (.object (h.newObject o).1 :: A) (h.newObject o).2 := by
  refine of_covers (fun G hG ↦ ?_) fun r ⟨o', ho', hd⟩ ↦ ?_
  · rw [List.append_assoc] at hG
    exact hG.newObject hone
  · by_cases hr : r = (h.newObject o).1
    · rw [hr, object?_newObject_self] at ho'
      obtain rfl := Option.some.inj ho'
      rw [hnew] at hd
      cases hd
    · exact ⟨o', (object?_newObject_of_ne hr).symm.trans ho', hd⟩

end Exchanges

end MindScript.Heap
