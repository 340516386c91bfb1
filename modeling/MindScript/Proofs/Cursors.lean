import MindScript.Proofs.Custody.Members

/-!
# Cursors keep up with their list

A list may change between two visits of a cursor.  To tell its elements apart, each is marked when it comes into the
list; a value that is put in the place of another one takes over its mark.  A cursor owes a visit to the elements that
were there when it was opened and to those that came in at or behind its position.  Before its position there is nothing
that it still owes a visit to, and from there on there is nothing else.
-/

namespace MindScript

/-! ### What a cursor owes -/

/-- The marks of the elements that a cursor has to visit, and of those that it has visited, in this order. -/
structure Visit where
  due : List Nat
  seen : List Nat := []
  deriving DecidableEq

namespace Visit

def owe (v : Visit) (t : Nat) : Visit := { v with due := v.due ++ [t] }

def see (v : Visit) (t : Nat) : Visit := { v with seen := v.seen ++ [t] }

/-- Of the elements before its position the cursor has visited those that are due, in the order of the list, and
behind it all are due and none has been visited. -/
structure Fits (before after : List Nat) (v : Visit) : Prop where
  behind : v.seen.filter (· ∈ before) = before.filter (· ∈ v.due)
  ahead : ∀ t ∈ after, t ∈ v.due ∧ t ∉ v.seen
  once : v.seen.Nodup

namespace Fits

variable {b b₁ b₂ a a₁ a₂ : List Nat} {t : Nat} {v : Visit}

theorem opens (a : List Nat) : Fits [] a { due := a } :=
  ⟨rfl, fun _ ht ↦ ⟨ht, List.not_mem_nil⟩, List.nodup_nil⟩

/-- A new element comes in behind the position. -/
theorem arrive_ahead (h : v.Fits b (a₁ ++ a₂)) (hb : t ∉ b) (hseen : t ∉ v.seen) :
    (v.owe t).Fits b (a₁ ++ t :: a₂) := by
  refine ⟨h.behind.trans (List.filter_congr fun x hx ↦ ?_), fun x hx ↦ ?_, h.once⟩
  · have hne : x ≠ t := fun heq ↦ hb (heq ▸ hx)
    simp [owe, hne]
  · rcases List.mem_append.mp hx with hmem | hmem
    · exact (h.ahead x (List.mem_append_left _ hmem)).imp_left (List.mem_append_left _)
    · rcases List.mem_cons.mp hmem with rfl | hmem
      · exact ⟨List.mem_append_right _ List.mem_cons_self, hseen⟩
      · exact (h.ahead x (List.mem_append_right _ hmem)).imp_left (List.mem_append_left _)

/-- A new element comes in before the position, and is not due. -/
theorem arrive_behind (h : v.Fits (b₁ ++ b₂) a) (hdue : t ∉ v.due) (hseen : t ∉ v.seen) :
    v.Fits (b₁ ++ t :: b₂) a := by
  refine ⟨?_, h.ahead, h.once⟩
  have hsame : v.seen.filter (· ∈ b₁ ++ t :: b₂) = v.seen.filter (· ∈ b₁ ++ b₂) := by
    refine List.filter_congr fun x hx ↦ ?_
    have hne : x ≠ t := fun heq ↦ hseen (heq ▸ hx)
    simp [hne]
  rw [hsame, h.behind, List.filter_append, List.filter_append, List.filter_cons_of_neg (by simpa using hdue)]

theorem leave_ahead (h : v.Fits b (a₁ ++ t :: a₂)) : v.Fits b (a₁ ++ a₂) := by
  refine ⟨h.behind, fun x hx ↦ h.ahead x ?_, h.once⟩
  rcases List.mem_append.mp hx with hmem | hmem
  · exact List.mem_append_left _ hmem
  · exact List.mem_append_right _ (List.mem_cons_of_mem t hmem)

theorem leave_behind (h : v.Fits (b₁ ++ t :: b₂) a) (ht : t ∉ b₁ ++ b₂) : v.Fits (b₁ ++ b₂) a := by
  refine ⟨?_, h.ahead, h.once⟩
  -- Both sides have lost the element and nothing else.
  have hleft := congrArg (List.filter (· ≠ t)) h.behind
  have hne : ∀ x ∈ b₁ ++ b₂, x ≠ t := fun x hx heq ↦ ht (heq ▸ hx)
  have hkept : (b₁ ++ t :: b₂).filter (· ≠ t) = b₁ ++ b₂ := by
    rw [List.filter_append, List.filter_cons_of_neg (by simp), ← List.filter_append]
    exact List.filter_eq_self.mpr fun x hx ↦ by simpa using hne x hx
  rw [List.filter_filter, List.filter_comm, hkept] at hleft
  rw [← hleft]
  refine List.filter_congr fun x _ ↦ ?_
  by_cases hx : x = t
  · subst hx
    simpa using ht
  · simp [hx]

theorem clear (h : v.Fits b a) : v.Fits [] [] := ⟨by simp, fun _ ht ↦ (List.not_mem_nil ht).elim, h.once⟩

/-- The cursor visits the next element. -/
theorem next (h : v.Fits b (t :: a)) (ha : t ∉ a) : (v.see t).Fits (b ++ [t]) a := by
  obtain ⟨hdue, hseen⟩ := h.ahead t List.mem_cons_self
  refine ⟨?_, fun x hx ↦ ?_, ?_⟩
  · have hsame : v.seen.filter (· ∈ b ++ [t]) = v.seen.filter (· ∈ b) := by
      refine List.filter_congr fun x hx ↦ ?_
      have hne : x ≠ t := fun heq ↦ hseen (heq ▸ hx)
      simp [hne]
    change (v.seen ++ [t]).filter (· ∈ b ++ [t]) = (b ++ [t]).filter (· ∈ v.due)
    rw [List.filter_append, List.filter_append, hsame, h.behind]
    simp [hdue]
  · obtain ⟨hxdue, hxseen⟩ := h.ahead x (List.mem_cons_of_mem t hx)
    refine ⟨hxdue, fun hmem ↦ ?_⟩
    rcases List.mem_append.mp hmem with hmem | hmem
    · exact hxseen hmem
    · exact ha (List.mem_singleton.mp hmem ▸ hx)
  · refine List.nodup_append.mpr ⟨h.once, List.nodup_cons.mpr ⟨List.not_mem_nil, List.nodup_nil⟩, fun x hx y hy heq ↦ ?_⟩
    exact hseen (List.mem_singleton.mp hy ▸ heq ▸ hx)

/-- At the end of the list the cursor has visited all that are due and are still there, in the order of the list. -/
theorem at_end (h : v.Fits b []) : v.seen.filter (· ∈ b) = b.filter (· ∈ v.due) := h.behind

end Fits

end Visit

/-! ### Marked lists -/

/-- What can be done to a list and to its cursors. -/
inductive Sequence.Op where
  | append (item : Ref)
  | set (index : Int64) (item : Ref)
  | insert (index : Int64) (item : Ref)
  | remove (index : Int64)
  | clear
  | openCursor
  | advance (cursor : Nat)

/-- The list afterwards; where the operation fails, it is as before. -/
@[simp] def Sequence.apply (s : Sequence) : Op → Sequence
  | .append item => s.push item
  | .set index item => s.set index item
  | .insert index item =>
    match s.insert index item with
    | .ok s' => s'
    | .error _ => s
  | .remove index =>
    match s.remove index with
    | .ok (_, s') => s'
    | .error _ => s
  | .clear => s.clear.2
  | .openCursor => s.openCursor.2
  | .advance cursor => (s.advance cursor).2

/-- The marks of the elements of a list and the values that they stand for, and what its cursors owe and have
visited. -/
structure Marks where
  next : Nat
  tags : List Nat
  value : Nat → Ref
  visits : List Visit := []

namespace Marks

/-- An element comes in at a position, and is due for the cursors that have not passed that position. -/
def arrive (g : Marks) (cursors : Array Nat) (i : Nat) (item : Ref) : Marks where
  next := g.next + 1
  tags := g.tags.take i ++ g.next :: g.tags.drop i
  value := Function.update g.value g.next item
  visits := g.visits.mapIdx fun c v ↦ if cursors.getD c 0 ≤ i then v.owe g.next else v

/-- A value is put in the place of another one. -/
def put (g : Marks) (i : Nat) (item : Ref) : Marks :=
  match g.tags[i]? with
  | some t => { g with value := Function.update g.value t item }
  | none => g

def leave (g : Marks) (i : Nat) : Marks := { g with tags := g.tags.take i ++ g.tags.drop (i + 1) }

def visit (g : Marks) (cursor i : Nat) : Marks :=
  match g.tags[i]? with
  | some t => { g with visits := g.visits.modify cursor fun v ↦ v.see t }
  | none => g

/-- The marks after an operation on the list. -/
@[simp] def apply (s : Sequence) (g : Marks) : Sequence.Op → Marks
  | .append item => g.arrive s.cursors s.size item
  | .set index item => (Sequence.position? index s.size).elim g fun i ↦ g.put i item
  | .insert index item => (Sequence.position? index (s.size + 1)).elim g fun i ↦ g.arrive s.cursors i item
  | .remove index => (Sequence.position? index s.size).elim g g.leave
  | .clear => { g with tags := [] }
  | .openCursor => { g with visits := g.visits ++ [{ due := g.tags }] }
  | .advance cursor => g.visit cursor (s.cursors.getD cursor 0)

end Marks

/-- A list that has been worked on since it was made. -/
inductive Sequence.Marked : Sequence → Marks → Prop where
  | new (itemClass : ClassId) (items : Array Ref) :
      Marked { itemClass, items }
        { next := items.size, tags := List.range items.size, value := fun t ↦ items.getD t .nil }
  | step {s : Sequence} {g : Marks} (op : Op) : Marked s g → Marked (s.apply op) (g.apply s op)

namespace Marks

private theorem insertIdx_eq_take_drop {items : List Ref} {i : Nat} {item : Ref} (h : i ≤ items.length) :
    items.insertIdx i item = items.take i ++ item :: items.drop i := by
  induction items generalizing i with
  | nil =>
    obtain rfl := Nat.le_zero.mp h
    rfl
  | cons first rest ih =>
    cases i with
    | zero => rfl
    | succ i =>
      rw [List.insertIdx_succ_cons, ih (Nat.le_of_succ_le_succ h), List.take_succ_cons, List.drop_succ_cons]
      rfl

/-- The marks fit the list. -/
structure Fits (s : Sequence) (g : Marks) : Prop where
  items : s.items.toList = g.tags.map g.value
  visits : g.visits.length = s.cursors.size
  once : g.tags.Nodup
  old : ∀ t ∈ g.tags, t < g.next
  known : ∀ v ∈ g.visits, (∀ t ∈ v.due, t < g.next) ∧ ∀ t ∈ v.seen, t < g.next
  cursor : ∀ (c p : Nat) (v : Visit), s.cursors[c]? = some p → g.visits[c]? = some v →
    ∃ before after, g.tags = before ++ after ∧ before.length = p ∧ v.Fits before after

namespace Fits

variable {s : Sequence} {g : Marks} {i : Nat}

theorem length_tags (h : Fits s g) : g.tags.length = s.size := by
  rw [Sequence.size, ← Array.length_toList, h.items, List.length_map]

/-- No cursor is beyond the end of the list. -/
theorem position_le (h : Fits s g) {c p : Nat} (hp : s.cursors[c]? = some p) : p ≤ s.size := by
  have hlt : c < g.visits.length := h.visits ▸ (Array.getElem?_eq_some_iff.mp hp).1
  obtain ⟨before, after, htags, rfl, -⟩ := h.cursor c p _ hp (List.getElem?_eq_getElem hlt)
  rw [← h.length_tags, htags, List.length_append]
  exact Nat.le_add_right _ _

theorem new (itemClass : ClassId) (items : Array Ref) :
    Fits { itemClass, items }
      { next := items.size, tags := List.range items.size, value := fun t ↦ items.getD t .nil } where
  items := List.ext_getElem (by simp) fun i hi _ ↦ by simp [Array.getD_eq_getD_getElem?, Array.length_toList ▸ hi]
  visits := rfl
  once := List.nodup_range
  old := fun _ ht ↦ List.mem_range.mp ht
  known := fun _ hv ↦ (List.not_mem_nil hv).elim
  cursor := fun c p _ hp ↦ by simp at hp

/-- An element comes in, and the cursors that have passed its position move on. -/
theorem arrive (h : Fits s g) {item : Ref} {items : Array Ref}
    (hitems : items.toList = s.items.toList.take i ++ item :: s.items.toList.drop i)
    {cursors : Array Nat} (hsize : cursors.size = s.cursors.size)
    (hcursors : ∀ (c p : Nat), s.cursors[c]? = some p → cursors[c]? = some (if i < p then p + 1 else p)) :
    Fits { s with items, cursors } (g.arrive s.cursors i item) := by
  have hnew : g.next ∉ g.tags := fun hmem ↦ Nat.lt_irrefl _ (h.old _ hmem)
  have hperm : (g.tags.take i ++ g.next :: g.tags.drop i).Perm (g.next :: g.tags) := by
    refine List.perm_middle.trans (.of_eq ?_)
    rw [List.take_append_drop]
  refine ⟨?_, ?_, ?_, fun t ht ↦ ?_, fun v hv ↦ ?_, fun c p' v' hp' hv' ↦ ?_⟩
  · have hother : ∀ {ts : List Nat}, ts ⊆ g.tags → ts.map (Function.update g.value g.next item) = ts.map g.value :=
      fun hts ↦ List.map_congr_left fun t ht ↦ Function.update_of_ne (ne_of_mem_of_not_mem (hts ht) hnew) ..
    rw [hitems, h.items, Marks.arrive]
    simp only [List.map_append, List.map_cons, Function.update_self, hother (List.take_subset ..),
      hother (List.drop_subset ..), List.map_take, List.map_drop]
  · rw [Marks.arrive, List.length_mapIdx, h.visits]
    exact hsize.symm
  · exact hperm.nodup_iff.mpr (List.nodup_cons.mpr ⟨hnew, h.once⟩)
  · rcases List.mem_cons.mp (hperm.mem_iff.mp ht) with rfl | hold
    · exact Nat.lt_succ_self _
    · exact Nat.lt_succ_of_lt (h.old t hold)
  · obtain ⟨c, hc, rfl⟩ := List.mem_mapIdx.mp hv
    obtain ⟨hdue, hseen⟩ := h.known _ (List.getElem_mem hc)
    have hlater : ∀ {ts : List Nat}, (∀ t ∈ ts, t < g.next) → ∀ t ∈ ts, t < g.next + 1 :=
      fun hts t ht ↦ Nat.lt_succ_of_lt (hts t ht)
    split
    · refine ⟨fun t ht ↦ ?_, hlater hseen⟩
      rcases List.mem_append.mp ht with hold | ht
      · exact hlater hdue t hold
      · exact List.mem_singleton.mp ht ▸ Nat.lt_succ_self _
    · exact ⟨hlater hdue, hlater hseen⟩
  · simp only [Marks.arrive, List.getElem?_mapIdx, Option.map_eq_some_iff] at hv'
    obtain ⟨v, hv, rfl⟩ := hv'
    have hc : c < s.cursors.size := h.visits ▸ (List.getElem?_eq_some_iff.mp hv).1
    have hp := Array.getElem?_eq_getElem hc
    obtain rfl := Option.some.inj ((hcursors c _ hp).symm.trans hp')
    obtain ⟨before, after, htags, hbefore, hfits⟩ := h.cursor c _ v hp hv
    have hgetD : s.cursors.getD c 0 = before.length := by rw [Array.getD_eq_getD_getElem?, hp, hbefore]; rfl
    obtain ⟨hdue, hseen⟩ := h.known v (List.mem_of_getElem? hv)
    have hseen' : g.next ∉ v.seen := fun hmem ↦ Nat.lt_irrefl _ (hseen _ hmem)
    rw [← hbefore, hgetD]
    by_cases hlt : i < before.length
    · rw [if_pos hlt, if_neg (Nat.not_le_of_lt hlt)]
      have hdue' : g.next ∉ v.due := fun hmem ↦ Nat.lt_irrefl _ (hdue _ hmem)
      have hsplit : before.take i ++ before.drop i = before := List.take_append_drop i before
      refine ⟨before.take i ++ g.next :: before.drop i, after, ?_, ?_, (hsplit.symm ▸ hfits).arrive_behind hdue' hseen'⟩
      · rw [Marks.arrive, htags, List.take_append_of_le_length hlt.le, List.drop_append_of_le_length hlt.le]
        simp
      · simp only [List.length_append, List.length_cons, List.length_take, List.length_drop]
        omega
    · rw [if_neg hlt, if_pos (Nat.not_lt.mp hlt)]
      have hsplit : after.take (i - before.length) ++ after.drop (i - before.length) = after := List.take_append_drop ..
      refine ⟨before, after.take (i - before.length) ++ g.next :: after.drop (i - before.length), ?_, rfl, ?_⟩
      · rw [Marks.arrive, htags, List.take_append, List.drop_append, List.take_of_length_le (Nat.not_lt.mp hlt),
          List.drop_of_length_le (Nat.not_lt.mp hlt)]
        simp
      · refine (hsplit.symm ▸ hfits).arrive_ahead (fun hmem ↦ hnew ?_) hseen'
        rw [htags]
        exact List.mem_append_left _ hmem

/-- An element goes, and the cursors that have passed its position move back. -/
theorem leave (h : Fits s g) (hi : i < s.size) {items : Array Ref}
    (hitems : items.toList = s.items.toList.take i ++ s.items.toList.drop (i + 1))
    {cursors : Array Nat} (hsize : cursors.size = s.cursors.size)
    (hcursors : ∀ (c p : Nat), s.cursors[c]? = some p → cursors[c]? = some (if i < p then p - 1 else p)) :
    Fits { s with items, cursors } (g.leave i) := by
  have hlength : i < g.tags.length := h.length_tags ▸ hi
  have hsplit : g.tags = g.tags.take i ++ g.tags[i] :: g.tags.drop (i + 1) := by
    rw [← List.drop_eq_getElem_cons hlength, List.take_append_drop]
  have hsublist : (g.leave i).tags.Sublist g.tags := by
    rw [Marks.leave]
    nth_rewrite 3 [hsplit]
    exact (List.Sublist.refl _).append (List.sublist_cons_self _ _)
  refine ⟨?_, ?_, hsublist.nodup h.once, fun t ht ↦ h.old t (hsublist.mem ht), h.known, fun c p' v hp' hv ↦ ?_⟩
  · rw [hitems, h.items, Marks.leave, List.map_append, List.map_take, List.map_drop]
  · exact h.visits.trans hsize.symm
  · have hc : c < s.cursors.size := h.visits ▸ (List.getElem?_eq_some_iff.mp hv).1
    have hp := Array.getElem?_eq_getElem hc
    obtain rfl := Option.some.inj ((hcursors c _ hp).symm.trans hp')
    obtain ⟨before, after, htags, hbefore, hfits⟩ := h.cursor c _ v hp hv
    rw [← hbefore]
    by_cases hlt : i < before.length
    · rw [if_pos hlt]
      have hsplit : before.take i ++ before[i] :: before.drop (i + 1) = before := by
        rw [← List.drop_eq_getElem_cons hlt, List.take_append_drop]
      have honce : before.Nodup := (List.sublist_append_left before after).nodup (htags ▸ h.once)
      have hgone : before[i] ∉ before.take i ++ before.drop (i + 1) := by
        have hnodup := hsplit.symm ▸ honce
        exact (List.nodup_cons.mp (List.perm_middle.nodup_iff.mp hnodup)).1
      refine ⟨before.take i ++ before.drop (i + 1), after, ?_, ?_, (hsplit.symm ▸ hfits).leave_behind hgone⟩
      · rw [Marks.leave, htags, List.take_append_of_le_length hlt.le, List.drop_append_of_le_length hlt]
        simp
      · simp only [List.length_append, List.length_take, List.length_drop]
        omega
    · rw [if_neg hlt]
      have hafter : i - before.length < after.length := by
        rw [htags, List.length_append] at hlength
        omega
      have hsplit : after.take (i - before.length) ++ after[i - before.length] :: after.drop (i - before.length + 1) =
          after := by
        rw [← List.drop_eq_getElem_cons hafter, List.take_append_drop]
      refine ⟨before, after.take (i - before.length) ++ after.drop (i - before.length + 1), ?_, rfl,
        (hsplit.symm ▸ hfits).leave_ahead⟩
      have hnext : i + 1 - before.length = i - before.length + 1 := by omega
      rw [Marks.leave, htags, List.take_append, List.drop_append, List.take_of_length_le (Nat.not_lt.mp hlt),
        List.drop_of_length_le (by omega), hnext]
      simp

theorem append (h : Fits s g) (item : Ref) : Fits (s.push item) (g.arrive s.cursors s.size item) := by
  have hsize : s.items.toList.length = s.size := Array.length_toList
  refine h.arrive ?_ rfl fun c p hp ↦ ?_
  · rw [List.take_of_length_le hsize.le, List.drop_of_length_le hsize.le, Array.toList_push]
  · rw [if_neg (Nat.not_lt.mpr (h.position_le hp)), hp]

theorem put (h : Fits s g) (hi : i < s.size) (item : Ref) :
    Fits { s with items := s.items.setIfInBounds i item } (g.put i item) := by
  have hlt : i < g.tags.length := h.length_tags ▸ hi
  have hput : g.put i item = { g with value := Function.update g.value g.tags[i] item } := by
    rw [Marks.put, List.getElem?_eq_getElem hlt]
  rw [hput]
  refine ⟨?_, h.visits, h.once, h.old, h.known, h.cursor⟩
  rw [Array.toList_setIfInBounds, h.items, h.once.map_update, if_pos (List.getElem_mem hlt), h.once.idxOf_getElem]

theorem set (h : Fits s g) (index : Int64) (item : Ref) :
    Fits (s.apply (.set index item)) (g.apply s (.set index item)) := by
  cases hposition : Sequence.position? index s.size with
  | none =>
    simp only [Sequence.apply, Sequence.set, Marks.apply, hposition]
    exact h
  | some i =>
    simp only [Sequence.apply, Sequence.set, Marks.apply, hposition]
    exact h.put (Sequence.position?_eq_some_iff.mp hposition).2 item

theorem insert (h : Fits s g) (index : Int64) (item : Ref) :
    Fits (s.apply (.insert index item)) (g.apply s (.insert index item)) := by
  cases hposition : Sequence.position? index (s.size + 1) with
  | none =>
    simp only [Sequence.apply, Sequence.insert, Marks.apply, hposition]
    exact h
  | some i =>
    simp only [Sequence.apply, Sequence.insert, Marks.apply, hposition]
    have hle : i ≤ s.items.size := Nat.le_of_lt_succ (Sequence.position?_eq_some_iff.mp hposition).2
    refine h.arrive ?_ Array.size_map fun c p hp ↦ by rw [Array.getElem?_map, hp]; rfl
    rw [Array.insertIdxIfInBounds, dif_pos hle, Array.toList_insertIdx, insertIdx_eq_take_drop (by simpa using hle)]

theorem remove (h : Fits s g) (index : Int64) : Fits (s.apply (.remove index)) (g.apply s (.remove index)) := by
  cases hposition : Sequence.position? index s.size with
  | none =>
    simp only [Sequence.apply, Sequence.remove, Marks.apply, hposition]
    exact h
  | some i =>
    have hlt : i < s.items.size := (Sequence.position?_eq_some_iff.mp hposition).2
    simp only [Sequence.apply, Sequence.remove, Marks.apply, hposition, Array.getElem?_eq_getElem hlt]
    refine h.leave hlt ?_ Array.size_map fun c p hp ↦ by rw [Array.getElem?_map, hp]; rfl
    rw [Array.toList_eraseIdxIfInBounds, List.eraseIdx_eq_take_drop_succ]

theorem clear (h : Fits s g) : Fits (s.apply .clear) (g.apply s .clear) := by
  refine ⟨rfl, h.visits.trans Array.size_map.symm, List.nodup_nil, fun _ ht ↦ (List.not_mem_nil ht).elim, h.known,
    fun c p v hp hv ↦ ?_⟩
  simp only [Sequence.apply, Sequence.clear, Array.getElem?_map, Option.map_eq_some_iff] at hp
  obtain ⟨p₀, hp₀, rfl⟩ := hp
  obtain ⟨_, _, -, -, hfits⟩ := h.cursor c p₀ v hp₀ hv
  exact ⟨[], [], rfl, rfl, hfits.clear⟩

theorem openCursor (h : Fits s g) : Fits (s.apply .openCursor) (g.apply s .openCursor) := by
  refine ⟨h.items, ?_, h.once, h.old, fun v hv ↦ ?_, fun c p v hp hv ↦ ?_⟩
  · simp [Sequence.apply, Sequence.openCursor, Marks.apply, h.visits]
  · rcases List.mem_append.mp hv with hold | hnew
    · exact h.known v hold
    · obtain rfl := List.mem_singleton.mp hnew
      exact ⟨h.old, fun _ ht ↦ (List.not_mem_nil ht).elim⟩
  · rw [Sequence.apply, Sequence.openCursor, Array.getElem?_push] at hp
    simp only [Marks.apply] at hv
    by_cases hc : c = s.cursors.size
    · rw [if_pos hc] at hp
      obtain rfl := Option.some.inj hp
      rw [List.getElem?_append_right (by rw [h.visits, hc]), hc, h.visits, Nat.sub_self] at hv
      obtain rfl := Option.some.inj hv
      exact ⟨[], g.tags, rfl, rfl, .opens g.tags⟩
    · rw [if_neg hc] at hp
      have hlt : c < g.visits.length := h.visits ▸ (Array.getElem?_eq_some_iff.mp hp).1
      rw [List.getElem?_append_left hlt] at hv
      exact h.cursor c p v hp hv

/-- A cursor that is not at the end visits the next element. -/
theorem visit (h : Fits s g) {c p : Nat} {v : Visit} (hp : s.cursors[c]? = some p) (hv : g.visits[c]? = some v)
    (hlt : p < s.size) : ∃ t, g.tags[p]? = some t ∧ s.items[p]? = some (g.value t) ∧ t ∈ v.due ∧ t ∉ v.seen ∧
    Fits { s with cursors := s.cursors.setIfInBounds c (p + 1) }
      { g with visits := g.visits.modify c fun v ↦ v.see t } := by
  obtain ⟨before, after, htags, rfl, hfits⟩ := h.cursor c p v hp hv
  obtain ⟨t, rest, rfl⟩ : ∃ t rest, after = t :: rest := by
    cases after with
    | nil => exact absurd hlt (by simp [← h.length_tags, htags])
    | cons t rest => exact ⟨t, rest, rfl⟩
  have hhead : g.tags[before.length]? = some t := by simp [htags]
  have ht := h.old t (List.mem_of_getElem? hhead)
  obtain ⟨hdue, hseen⟩ := hfits.ahead t List.mem_cons_self
  refine ⟨t, hhead, ?_, hdue, hseen, h.items, by simp [h.visits], h.once, h.old, fun v' hv' ↦ ?_,
    fun c' p' v' hp' hv' ↦ ?_⟩
  · rw [← Array.getElem?_toList, h.items, List.getElem?_map, hhead]
    rfl
  · obtain ⟨c', hc'⟩ := List.mem_iff_getElem?.mp hv'
    rw [List.getElem?_modify, Option.map_eq_map, Option.map_eq_some_iff] at hc'
    obtain ⟨v₀, hv₀, rfl⟩ := hc'
    obtain ⟨hdue₀, hseen₀⟩ := h.known v₀ (List.mem_of_getElem? hv₀)
    split
    · refine ⟨hdue₀, fun x hx ↦ ?_⟩
      rcases List.mem_append.mp hx with hold | hnew
      · exact hseen₀ x hold
      · exact List.mem_singleton.mp hnew ▸ ht
    · exact ⟨hdue₀, hseen₀⟩
  · rw [List.getElem?_modify, Option.map_eq_map, Option.map_eq_some_iff] at hv'
    obtain ⟨v₀, hv₀, rfl⟩ := hv'
    rw [Array.getElem?_setIfInBounds] at hp'
    by_cases hc : c = c'
    · subst hc
      rw [if_pos rfl, if_pos (Array.getElem?_eq_some_iff.mp hp).1] at hp'
      obtain rfl := Option.some.inj hp'
      obtain rfl := Option.some.inj (hv.symm.trans hv₀)
      have honce : (t :: rest).Nodup := (List.sublist_append_right before _).nodup (htags ▸ h.once)
      refine ⟨before ++ [t], rest, by rw [htags, List.append_assoc, List.singleton_append], List.length_append, ?_⟩
      rw [if_pos rfl]
      exact hfits.next (List.nodup_cons.mp honce).1
    · rw [if_neg hc] at hp'
      rw [if_neg hc]
      exact h.cursor c' p' v₀ hp' hv₀

theorem advance (h : Fits s g) (c : Nat) : Fits (s.apply (.advance c)) (g.apply s (.advance c)) := by
  rcases lt_or_ge c s.cursors.size with hc | hc
  · have hp := Array.getElem?_eq_getElem hc
    have hv := List.getElem?_eq_getElem (h.visits.symm ▸ hc)
    have hgetD : s.cursors.getD c 0 = s.cursors[c] := by rw [Array.getD_eq_getD_getElem?, hp]; rfl
    rcases lt_or_ge s.cursors[c] s.size with hlt | hge
    · obtain ⟨t, ht, hitem, -, -, hfits⟩ := h.visit hp hv hlt
      simp only [Sequence.apply, Sequence.advance, Marks.apply, Marks.visit, hgetD, ht, hitem]
      exact hfits
    · have hitem : s.items[s.cursors[c]]? = none := Array.getElem?_eq_none hge
      have ht : g.tags[s.cursors[c]]? = none := List.getElem?_eq_none (h.length_tags ▸ hge)
      simp only [Sequence.apply, Sequence.advance, Marks.apply, Marks.visit, hgetD, ht, hitem]
      exact h
  · -- There is no such cursor, and nothing moves.
    have hsame : s.apply (.advance c) = s := by
      simp only [Sequence.apply, Sequence.advance]
      split
      · rfl
      · rw [Array.setIfInBounds_eq_of_size_le hc]
    have hkept : g.apply s (.advance c) = g := by
      simp only [Marks.apply, Marks.visit]
      split
      · rw [List.modify_eq_self (h.visits ▸ hc)]
      · rfl
    rw [hsame, hkept]
    exact h

theorem apply (h : Fits s g) (op : Sequence.Op) : Fits (s.apply op) (g.apply s op) := by
  cases op with
  | append item => exact h.append item
  | set index item => exact h.set index item
  | insert index item => exact h.insert index item
  | remove index => exact h.remove index
  | clear => exact h.clear
  | openCursor => exact h.openCursor
  | advance cursor => exact h.advance cursor

end Fits

end Marks

theorem Sequence.Marked.fits {s : Sequence} {g : Marks} (h : s.Marked g) : g.Fits s := by
  induction h with
  | new itemClass items => exact .new itemClass items
  | step op _ ih => exact ih.apply op

/-! ### Indices out of range -/

/-- The bound of the index that a list method takes. -/
def CoreMethod.indexBound (s : Sequence) : CoreMethod → Option Nat
  | .listAt | .listSetAt | .listRemoveAt => some s.size
  | .listInsert => some (s.size + 1)
  | _ => none

section

open Machine

variable {w : World} {r this : Ref} {s : Sequence} {i : Int64}

theorem Machine.expectList_of_payload (h : w.heap.payload r = .list s) : expectList r w = (.ok s, w) := by
  rw [expectList, bind_of_ok (show payloadOf r w = (.ok (w.heap.payload r), w) from rfl), h]
  rfl

theorem Machine.expectInteger_of_payload (h : w.heap.payload r = .integer i) : expectInteger r w = (.ok i, w) := by
  rw [expectInteger, bind_of_ok (show payloadOf r w = (.ok (w.heap.payload r), w) from rfl), h]
  rfl

theorem Machine.checkType_of_isSubtype {c : ClassId} (h : w.classes.isSubtype (w.heap.classOf r) c = true) :
    checkType r c w = (.ok (), w) := by
  rw [checkType, bind_of_ok (show (get : Machine World) w = (.ok w, w) from rfl), if_pos h]
  rfl

/-- A list method whose index is out of range fails with that error and leaves everything as it is. -/
theorem Machine.runCore_out_of_range (E : Engine) {method : CoreMethod} {args : List Ref} {bound : Nat}
    (hthis : w.heap.payload this = .list s) (hindex : w.heap.payload (args.getD 0 .nil) = .integer i)
    (hbound : method.indexBound s = some bound) (hout : Sequence.position? i bound = none)
    (hitem : method = .listSetAt ∨ method = .listInsert →
      w.classes.isSubtype (w.heap.classOf (args.getD 1 .nil)) s.itemClass = true) :
    runCore E method this args w = (.error (.raised (s.outOfRange i)), w) := by
  cases method <;> cases hbound <;> dsimp only [runCore]
  case listAt =>
    have hget : s.get i = .error (s.outOfRange i) := by simp only [Sequence.get, hout, Option.bind_none]
    rw [bind_of_ok (expectInteger_of_payload hindex), bind_of_ok (expectList_of_payload hthis), hget]
    rfl
  case listSetAt =>
    have hget : s.get i = .error (s.outOfRange i) := by simp only [Sequence.get, hout, Option.bind_none]
    rw [listSetAt, bind_of_ok (expectList_of_payload hthis), bind_of_ok (expectInteger_of_payload hindex),
      bind_of_ok (checkType_of_isSubtype (hitem (.inl rfl))), hget]
    rfl
  case listInsert =>
    have hinsert : s.insert i (args.getD 1 .nil) = .error (s.outOfRange i) := by simp only [Sequence.insert, hout]
    rw [listInsert, bind_of_ok (expectList_of_payload hthis), bind_of_ok (expectInteger_of_payload hindex),
      bind_of_ok (checkType_of_isSubtype (hitem (.inr rfl))), hinsert]
    rfl
  case listRemoveAt =>
    have hremove : s.remove i = .error (s.outOfRange i) := by simp only [Sequence.remove, hout]
    rw [listRemoveAt, bind_of_ok (expectInteger_of_payload hindex), bind_of_ok (expectList_of_payload hthis), hremove]
    rfl

end

/-! ### The statement -/

/-- No cursor gets beyond the end of its list or yields an element twice; what it yields is the element at its
position.  When it reports the end, the elements that it has yielded and that are still in the list are those that
were due, in the order of the list.  A list method whose index is out of range changes nothing. -/
theorem cursors_keep_up {s : Sequence} {g : Marks} (h : s.Marked g) :
    g.tags.Nodup ∧ s.items.toList = g.tags.map g.value ∧ g.visits.length = s.cursors.size ∧
      (∀ (c p : Nat) (v : Visit), s.cursors[c]? = some p → g.visits[c]? = some v →
        p ≤ s.size ∧ v.seen.Nodup ∧
        (∀ item, (s.advance c).1 = some item → ∃ t, g.tags[p]? = some t ∧ item = g.value t ∧
          t ∈ v.due ∧ t ∉ v.seen ∧ (g.apply s (.advance c)).visits[c]? = some (v.see t)) ∧
        ((s.advance c).1 = none → p = s.size ∧ v.seen.filter (· ∈ g.tags) = g.tags.filter (· ∈ v.due))) ∧
      ∀ (E : Engine) (method : CoreMethod) (this : Ref) (args : List Ref) (w : World) (i : Int64) (bound : Nat),
        w.heap.payload this = .list s → w.heap.payload (args.getD 0 .nil) = .integer i →
        (method = .listSetAt ∨ method = .listInsert →
          w.classes.isSubtype (w.heap.classOf (args.getD 1 .nil)) s.itemClass = true) →
        method.indexBound s = some bound → Sequence.position? i bound = none →
        Machine.runCore E method this args w = (.error (.raised (s.outOfRange i)), w) := by
  have hfits := h.fits
  refine ⟨hfits.once, hfits.items, hfits.visits, fun c p v hp hv ↦ ?_,
    fun E method this args w i bound hthis hindex hitem hbound hout ↦
      Machine.runCore_out_of_range E hthis hindex hbound hout hitem⟩
  have hgetD : s.cursors.getD c 0 = p := by rw [Array.getD_eq_getD_getElem?, hp]; rfl
  obtain ⟨before, after, htags, hbefore, hcursor⟩ := hfits.cursor c p v hp hv
  refine ⟨hfits.position_le hp, hcursor.once, fun item hitem ↦ ?_, fun hend ↦ ?_⟩
  · have hat : s.items[p]? = some item := by
      rw [Sequence.advance, hgetD] at hitem
      split at hitem
      · cases hitem
      · next found hfound => exact hfound.trans hitem
    obtain ⟨t, ht, hvalue, hdue, hseen, -⟩ := hfits.visit hp hv (Array.getElem?_eq_some_iff.mp hat).1
    refine ⟨t, ht, Option.some.inj (hat.symm.trans hvalue), hdue, hseen, ?_⟩
    simp only [Marks.apply, Marks.visit, hgetD, ht, List.getElem?_modify, hv]
    rfl
  · have hout : s.items[p]? = none := by
      rw [Sequence.advance, hgetD] at hend
      split at hend
      · assumption
      · cases hend
    have hp' : p = s.size := Nat.le_antisymm (hfits.position_le hp) (Array.getElem?_eq_none_iff.mp hout)
    obtain rfl : after = [] := by
      have hlength := hfits.length_tags
      rw [htags, List.length_append, hbefore, hp'] at hlength
      exact List.length_eq_zero_iff.mp (by omega)
    rw [List.append_nil] at htags
    exact ⟨hp', htags ▸ hcursor.behind⟩

/-- A cursor that has visited the first of two elements when another one comes in before it and the first one goes. -/
theorem cursors_keep_up_insert_remove : ∃ (s : Sequence) (g : Marks) (v : Visit), s.Marked g ∧
    g.visits[0]? = some v ∧ s.items = #[⟨7⟩, ⟨6⟩] ∧ (s.advance 0).1 = none ∧ v.seen = [0, 1] ∧ v.due = [0, 1] ∧ g.tags = [2, 1] ∧
    v.seen.filter (· ∈ g.tags) = g.tags.filter (· ∈ v.due) := by
  have hnew := Sequence.Marked.new Core.object #[⟨5⟩, ⟨6⟩]
  have hinserted := ((hnew.step .openCursor).step (.advance 0)).step (.insert 0 ⟨7⟩)
  have hremoved := (hinserted.step (.remove 1)).step (.advance 0)
  obtain ⟨-, -, -, hcursors, -⟩ := cursors_keep_up hremoved
  have hend := (hcursors 0 2 ⟨[0, 1], [0, 1]⟩ (by decide +kernel) (by decide +kernel)).2.2.2 (by decide +kernel)
  exact ⟨_, _, ⟨[0, 1], [0, 1]⟩, hremoved, by decide +kernel, by decide +kernel, by decide +kernel, rfl, rfl,
    by decide +kernel, hend.2⟩

end MindScript
