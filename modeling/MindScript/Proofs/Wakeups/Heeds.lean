import MindScript.Proofs.Scheduler.Listed

/-!
# Frames that sleep are not forgotten

A frame that awaits another one of its Mind stands in the list of that frame, and goes over to the ready
queue of the Mind when that frame ends.  What wakes a frame otherwise can be read off its own entry.  Across
every deed a sleeping frame keeps what it has been given, and its place in the list or in the queue, unless
it makes a step or ends.
-/

namespace MindScript

/-! ### Entries of frames that do not run -/

/-- Nothing that matters to a sleeping frame is taken from its entry. -/
structure FrameEntry.Keeps (e e' : FrameEntry) : Prop where
  handle : e'.handle = e.handle
  frame : e'.frame = e.frame
  wake : e'.wake = e.wake
  delivered : e.delivered.isSome = true → e'.delivered = e.delivered
  children : e.children.isEmpty = true → e'.children.isEmpty = true
  suspendedTick : e'.suspendedTick = e.suspendedTick
  nextUpdate : e'.nextUpdate = e.nextUpdate

/-- The frame has made a step. -/
def FrameEntry.Stepped (e e' : FrameEntry) : Prop :=
  e'.handle = e.handle ∧ ∃ frame frame', e.frame = some frame ∧ e'.frame = some frame' ∧
    frame.updateCount < frame'.updateCount

namespace FrameEntry

variable {e e' e'' : FrameEntry}

theorem Keeps.refl (e : FrameEntry) : e.Keeps e := ⟨rfl, rfl, rfl, fun _ ↦ rfl, id, rfl, rfl⟩

theorem Keeps.trans (h : e.Keeps e') (h' : e'.Keeps e'') : e.Keeps e'' :=
  ⟨h'.handle.trans h.handle, h'.frame.trans h.frame, h'.wake.trans h.wake,
    fun hsome ↦ (h'.delivered (by rwa [h.delivered hsome])).trans (h.delivered hsome),
    fun hempty ↦ h'.children (h.children hempty), h'.suspendedTick.trans h.suspendedTick,
    h'.nextUpdate.trans h.nextUpdate⟩

theorem Keeps.stepped (h : e.Keeps e') (h' : e'.Stepped e'') : e.Stepped e'' := by
  obtain ⟨hhandle, frame, frame', hframe, hframe', hlt⟩ := h'
  exact ⟨hhandle.trans h.handle, frame, frame', h.frame ▸ hframe, hframe', hlt⟩

theorem Stepped.keeps (h : e.Stepped e') (h' : e'.Keeps e'') : e.Stepped e'' := by
  obtain ⟨hhandle, frame, frame', hframe, hframe', hlt⟩ := h
  exact ⟨h'.handle.trans hhandle, frame, frame', hframe, h'.frame.trans hframe', hlt⟩

theorem Stepped.trans (h : e.Stepped e') (h' : e'.Stepped e'') : e.Stepped e'' := by
  obtain ⟨hhandle, frame, frame₁, hframe, hframe₁, hlt⟩ := h
  obtain ⟨hhandle', frame₂, frame₃, hframe₂, hframe₃, hlt'⟩ := h'
  obtain rfl := Option.some.inj (hframe₁.symm.trans hframe₂)
  exact ⟨hhandle'.trans hhandle, frame, frame₃, hframe, hframe₃, hlt.trans hlt'⟩

end FrameEntry

/-! ### Changes to one Mind -/

/-- Nobody leaves the ready queue or a list of waiters, and one frame keeps all it has while it does not
run. -/
structure Mind.Spares (f : FrameId) (a b : Mind) : Prop where
  ready : ∀ k ∈ a.ready, k ∈ b.ready
  entry : ∀ k e, a.entryAt k = some e → ∃ e', b.entryAt k = some e' ∧ e'.handle = e.handle ∧
    (∀ j ∈ e.waiters, j ∈ e'.waiters) ∧ (k = f → e.frame.isSome = true → e.Keeps e')

namespace Mind

variable {f : FrameId} {a b c : Mind}

namespace Spares

theorem of_slots (hslots : b.slots = a.slots) (hready : ∀ k ∈ a.ready, k ∈ b.ready) : Spares f a b := by
  refine ⟨hready, fun k e he ↦ ⟨e, ?_, rfl, fun _ hj ↦ hj, fun _ _ ↦ .refl e⟩⟩
  rw [entryAt_congr hslots, he]

theorem refl (f : FrameId) (a : Mind) : Spares f a a := .of_slots rfl fun _ hk ↦ hk

theorem trans (h : Spares f a b) (h' : Spares f b c) : Spares f a c := by
  refine ⟨fun k hk ↦ h'.ready k (h.ready k hk), fun k e he ↦ ?_⟩
  obtain ⟨e₁, he₁, hhandle, hwaiters, hkeeps⟩ := h.entry k e he
  obtain ⟨e₂, he₂, hhandle', hwaiters', hkeeps'⟩ := h'.entry k e₁ he₁
  refine ⟨e₂, he₂, hhandle'.trans hhandle, fun j hj ↦ hwaiters' j (hwaiters j hj), fun hk hframe ↦ ?_⟩
  have hfirst := hkeeps hk hframe
  exact hfirst.trans (hkeeps' hk (by rwa [hfirst.frame]))

end Spares

theorem spares_modifyEntry (a : Mind) {id : FrameId} {g : FrameEntry → FrameEntry}
    (hhandle : ∀ e, (g e).handle = e.handle) (hwaiters : ∀ e, ∀ j ∈ e.waiters, j ∈ (g e).waiters)
    (hkeeps : id = f → ∀ e : FrameEntry, e.frame.isSome = true → e.Keeps (g e)) : Spares f a (a.modifyEntry id g) := by
  refine ⟨fun _ hk ↦ hk, fun k e he ↦ ?_⟩
  rw [entryAt_modifyEntry]
  split
  · next heq =>
    subst heq
    exact ⟨g e, by rw [he, Option.map_some], hhandle e, hwaiters e, fun hk ↦ hkeeps hk e⟩
  · exact ⟨e, he, rfl, fun _ hj ↦ hj, fun _ _ ↦ .refl e⟩

@[simp] theorem ready_record (a : Mind) (id : FrameId) (name : String) (s : FrameStatus) :
    (a.record id name s).ready = a.ready := by
  unfold record
  split <;> rfl

theorem spares_record (f : FrameId) (a : Mind) (id : FrameId) (name : String) (s : FrameStatus) :
    Spares f a (a.record id name s) :=
  .of_slots (slots_record a id name s) fun k hk ↦ by rwa [ready_record]

theorem spares_insert (f : FrameId) (htidy : a.Tidy) (entry : FrameEntry) : Spares f a (a.insert entry).2 := by
  have hready : (a.insert entry).2.ready = a.ready := by
    unfold Mind.insert
    cases a.free <;> rfl
  refine ⟨fun k hk ↦ by rwa [hready], fun k e he ↦ ⟨e, ?_, rfl, fun _ hj ↦ hj, fun _ _ ↦ .refl e⟩⟩
  rw [entryAt_insert htidy, if_neg, he]
  rintro rfl
  rw [entryAt_nextFrameId htidy] at he
  cases he

theorem spares_enroll (htidy : a.Tidy) {entry : FrameEntry} (hparent : entry.parent ≠ some f) :
    Spares f a (a.enroll entry) := by
  have hadopted : Spares f a ((a.insert entry).2.adopt entry.parent entry.handle.frame) := by
    unfold Mind.adopt
    cases hp : entry.parent with
    | none => exact spares_insert f htidy entry
    | some p =>
      refine (spares_insert f htidy entry).trans (spares_modifyEntry _ (fun _ ↦ rfl) (fun _ _ hj ↦ hj) ?_)
      rintro rfl
      exact absurd hp hparent
  exact hadopted.trans (spares_record ..)

end Mind

namespace World

theorem spares_enlist (f : FrameId) (a : Mind) (m : MindId) (id : FrameId) (wake : Wake) :
    a.Spares f (enlist a m id wake) := by
  unfold enlist
  split
  · split
    · exact a.spares_modifyEntry (fun _ ↦ rfl) (fun e j hj ↦ Array.mem_push.mpr (.inl hj))
        fun _ e _ ↦ ⟨rfl, rfl, rfl, fun _ ↦ rfl, fun h ↦ h, rfl, rfl⟩
    · exact .refl f a
  · exact .refl f a

/-! ### Frames that wait -/

/-- A frame that awaits another one is in the list of that frame, or in the ready queue once that frame has
finished. -/
structure Alert (w : World) (m : MindId) (f : FrameId) (x : Handle) : Prop where
  before : w.isFinished x = false → ∃ e, w.entryAt m x.frame = some e ∧ e.handle = x ∧ f ∈ e.waiters
  after : w.isFinished x = true → f ∈ w.ready m

/-- The frame that was stored in the first world has finished by the second one, or has made a step. -/
def Moved (m : MindId) (f : FrameId) (v w : World) : Prop :=
  ∃ e, v.entryAt m f = some e ∧
    (w.isFinished e.handle = true ∨ ∃ e', w.entryAt m f = some e' ∧ e.Stepped e')

/-- Outcomes that are final stay as they are, and a frame that can run has moved or has kept what it waits
for, what it has been given and its place in the list of the frame that it awaits. -/
structure Heeds (m : MindId) (f : FrameId) (v w : World) : Prop where
  final : ∀ o c, v.cell? o = some c → c.status.isFinished = true → w.cell? o = some c
  rests : ∀ e, v.entryAt m f = some e → e.frame.isSome = true → v.isFinished e.handle = false →
    Moved m f v w ∨ ∃ e', w.entryAt m f = some e' ∧ e.Keeps e' ∧ w.status e.handle = v.status e.handle ∧
      ∀ x, e.wake = some (.frame x) → v.Alert m f x → w.Alert m f x

/-- Moreover the frame has made no step. -/
structure Dozes (m : MindId) (f : FrameId) (v w : World) : Prop where
  final : ∀ o c, v.cell? o = some c → c.status.isFinished = true → w.cell? o = some c
  rests : ∀ e, v.entryAt m f = some e → e.frame.isSome = true → v.isFinished e.handle = false →
    w.isFinished e.handle = true ∨ ∃ e', w.entryAt m f = some e' ∧ e.Keeps e' ∧
      w.status e.handle = v.status e.handle ∧ ∀ x, e.wake = some (.frame x) → v.Alert m f x → w.Alert m f x

section

variable {m : MindId} {f : FrameId} {u v w : World}

namespace Heeds

theorem isFinished (h : Heeds m f v w) {x : Handle} (hx : v.isFinished x = true) : w.isFinished x = true := by
  obtain ⟨c, hc, hfin⟩ := cell_of_isFinished hx
  rw [World.isFinished, status_of_cell? (h.final _ c hc hfin), hfin]

theorem moved_left (hvu : Moved m f v u) (h : Heeds m f u w) : Moved m f v w := by
  obtain ⟨e, he, hfin | ⟨e₁, he₁, hstepped⟩⟩ := hvu
  · exact ⟨e, he, .inl (h.isFinished hfin)⟩
  · obtain ⟨hhandle, frame, frame₁, hframe, hframe₁, hlt⟩ := hstepped
    have hstepped : e.Stepped e₁ := ⟨hhandle, frame, frame₁, hframe, hframe₁, hlt⟩
    cases hu : u.isFinished e₁.handle with
    | true => exact ⟨e, he, .inl (hhandle ▸ h.isFinished hu)⟩
    | false =>
      rcases h.rests e₁ he₁ (by rw [hframe₁, Option.isSome_some]) hu with
        ⟨e₁', he₁', hmoved⟩ | ⟨e₂, he₂, hkeeps, -⟩
      · obtain rfl := Option.some.inj (he₁.symm.trans he₁')
        rcases hmoved with hfin | ⟨e₂, he₂, hstepped'⟩
        · exact ⟨e, he, .inl (hhandle ▸ hfin)⟩
        · exact ⟨e, he, .inr ⟨e₂, he₂, hstepped.trans hstepped'⟩⟩
      · exact ⟨e, he, .inr ⟨e₂, he₂, hstepped.keeps hkeeps⟩⟩

theorem refl (m : MindId) (f : FrameId) (w : World) : Heeds m f w w :=
  ⟨fun _ _ hc _ ↦ hc, fun e he _ _ ↦ .inr ⟨e, he, .refl e, rfl, fun _ _ halert ↦ halert⟩⟩

/-- What is moved after it has been kept is moved. -/
theorem moved_kept {e e' : FrameEntry} (h : e.Keeps e') (he : v.entryAt m f = some e)
    (he' : u.entryAt m f = some e') (hmoved : Moved m f u w) : Moved m f v w := by
  obtain ⟨e'', he'', hmoves⟩ := hmoved
  obtain rfl := Option.some.inj (he'.symm.trans he'')
  refine ⟨e, he, hmoves.imp (fun hfin ↦ h.handle ▸ hfin) ?_⟩
  rintro ⟨e₂, he₂, hstepped⟩
  exact ⟨e₂, he₂, h.stepped hstepped⟩

theorem trans (h : Heeds m f v u) (h' : Heeds m f u w) : Heeds m f v w := by
  refine ⟨fun o c hc hfin ↦ h'.final o c (h.final o c hc hfin) hfin, fun e he hframe hu ↦ ?_⟩
  rcases h.rests e he hframe hu with hmoved | ⟨e₁, he₁, hkeeps, hstatus, halert⟩
  · exact .inl (moved_left hmoved h')
  · have hu₁ : u.isFinished e₁.handle = false := by
      rw [hkeeps.handle, World.isFinished, hstatus]
      exact hu
    rcases h'.rests e₁ he₁ (by rwa [hkeeps.frame]) hu₁ with hmoved | ⟨e₂, he₂, hkeeps', hstatus', halert'⟩
    · exact .inl (moved_kept hkeeps he he₁ hmoved)
    · rw [hkeeps.handle] at hstatus'
      refine .inr ⟨e₂, he₂, hkeeps.trans hkeeps', hstatus'.trans hstatus, fun x hx hv ↦ ?_⟩
      exact halert' x (hkeeps.wake.trans hx) (halert x hx hv)

/-- A frame that sleeps and moves later on has moved. -/
theorem moved_right (h : Heeds m f v u) {e : FrameEntry} (he : v.entryAt m f = some e) (hframe : e.frame.isSome = true)
    (hu : v.isFinished e.handle = false) (hmoved : Moved m f u w) (h' : Heeds m f u w) : Moved m f v w := by
  rcases h.rests e he hframe hu with hfirst | ⟨e₁, he₁, hkeeps, -⟩
  · exact moved_left hfirst h'
  · exact moved_kept hkeeps he he₁ hmoved

/-- A frame that has moved has nothing to lose any more. -/
theorem of_moved (hfinal : ∀ o c, v.cell? o = some c → c.status.isFinished = true → w.cell? o = some c)
    (hmoved : Moved m f v w) : Heeds m f v w :=
  ⟨hfinal, fun _ _ _ _ ↦ .inl hmoved⟩

end Heeds

namespace Dozes

theorem heeds (h : Dozes m f v w) : Heeds m f v w :=
  ⟨h.final, fun e he hframe hu ↦ (h.rests e he hframe hu).imp_left fun hfin ↦ ⟨e, he, .inl hfin⟩⟩

theorem isFinished (h : Dozes m f v w) {x : Handle} (hx : v.isFinished x = true) : w.isFinished x = true :=
  h.heeds.isFinished hx

theorem refl (m : MindId) (f : FrameId) (w : World) : Dozes m f w w :=
  ⟨fun _ _ hc _ ↦ hc, fun e he _ _ ↦ .inr ⟨e, he, .refl e, rfl, fun _ _ halert ↦ halert⟩⟩

theorem trans (h : Dozes m f v u) (h' : Dozes m f u w) : Dozes m f v w := by
  refine ⟨fun o c hc hfin ↦ h'.final o c (h.final o c hc hfin) hfin, fun e he hframe hu ↦ ?_⟩
  rcases h.rests e he hframe hu with hfin | ⟨e₁, he₁, hkeeps, hstatus, halert⟩
  · exact .inl (h'.isFinished hfin)
  · have hu₁ : u.isFinished e₁.handle = false := by
      rw [hkeeps.handle, World.isFinished, hstatus]
      exact hu
    rcases h'.rests e₁ he₁ (by rwa [hkeeps.frame]) hu₁ with hfin | ⟨e₂, he₂, hkeeps', hstatus', halert'⟩
    · exact .inl (hkeeps.handle ▸ hfin)
    · rw [hkeeps.handle] at hstatus'
      refine .inr ⟨e₂, he₂, hkeeps.trans hkeeps', hstatus'.trans hstatus, fun x hx hv ↦ ?_⟩
      exact halert' x (hkeeps.wake.trans hx) (halert x hx hv)

/-- A frame that is running has nothing to lose. -/
theorem of_running (hfinal : ∀ o c, v.cell? o = some c → c.status.isFinished = true → w.cell? o = some c)
    (hnone : ∀ e, v.entryAt m f = some e → e.frame = none) : Dozes m f v w := by
  refine ⟨hfinal, fun e he hframe _ ↦ ?_⟩
  rw [hnone e he] at hframe
  exact absurd hframe Bool.false_ne_true

/-- What is left to show when nobody settles. -/
theorem of_entries (hfinal : ∀ o c, v.cell? o = some c → c.status.isFinished = true → w.cell? o = some c)
    (hfinished : ∀ x, w.isFinished x = v.isFinished x) (hready : ∀ k ∈ v.ready m, k ∈ w.ready m)
    (hentry : ∀ k e, v.entryAt m k = some e → v.isFinished e.handle = false → ∃ e', w.entryAt m k = some e' ∧
      e'.handle = e.handle ∧ (∀ j ∈ e.waiters, j ∈ e'.waiters) ∧
      (k = f → e.frame.isSome = true → e.Keeps e' ∧ w.status e.handle = v.status e.handle)) :
    Dozes m f v w := by
  refine ⟨hfinal, fun e he hframe hu ↦ ?_⟩
  obtain ⟨e', he', -, -, hkeeps⟩ := hentry f e he hu
  obtain ⟨hkeeps, hstatus⟩ := hkeeps rfl hframe
  refine .inr ⟨e', he', hkeeps, hstatus, fun x _ halert ↦ ⟨fun hx ↦ ?_, fun hx ↦ ?_⟩⟩
  · rw [hfinished] at hx
    obtain ⟨ex, hex, rfl, hmem⟩ := halert.before hx
    obtain ⟨ex', hex', hhandle, hwaiters, -⟩ := hentry _ ex hex hx
    exact ⟨ex', hex', hhandle, hwaiters f hmem⟩
  · rw [hfinished] at hx
    exact hready f (halert.after hx)

theorem of_still (h : Still v w) (hready : ∀ k ∈ v.ready m, k ∈ w.ready m) : Dozes m f v w := by
  refine .of_entries (fun o c hc _ ↦ by rw [h.cell?, hc]) (fun x ↦ by rw [h.isFinished]) hready
    fun k e he _ ↦ ⟨e, by rw [h.entryAt, he], rfl, fun _ hj ↦ hj, fun _ _ ↦ ⟨.refl e, by rw [h.status]⟩⟩

theorem release (w : World) (ls : List Link) : Dozes m f w (w.release ls) :=
  .of_still (still_release w ls) fun _ hk ↦ hk

end Dozes

theorem mem_ready_modifyMind {w : World} {m m' : MindId} {F : Mind → Mind} {k : FrameId}
    (hF : m' = m → ∀ mind, w.mind? m = some mind → k ∈ mind.ready → k ∈ (F mind).ready) (hk : k ∈ w.ready m) :
    k ∈ (w.modifyMind m' F).ready m := by
  rw [ready, mind?_modifyMind]
  split
  · next heq =>
    subst heq
    rw [ready] at hk
    cases hmind : w.mind? m with
    | none => simp [hmind] at hk
    | some mind =>
      rw [hmind] at hk
      exact hF rfl mind hmind hk
  · exact hk

theorem dozes_modifyMind (w : World) {m m' : MindId} {f : FrameId} {F : Mind → Mind}
    (hF : m' = m → ∀ mind, w.mind? m = some mind → mind.Spares f (F mind)) :
    Dozes m f w (w.modifyMind m' F) := by
  refine .of_entries (fun _ _ hc _ ↦ hc) (fun _ ↦ rfl)
    (fun k hk ↦ mem_ready_modifyMind (fun hm mind hmind ↦ (hF hm mind hmind).ready k) hk) fun k e he _ ↦ ?_
  rw [entryAt_modifyMind]
  split
  · next heq =>
    subst heq
    obtain ⟨mind, hmind, he⟩ := Option.bind_eq_some_iff.mp he
    obtain ⟨e', he', hhandle, hwaiters, hkeeps⟩ := (hF rfl mind hmind).entry k e he
    exact ⟨e', by rw [hmind, Option.bind_some, he'], hhandle, hwaiters, fun hk hframe ↦ ⟨hkeeps hk hframe, rfl⟩⟩
  · exact ⟨e, he, rfl, fun _ hj ↦ hj, fun _ _ ↦ ⟨.refl e, rfl⟩⟩

theorem dozes_modifyEntry (w : World) {m m' : MindId} {f id : FrameId} {g : FrameEntry → FrameEntry}
    (hhandle : ∀ e, (g e).handle = e.handle) (hwaiters : ∀ e, ∀ j ∈ e.waiters, j ∈ (g e).waiters)
    (hkeeps : m' = m → id = f → ∀ e : FrameEntry, e.frame.isSome = true → e.Keeps (g e)) :
    Dozes m f w (w.modifyEntry m' id g) :=
  w.dozes_modifyMind fun hm mind _ ↦ mind.spares_modifyEntry hhandle hwaiters (hkeeps hm)

/-- The status of another unfinished frame changes, and that frame does not finish. -/
theorem dozes_setStatus (hw : w.Filed) {m' : MindId} {id : FrameId} {e : FrameEntry}
    (he : w.entryAt m' id = some e) (hne : ¬(m = m' ∧ f = id)) (hu : w.isFinished e.handle = false)
    {s : FrameStatus} (hs : s.isFinished = false) : Dozes m f w (w.setStatus e.handle s) := by
  have hcell := cell?_modifyOutcome w e.handle.outcome (g := fun o ↦ { o with status := s }) fun _ ↦ rfl
  have hfinished : ∀ x, (w.setStatus e.handle s).isFinished x = w.isFinished x := by
    intro x
    rw [World.isFinished, World.isFinished, status_eq, status_eq, setStatus, hcell]
    split
    · next heq =>
      rw [← heq]
      cases hc : w.cell? e.handle.outcome with
      | none => rfl
      | some c =>
        rw [World.isFinished, status_of_cell? hc] at hu
        simp [hs, hu]
    · rfl
  refine .of_entries (fun o c hc hfin ↦ ?_) hfinished (fun _ hk ↦ hk) fun k e' he' _ ↦
    ⟨e', he', rfl, fun _ hj ↦ hj, fun hk _ ↦ ⟨.refl e', ?_⟩⟩
  · rw [setStatus, hcell, if_neg, hc]
    rintro rfl
    rw [World.isFinished, status_of_cell? hc, hfin] at hu
    exact absurd hu.symm Bool.false_ne_true
  · have hother : e.handle.outcome ≠ e'.handle.outcome := by
      intro heq
      obtain ⟨rfl, rfl⟩ := hw.apart m' id e m k e' he he' heq
      exact hne ⟨rfl, hk.symm⟩
    rw [status_eq, status_eq, setStatus, hcell, if_neg hother]

/-! ### Settling -/

theorem mem_ready_leaveParent {a : Mind} (parent id : FrameId) {k : FrameId} (hk : k ∈ a.ready) :
    k ∈ (leaveParent a parent id).ready := by
  unfold leaveParent
  split
  · exact hk
  · dsimp only
    split
    · rw [Mind.ready_wake]
      exact List.mem_append_left _ hk
    · exact hk

/-- Those who wait for the frame come into the ready queue. -/
theorem mem_ready_settleEntry {a : Mind} (id : FrameId) {entry : FrameEntry} (s : FrameStatus)
    (failure : Option FrameFailure) {k : FrameId} (hk : k ∈ a.ready ∨ k ∈ entry.waiters) :
    k ∈ (settleEntry a id entry s failure).ready := by
  have hrecord : ∀ k ∈ a.ready, k ∈ ((a.modifyEntry id FrameEntry.settled).record id entry.handle.name s).ready :=
    fun k hk ↦ by rwa [Mind.ready_record]
  have hleft : ∀ k ∈ a.ready, k ∈ (parted a id entry s).ready := by
    intro k hk
    unfold parted
    cases entry.parent with
    | none => exact hrecord k hk
    | some parent => exact mem_ready_leaveParent parent id (hrecord k hk)
  rw [settleEntry_eq]
  cases failure <;>
    · change k ∈ (Mind.wake _ _).ready
      rw [Mind.ready_wake, List.mem_append, Array.mem_toList_iff]
      exact hk.imp_left (hleft k)

/-- The entry of a frame after another one has settled. -/
theorem keeps_without (e : FrameEntry) (id : FrameId) : e.Keeps (e.without id) := by
  refine ⟨rfl, rfl, rfl, fun _ ↦ rfl, fun h ↦ ?_, rfl, rfl⟩
  rw [Array.isEmpty_iff] at h
  simp [FrameEntry.without, h]

end

/-- What settling a frame does to all the others: it wakes those who wait for it, and takes nothing from
anyone. -/
structure Settles (m : MindId) (id : FrameId) (entry : FrameEntry) (w w' : World) : Prop where
  self : w'.isFinished entry.handle = true
  final : ∀ o c, w.cell? o = some c → c.status.isFinished = true → w'.cell? o = some c
  status : ∀ m' k e, w.entryAt m' k = some e → ¬(m' = m ∧ k = id) → w'.status e.handle = w.status e.handle
  stored : ∀ m' k e, w.entryAt m' k = some e → ¬(m' = m ∧ k = id) →
    ∃ e', w'.entryAt m' k = some e' ∧ e.Keeps e' ∧ e'.waiters = e.waiters
  ready : ∀ m' k, k ∈ w.ready m' ∨ m' = m ∧ k ∈ entry.waiters → k ∈ w'.ready m'

theorem settles_settleEntry {w : World} (hw : w.Filed) {m : MindId} {id : FrameId} {entry : FrameEntry}
    (he : w.entryAt m id = some entry) (hu : w.isFinished entry.handle = false) {g : Outcome → Outcome}
    (hg : ∀ c, (g c).bare = g c.bare) (hfin : ∀ c, (g c).status.isFinished = true) (s : FrameStatus)
    (failure : Option FrameFailure) :
    Settles m id entry w (({ w with heap := w.heap.modifyOutcome entry.handle.outcome g } : World).modifyMind m
      fun mind ↦ settleEntry mind id entry s failure) := by
  obtain ⟨mind, hmind, -⟩ := Option.bind_eq_some_iff.mp he
  set v : World := { w with heap := w.heap.modifyOutcome entry.handle.outcome g } with hv
  have hcell : ∀ o, v.cell? o = if entry.handle.outcome = o then (w.cell? o).map g else w.cell? o :=
    cell?_modifyOutcome w entry.handle.outcome hg
  have hminds : v.mind? = w.mind? := rfl
  refine ⟨?_, fun o c hc hfin ↦ ?_, fun m' k e hk hne ↦ ?_, fun m' k e hk hne ↦ ?_, fun m' k hk ↦ ?_⟩
  · obtain ⟨c, hc⟩ := Option.isSome_iff_exists.mp (hw.stored m id entry he)
    have hc' : v.cell? entry.handle.outcome = some (g c) := by rw [hcell, if_pos rfl, hc, Option.map_some]
    exact (congrArg FrameStatus.isFinished (status_of_cell? hc')).trans (hfin c)
  · rw [cell?_modifyMind, hcell, if_neg, hc]
    rintro rfl
    rw [isFinished, status_of_cell? hc, hfin] at hu
    exact absurd hu.symm Bool.false_ne_true
  · -- The outcome of any other frame is another one.
    rw [status_modifyMind, status_eq, status_eq, hcell, if_neg]
    intro heq
    obtain ⟨rfl, rfl⟩ := hw.apart m id entry m' k e he hk heq
    exact hne ⟨rfl, rfl⟩
  · rw [entryAt_modifyMind]
    split
    · next heq =>
      subst heq
      have hk : mind.entryAt k = some e := by rwa [entryAt, hmind] at hk
      rw [hminds, hmind, Option.bind_some, entryAt_settleEntry, hk, Option.map_some]
      have hne' : k ≠ id := fun heq ↦ hne ⟨rfl, heq⟩
      refine ⟨_, rfl, ?_⟩
      simp only [hne', if_false]
      split
      · exact ⟨keeps_without e id, rfl⟩
      · exact ⟨.refl e, rfl⟩
    · exact ⟨e, hk, .refl e, rfl⟩
  · rw [World.ready, mind?_modifyMind, hminds]
    split
    · next heq =>
      subst heq
      rw [hmind]
      refine mem_ready_settleEntry id s failure (hk.imp (fun hk ↦ ?_) And.right)
      rwa [World.ready, hmind] at hk
    · next hne => exact hk.resolve_right fun h ↦ hne h.1

section

variable {m : MindId} {f : FrameId} {v w : World}

theorem Settles.dozes {m' : MindId} {id : FrameId} {entry : FrameEntry} (h : Settles m' id entry v w)
    (he : v.entryAt m' id = some entry) : Dozes m f v w := by
  have hfinished : ∀ x, v.isFinished x = true → w.isFinished x = true := by
    intro x hx
    obtain ⟨c, hc, hfin⟩ := cell_of_isFinished hx
    rw [World.isFinished, status_of_cell? (h.final _ c hc hfin), hfin]
  refine ⟨h.final, fun e hf _ _ ↦ ?_⟩
  by_cases hmine : m = m' ∧ f = id
  · obtain ⟨rfl, rfl⟩ := hmine
    exact .inl (Option.some.inj (he.symm.trans hf) ▸ h.self)
  · obtain ⟨e', he', hkeeps, -⟩ := h.stored m f e hf hmine
    refine .inr ⟨e', he', hkeeps, h.status m f e hf hmine, fun x _ halert ↦ ?_⟩
    cases hx : v.isFinished x with
    | true =>
      exact ⟨fun hu ↦ absurd ((hfinished x hx).symm.trans hu) (by decide),
        fun _ ↦ h.ready m f (.inl (halert.after hx))⟩
    | false =>
      obtain ⟨ex, hex, rfl, hmem⟩ := halert.before hx
      by_cases hsettles : m = m' ∧ ex.handle.frame = id
      · -- The frame that is awaited is the one that settles.
        obtain ⟨rfl, hid⟩ := hsettles
        rw [hid] at hex
        obtain rfl := Option.some.inj (he.symm.trans hex)
        exact ⟨fun hu ↦ absurd (h.self.symm.trans hu) (by decide), fun _ ↦ h.ready m f (.inr ⟨rfl, hmem⟩)⟩
      · obtain ⟨ex', hex', hkeeps', hwaiters⟩ := h.stored m _ ex hex hsettles
        refine ⟨fun _ ↦ ⟨ex', hex', hkeeps'.handle, by rwa [hwaiters]⟩, fun hfin ↦ ?_⟩
        rw [World.isFinished, h.status m _ ex hex hsettles] at hfin
        exact absurd (hx.symm.trans hfin) (by decide)

/-- A frame that settles wakes those who wait for it. -/
theorem dozes_settle (hw : w.Filed) (m' : MindId) (id : FrameId) (ending : Ending) :
    Dozes m f w (w.settle m' id ending) := by
  unfold settle
  cases he : w.entryAt m' id with
  | none => exact .release w _
  | some entry =>
    dsimp only
    cases hu : w.isFinished entry.handle with
    | true => exact .release w _
    | false =>
      have hsettles := settles_settleEntry hw he hu (g := fun o ↦ { o with
        status := ending.status
        result := ending.result?
        error := ending.error?.map (w.withFrameOrigin entry) }) (fun _ ↦ rfl) (fun _ ↦ by cases ending <;> rfl)
        ending.status ((ending.error?.map (w.withFrameOrigin entry)).map (FrameFailure.mk id (w.frameName m' id)))
      exact (hsettles.dozes he).trans (.release _ _)

end

end World

end MindScript
