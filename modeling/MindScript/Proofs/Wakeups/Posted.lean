import MindScript.Proofs.Scheduler.Listed

/-!
# Frames stand in the lists of the frames that they await

A frame that goes to sleep until another one of its Mind has finished is entered in the list of that one, and nobody
is taken out of the list of a frame that has not finished.  So whoever sleeps on a stored, unfinished frame of its
Mind stands in its list.
-/

namespace MindScript

/-! ### Changes to one Mind -/

/-- Whoever sleeps on a stored frame of its Mind that has not finished stands in the list of that frame. -/
def Mind.Posted (m : MindId) (unfinished : Handle → Prop) (a : Mind) : Prop :=
  ∀ f e x et, a.entryAt f = some e → e.wake = some (.frame x) → x.mind = m → a.entryAt x.frame = some et →
    et.handle = x → unfinished x → f ∈ et.waiters

/-- No frame falls asleep, and those of the frames that are still of interest keep everybody in their lists. -/
def Mind.Tethers (unfinished : Handle → Prop) (a b : Mind) : Prop :=
  ∀ k e', b.entryAt k = some e' → ∃ e, a.entryAt k = some e ∧ e'.handle = e.handle ∧
    (∀ wake, e'.wake = some wake → e.wake = some wake) ∧
    (unfinished e.handle → ∀ j ∈ e.waiters, j ∈ e'.waiters)

namespace Mind.Tethers

variable {unfinished : Handle → Prop} {a b c : Mind}

theorem of_slots (h : b.slots = a.slots) : Tethers unfinished a b := by
  intro k e' he'
  rw [entryAt_congr h] at he'
  exact ⟨e', he', rfl, fun _ hwake ↦ hwake, fun _ _ hj ↦ hj⟩

theorem refl (a : Mind) : Tethers unfinished a a := of_slots rfl

theorem trans (h : Tethers unfinished a b) (h' : Tethers unfinished b c) : Tethers unfinished a c := by
  intro k e'' he''
  obtain ⟨e', he', hhandle', hwake', hwaiters'⟩ := h' k e'' he''
  obtain ⟨e, he, hhandle, hwake, hwaiters⟩ := h k e' he'
  refine ⟨e, he, hhandle'.trans hhandle, fun wake hw ↦ hwake wake (hwake' wake hw), fun hu j hj ↦ ?_⟩
  exact hwaiters' (hhandle ▸ hu) j (hwaiters hu j hj)

theorem modifyEntry (a : Mind) (id : FrameId) {f : FrameEntry → FrameEntry} (hhandle : ∀ e, (f e).handle = e.handle)
    (hwake : ∀ e wake, (f e).wake = some wake → e.wake = some wake)
    (hwaiters : ∀ e, a.entryAt id = some e → unfinished e.handle → ∀ j ∈ e.waiters, j ∈ (f e).waiters) :
    Tethers unfinished a (a.modifyEntry id f) := by
  intro k e' he'
  rw [entryAt_modifyEntry] at he'
  split at he'
  · next heq =>
    subst heq
    obtain ⟨e, he, rfl⟩ := Option.map_eq_some_iff.mp he'
    exact ⟨e, he, hhandle e, hwake e, hwaiters e he⟩
  · exact ⟨e', he', rfl, fun _ hw ↦ hw, fun _ _ hj ↦ hj⟩

theorem foldl_modifyEntry (ids : List FrameId) {f : FrameEntry → FrameEntry} (hhandle : ∀ e, (f e).handle = e.handle)
    (hwake : ∀ e, (f e).wake = e.wake) (hwaiters : ∀ e, (f e).waiters = e.waiters) (a : Mind) :
    Tethers unfinished a (ids.foldl (fun mind c ↦ mind.modifyEntry c f) a) := by
  induction ids generalizing a with
  | nil => exact .refl a
  | cons id rest ih =>
    refine (modifyEntry a id hhandle (fun e _ h ↦ (hwake e) ▸ h) fun e _ _ j hj ↦ ?_).trans (ih _)
    rwa [hwaiters]

/-- The list of the frame that settles is given up, and no other one. -/
theorem settleEntry (a : Mind) {id : FrameId} {entry : FrameEntry} (he : a.entryAt id = some entry)
    (hdone : ¬ unfinished entry.handle) (s : FrameStatus) (failure : Option FrameFailure) :
    Tethers unfinished a (World.settleEntry a id entry s failure) := by
  intro k e' he'
  rw [World.entryAt_settleEntry] at he'
  obtain ⟨e, hk, rfl⟩ := Option.map_eq_some_iff.mp he'
  refine ⟨e, hk, ?_, fun wake hwake ↦ ?_, fun hu j hj ↦ ?_⟩
  · split <;> split <;> rfl
  · split at hwake <;> split at hwake <;> first | exact hwake | cases hwake
  · have hne : k ≠ id := by
      rintro rfl
      obtain rfl := Option.some.inj (hk.symm.trans he)
      exact hdone hu
    simp only [if_neg hne]
    split <;> exact hj

theorem enlist (a : Mind) (m : MindId) (id : FrameId) (wake : Wake) :
    Tethers unfinished a (World.enlist a m id wake) := by
  unfold World.enlist
  split
  · split
    · exact modifyEntry a _ (fun _ ↦ rfl) (fun _ _ h ↦ h) fun _ _ _ _ hj ↦ Array.mem_push.mpr (.inl hj)
    · exact .refl a
  · exact .refl a

end Mind.Tethers

namespace Mind.Posted

variable {m : MindId} {unfinished unfinished' : Handle → Prop} {a b : Mind}

theorem tethers (h : a.Posted m unfinished) (hle : ∀ x, unfinished' x → unfinished x)
    (ht : a.Tethers unfinished' b) : b.Posted m unfinished' := by
  intro f e' x et' he' hwake hm het' hhandle hu
  obtain ⟨e, he, -, hwake', -⟩ := ht f e' he'
  obtain ⟨et, het, hsame, -, hwaiters⟩ := ht x.frame et' het'
  have hx : et.handle = x := hsame.symm.trans hhandle
  exact hwaiters (hx ▸ hu) f (h f e x et he (hwake' _ hwake) hm het hx (hle x hu))

/-- Who falls asleep is entered in the list of the frame that it awaits. -/
theorem sleep (h : a.Posted m unfinished) (id : FrameId) (wake : Wake) {g : FrameEntry → FrameEntry}
    (hhandle : ∀ e, (g e).handle = e.handle) (hwaiters : ∀ e, (g e).waiters = e.waiters)
    (hwake : ∀ e, (g e).wake = some wake) : ((World.enlist a m id wake).modifyEntry id g).Posted m unfinished := by
  have henlisted := h.tethers (fun _ hu ↦ hu) (.enlist a m id wake)
  intro f e' x et' he' hx hm het' het hu
  -- The entry of the awaited frame differs from the one after enlisting in nothing that matters here.
  obtain ⟨et, het₁, hsame, hlist⟩ : ∃ et, (World.enlist a m id wake).entryAt x.frame = some et ∧
      et'.handle = et.handle ∧ et'.waiters = et.waiters := by
    rw [entryAt_modifyEntry] at het'
    split at het'
    · next heq =>
      obtain ⟨et, het₁, rfl⟩ := Option.map_eq_some_iff.mp het'
      exact ⟨et, heq ▸ het₁, hhandle et, hwaiters et⟩
    · exact ⟨et', het', rfl, rfl⟩
  rw [hlist]
  rw [entryAt_modifyEntry] at he'
  split at he'
  · next heq =>
    subst heq
    obtain ⟨e, -, rfl⟩ := Option.map_eq_some_iff.mp he'
    rw [hwake e] at hx
    obtain rfl := Option.some.inj hx
    simp only [World.enlist, if_pos hm, entryAt_modifyEntry, if_true] at het₁
    obtain ⟨et₀, -, rfl⟩ := Option.map_eq_some_iff.mp het₁
    exact Array.mem_push_self
  · exact henlisted f e' x et he' hx hm het₁ (hsame.symm.trans het) hu

/-- Nobody awaits a frame before it is there. -/
theorem enroll (h : a.Posted m unfinished) (htidy : a.Tidy) {entry : FrameEntry} (hwake : entry.wake = none)
    (hold : ∀ f e x, a.entryAt f = some e → e.wake = some (.frame x) →
      x ≠ entry.handle ∧ (unfinished' x → unfinished x)) : (a.enroll entry).Posted m unfinished' := by
  have hinserted : (a.insert entry).2.Posted m unfinished' := by
    intro f e x et he hx hm het hhandle hu
    rw [entryAt_insert htidy] at he het
    split at he
    · obtain rfl := Option.some.inj he
      rw [hwake] at hx
      cases hx
    · obtain ⟨hne, hle⟩ := hold f e x he hx
      split at het
      · exact absurd ((congrArg FrameEntry.handle (Option.some.inj het)).trans hhandle) (Ne.symm hne)
      · exact h f e x et he hx hm het hhandle (hle hu)
  have hadopted : ((a.insert entry).2.adopt entry.parent entry.handle.frame).Posted m unfinished' := by
    unfold adopt
    cases entry.parent with
    | none => exact hinserted
    | some p => exact hinserted.tethers (fun _ hu ↦ hu) (.modifyEntry _ p (fun _ ↦ rfl) (fun _ _ h ↦ h) fun _ _ _ _ hj ↦ hj)
  exact hadopted.tethers (fun _ hu ↦ hu) (.of_slots (slots_record ..))

end Mind.Posted

namespace World

/-- The frame behind a handle has not finished, and its outcome is there to tell. -/
def Open (w : World) (x : Handle) : Prop := ∃ c, w.cell? x.outcome = some c ∧ c.status.isFinished = false

/-- Whoever sleeps on a stored, unfinished frame of its Mind stands in the list of that frame. -/
def Posted (w : World) : Prop := ∀ m mind, w.mind? m = some mind → mind.Posted m w.Open

/-- No frame falls asleep, and unfinished frames keep everybody in their lists. -/
structure Tethers (w w' : World) : Prop where
  unfinished : ∀ x, w'.Open x → w.Open x
  entry : ∀ m k e', w'.entryAt m k = some e' → ∃ e, w.entryAt m k = some e ∧ e'.handle = e.handle ∧
    (∀ wake, e'.wake = some wake → e.wake = some wake) ∧
    (w'.Open e.handle → ∀ j ∈ e.waiters, j ∈ e'.waiters)

variable {w w' w'' : World} {m : MindId} {id : FrameId}

theorem Posted.tethers (h : w.Posted) (ht : Tethers w w') : w'.Posted := by
  intro m mind' hmind' f e' x et' he' hwake hm het' hhandle hu
  have hentry : ∀ k, w'.entryAt m k = mind'.entryAt k := fun k ↦ by rw [entryAt, hmind', Option.bind_some]
  obtain ⟨e, he, -, hwake', -⟩ := ht.entry m f e' ((hentry f).trans he')
  obtain ⟨et, het, hsame, -, hwaiters⟩ := ht.entry m x.frame et' ((hentry x.frame).trans het')
  obtain ⟨mind, hmind, he⟩ := Option.bind_eq_some_iff.mp he
  rw [entryAt, hmind, Option.bind_some] at het
  have hx : et.handle = x := hsame.symm.trans hhandle
  exact hwaiters (hx ▸ hu) f (h m mind hmind f e x et he (hwake' _ hwake) hm het hx (ht.unfinished x hu))

namespace Tethers

theorem trans (h : Tethers w w') (h' : Tethers w' w'') : Tethers w w'' := by
  refine ⟨fun x hx ↦ h.unfinished x (h'.unfinished x hx), fun m k e'' he'' ↦ ?_⟩
  obtain ⟨e', he', hhandle', hwake', hwaiters'⟩ := h'.entry m k e'' he''
  obtain ⟨e, he, hhandle, hwake, hwaiters⟩ := h.entry m k e' he'
  refine ⟨e, he, hhandle'.trans hhandle, fun wake hw ↦ hwake wake (hwake' wake hw), fun hu j hj ↦ ?_⟩
  exact hwaiters' (hhandle ▸ hu) j (hwaiters (h'.unfinished _ hu) j hj)

theorem of_still (h : Still w w') : Tethers w w' := by
  refine ⟨fun x hx ↦ by rwa [Open, h.cell?] at hx, fun m k e' he' ↦ ?_⟩
  rw [h.entryAt] at he'
  exact ⟨e', he', rfl, fun _ hw ↦ hw, fun _ _ hj ↦ hj⟩

theorem refl (w : World) : Tethers w w := of_still (.refl w)

theorem modifyMind (w : World) (m : MindId) {f : Mind → Mind}
    (hf : ∀ mind, w.mind? m = some mind → mind.Tethers w.Open (f mind)) : Tethers w (w.modifyMind m f) := by
  refine ⟨fun x hx ↦ hx, fun m' k e' he' ↦ ?_⟩
  rw [entryAt_modifyMind] at he'
  split at he'
  · next heq =>
    subst heq
    obtain ⟨mind, hmind, he'⟩ := Option.bind_eq_some_iff.mp he'
    obtain ⟨e, he, hrest⟩ := hf mind hmind k e' he'
    exact ⟨e, Option.bind_eq_some_iff.mpr ⟨mind, hmind, he⟩, hrest⟩
  · exact ⟨e', he', rfl, fun _ hw ↦ hw, fun _ _ hj ↦ hj⟩

theorem modifyEntry (w : World) (m : MindId) (id : FrameId) {f : FrameEntry → FrameEntry}
    (hhandle : ∀ e, (f e).handle = e.handle) (hwake : ∀ e wake, (f e).wake = some wake → e.wake = some wake)
    (hwaiters : ∀ e, (f e).waiters = e.waiters) : Tethers w (w.modifyEntry m id f) :=
  .modifyMind w m fun mind _ ↦ .modifyEntry mind id hhandle hwake fun e _ _ _ hj ↦ (hwaiters e).symm ▸ hj

/-- A final status stays final. -/
theorem modifyOutcome (w : World) (o : OutcomeId) {g : Outcome → Outcome} (hg : ∀ c, (g c).bare = g c.bare)
    (hfinal : ∀ c, w.cell? o = some c → c.status.isFinished = true → (g c).status.isFinished = true) :
    Tethers w { w with heap := w.heap.modifyOutcome o g } := by
  refine ⟨?_, fun m k e' he' ↦ ⟨e', he', rfl, fun _ hw ↦ hw, fun _ _ hj ↦ hj⟩⟩
  rintro x ⟨c', hc', hu⟩
  rw [cell?_modifyOutcome w o hg] at hc'
  split at hc'
  · next heq =>
    subst heq
    obtain ⟨c, hc, rfl⟩ := Option.map_eq_some_iff.mp hc'
    refine ⟨c, hc, ?_⟩
    cases hfin : c.status.isFinished with
    | false => rfl
    | true => exact (hfinal c hc hfin).symm.trans hu
  · exact ⟨c', hc', hu⟩

/-- A frame that has not finished begins to run, or falls asleep. -/
theorem setStatus {x : Handle} (hu : w.isFinished x = false) (s : FrameStatus) : Tethers w (w.setStatus x s) := by
  refine modifyOutcome w x.outcome ?_ fun c hc hfin ↦ ?_
  · exact fun _ ↦ rfl
  · rw [World.isFinished, status_of_cell? hc, hfin] at hu
    exact absurd hu.symm Bool.false_ne_true

end Tethers

/-! ### The functions of the scheduler -/

theorem tethers_settle (w : World) (m : MindId) (id : FrameId) (ending : Ending) :
    Tethers w (w.settle m id ending) := by
  unfold settle
  split
  · exact .of_still (still_release w _)
  · next entry he =>
    split
    · exact .of_still (still_release w _)
    · dsimp only
      have hended := ending.isFinished_status
      have hg : ∀ c : Outcome, Outcome.bare { c with
          status := ending.status
          result := ending.result?
          error := ending.error?.map (w.withFrameOrigin entry) } = { c.bare with
          status := ending.status
          result := ending.result?
          error := ending.error?.map (w.withFrameOrigin entry) } := fun _ ↦ rfl
      refine (Tethers.modifyOutcome w entry.handle.outcome hg fun _ _ _ ↦ hended).trans ?_
      refine (Tethers.modifyMind _ m fun mind hmind ↦ ?_).trans (.of_still (still_release _ _))
      obtain ⟨mind', hmind', hentry⟩ := Option.bind_eq_some_iff.mp he
      obtain rfl := Option.some.inj (hmind.symm.trans hmind')
      refine .settleEntry mind hentry ?_ _ _
      rintro ⟨c, hc, hu⟩
      rw [cell?_modifyOutcome w _ hg, if_pos rfl] at hc
      obtain ⟨c₀, -, rfl⟩ := Option.map_eq_some_iff.mp hc
      exact absurd (hended.symm.trans hu) Bool.noConfusion

theorem closing_tethers (m : MindId) : Closing m Tethers where
  refl := .refl
  trans := .trans
  release w _ := .of_still (still_release w _)
  clear w id := .modifyEntry w m id (fun _ ↦ rfl) (fun _ _ h ↦ h) fun _ ↦ rfl
  mark w id := .modifyEntry w m id (fun _ ↦ rfl) (fun _ _ h ↦ h) fun _ ↦ rfl
  settle w id ending _ := tethers_settle w m id ending

theorem tethers_takeFrame (w : World) (m : MindId) (id : FrameId) {entry : FrameEntry}
    (hu : w.isFinished entry.handle = false) (frame : Frame) : Tethers w (w.takeFrame m id entry frame) := by
  have htaken : Tethers w (w.modifyEntry m id FrameEntry.taken) :=
    .modifyEntry w m id (fun _ ↦ rfl) (fun _ _ h ↦ by cases h) fun _ ↦ rfl
  have hrunning := Tethers.setStatus (w := w.modifyEntry m id FrameEntry.taken) (x := entry.handle) hu .running
  exact (htaken.trans hrunning).trans ((Tethers.of_still (still_release _ _)).trans (.of_still (still_enter ..)))

theorem tethers_sweep (w : World) (m : MindId) : Tethers w (w.sweep m) := by
  unfold sweep
  split
  · exact .refl w
  · next mind _ =>
    split
    · rw [List.partition_eq_filter_filter]
      refine (Tethers.modifyMind w m fun mind' _ k e' he' ↦ ?_).trans (.of_still (still_release _ _))
      have hremoved := (entryAt_foldl_remove (mind.live.toList.filter (w.isSettled mind)) mind' k).symm.trans he'
      split at hremoved
      · cases hremoved
      · exact ⟨e', hremoved, rfl, fun _ hw ↦ hw, fun _ _ hj ↦ hj⟩
    · exact .refl w

theorem tethers_detachChildren (w : World) (m : MindId) (id : FrameId) : Tethers w (w.detachChildren m id) := by
  unfold detachChildren
  split
  · exact .refl w
  · next entry _ =>
    refine .modifyMind w m fun mind _ ↦ ?_
    rw [← Array.foldl_toList]
    have hcleared : mind.Tethers w.Open (mind.modifyEntry id fun e ↦ { e with children := #[] }) :=
      .modifyEntry mind id (fun _ ↦ rfl) (fun _ _ h ↦ h) fun _ _ _ _ hj ↦ hj
    refine hcleared.trans (.foldl_modifyEntry entry.children.toList ?_ ?_ ?_ _) <;> exact fun _ ↦ rfl

theorem tethers_notify (w : World) (m : MindId) (event : String) (payload : Ref) :
    Tethers w (w.notify m event payload).2 := by
  unfold notify
  split
  · exact .refl w
  · have hdeliver := rel_foldl (R := Tethers)
      (f := fun w id ↦ (w.retain (.object payload)).modifyEntry m id fun e ↦ { e with delivered := some payload })
      .refl .trans (fun w id ↦ (Tethers.of_still (still_retain w _)).trans
        (.modifyEntry _ m id (fun _ ↦ rfl) (fun _ _ h ↦ h) fun _ ↦ rfl))
    dsimp only
    split
    · exact (hdeliver _ w).trans (.modifyMind _ m fun mind _ ↦ .of_slots (Mind.slots_wake ..))
    · exact hdeliver _ w

/-- Going to sleep and registering a frame keep everybody in the lists. -/
theorem Posted.sleep (h : w.Posted) (m : MindId) (id : FrameId) (wake : Wake)
    (hu : ∀ e, w.entryAt m id = some e → w.isFinished e.handle = false) : (w.sleep m id wake).Posted := by
  unfold World.sleep
  split
  · exact h.tethers (.of_still (still_release w _))
  · next entry he =>
    have hasleep := h.tethers (Tethers.setStatus (hu entry he) .suspended)
    intro m' mind' hmind'
    rw [mind?_modifyMind] at hmind'
    split at hmind'
    · next heq =>
      subst heq
      obtain ⟨mind, hmind, rfl⟩ := Option.map_eq_some_iff.mp hmind'
      refine Mind.Posted.sleep (hasleep _ mind hmind) id wake ?_ ?_ ?_ <;> exact fun _ ↦ rfl
    · exact hasleep m' mind' hmind'

theorem Posted.returnFrame (h : w.Posted) {m : MindId} {id : FrameId} (frame : Frame) (step : Except EvalError Step)
    (hu : ∀ e, w.entryAt m id = some e → w.isFinished e.handle = false) : (w.returnFrame m id frame step).Posted := by
  let R : World → World → Prop := fun a b ↦ a.Posted → b.Posted
  have hR : Closing m R :=
    { refl := fun _ h ↦ h
      trans := fun h h' ha ↦ h' (h ha)
      release := fun w ls h ↦ h.tethers ((closing_tethers m).release w ls)
      clear := fun w id h ↦ h.tethers ((closing_tethers m).clear w id)
      mark := fun w id h ↦ h.tethers ((closing_tethers m).mark w id)
      settle := fun w id ending _ h ↦ h.tethers (tethers_settle w m id ending) }
  have hback : R w (w.modifyEntry m id fun e ↦ { e with frame := some frame }) := fun h ↦
    h.tethers (.modifyEntry w m id (fun _ ↦ rfl) (fun _ _ h ↦ h) fun _ ↦ rfl)
  refine hR.returnFrame hback (fun wake ha ↦ ha.sleep m id wake fun e' he' ↦ ?_) step h
  rw [entryAt_modifyEntry] at he'
  obtain ⟨e, he, rfl⟩ := Option.map_eq_some_iff.mp he'
  rw [isFinished_modifyEntry]
  split
  · exact hu e he
  · exact hu e he

/-- The outcome of a new frame is new, so nobody awaits it yet. -/
theorem Posted.register (h : w.Posted) (htidy : w.Tidy) (m : MindId) (name : String) (owner : ClassId)
    (parent : Option FrameId) (frame : Frame)
    (hold : ∀ m id e x, w.entryAt m id = some e → e.wake = some (.frame x) → x.outcome.index < w.heap.outcomes.size) :
    (w.register m name owner parent frame).2.Posted := by
  have hle : ∀ x : Handle, x.outcome.index < w.heap.outcomes.size →
      (w.openOutcome frame.context.this).2.Open x → w.Open x := by
    rintro x hx ⟨c, hc, hu⟩
    have hne : x.outcome ≠ ⟨w.heap.outcomes.size⟩ := fun heq ↦ Nat.ne_of_lt hx (congrArg OutcomeId.index heq)
    rw [cell?_openOutcome, if_neg hne] at hc
    exact ⟨c, hc, hu⟩
  have hopen : (w.openOutcome frame.context.this).2.Posted := by
    intro m mind hmind f e x et he hx hm het hhandle hu
    have hentry : w.entryAt m f = some e := Option.bind_eq_some_iff.mpr ⟨mind, hmind, he⟩
    exact h m mind hmind f e x et he hx hm het hhandle (hle x (hold m f e x hentry hx) hu)
  unfold World.register
  dsimp only
  split
  · exact hopen
  · next mind hmind =>
    intro m' mind' hmind'
    rw [mind?_modifyMind] at hmind'
    split at hmind'
    · next heq =>
      subst heq
      rw [show (w.openOutcome frame.context.this).2.mind? m' = some mind from hmind, Option.map_some,
        Option.some.injEq] at hmind'
      subst hmind'
      refine (h _ mind hmind).enroll (htidy _ mind hmind) rfl fun f e x he hx ↦ ?_
      have hlt := hold _ f e x (Option.bind_eq_some_iff.mpr ⟨mind, hmind, he⟩) hx
      refine ⟨fun heq ↦ Nat.ne_of_lt hlt ?_, hle x hlt⟩
      exact congrArg (fun x : Handle ↦ x.outcome.index) heq
    · exact hopen m' mind' hmind'

theorem Posted.createMind (h : w.Posted) (name : String) : (w.createMind name).2.Posted := by
  intro m mind hmind
  rcases mind?_createMind w name m with heq | ⟨-, mind', hmind', hslots, -⟩
  · exact h m mind (heq ▸ hmind)
  · obtain rfl := Option.some.inj (hmind.symm.trans hmind')
    intro f e x et he
    simp [Mind.entryAt, hslots] at he

end World

end MindScript
