import MindScript.Proofs.Scheduler.Cascade
import MindScript.Proofs.Scheduler.Lifetimes

/-!
# Who settles in an act

An act settles nobody, or it settles one frame and its brood.  Whoever is told to stop in it has been stopped when their
step returns.
-/

namespace MindScript

/-- The card of the same frame later on.  It may have lost children, but has got none. -/
structure Card.Thins (c c' : Card) : Prop where
  handle : c'.handle = c.handle
  children : c'.children.toList.Sublist c.children.toList
  told : c.stopRequested = true → c'.stopRequested = true

theorem Card.Thins.refl (c : Card) : c.Thins c := ⟨rfl, .refl _, fun h ↦ h⟩

theorem Card.Thins.trans {c c' c'' : Card} (h : c.Thins c') (h' : c'.Thins c'') : c.Thins c'' :=
  ⟨h'.handle.trans h.handle, h'.children.trans h.children, fun ht ↦ h'.told (h.told ht)⟩

namespace World

variable {X : Set FrameKey} {stack : List FrameKey} {w w' w'' : World} {m : MindId} {f : FrameId}
  {G : MindId → FrameId → Card → Card}

/-- There are no new frames and nobody has new children. -/
def Thins (w w' : World) : Prop := ∀ m k c', w'.card m k = some c' → ∃ c, w.card m k = some c ∧ c.Thins c'

/-- Nobody settles. -/
def Keeps (w w' : World) : Prop := ∀ m k c, w.card m k = some c → c.isFinished = false →
  ∃ c', w'.card m k = some c' ∧ c'.isFinished = false

namespace Thins

theorem trans (h : Thins w w') (h' : Thins w' w'') : Thins w w'' := by
  intro m k c'' hc''
  obtain ⟨c', hc', hthins'⟩ := h' m k c'' hc''
  obtain ⟨c, hc, hthins⟩ := h m k c' hc'
  exact ⟨c, hc, hthins.trans hthins'⟩

theorem of_still (h : Still w w') : Thins w w' := fun m k c hc ↦ ⟨c, by rw [← h.card, hc], .refl c⟩

theorem of_revised (h : Revised G w w') (hG : ∀ m k c, w.card m k = some c → c.Thins (G m k c)) : Thins w w' := by
  intro m k c' hc'
  rw [h.card] at hc'
  obtain ⟨c, hc, rfl⟩ := Option.map_eq_some_iff.mp hc'
  exact ⟨c, hc, hG m k c hc⟩

/-- A card that is changed without touching children and what was told. -/
theorem of_revised_at {id : FrameId} {g : Card → Card} (h : Revised (atFrame m id g) w w')
    (hg : ∀ c : Card, c.Thins (g c)) : Thins w w' := by
  refine of_revised h fun m' k c _ ↦ ?_
  unfold atFrame
  split
  · exact hg c
  · exact .refl c

end Thins

namespace Keeps

theorem refl (w : World) : Keeps w w := fun _ _ c hc hu ↦ ⟨c, hc, hu⟩

theorem trans (h : Keeps w w') (h' : Keeps w' w'') : Keeps w w'' := by
  intro m k c hc hu
  obtain ⟨c', hc', hu'⟩ := h m k c hc hu
  exact h' m k c' hc' hu'

theorem of_still (h : Still w w') : Keeps w w' := fun m k c hc hu ↦ ⟨c, by rw [h.card, hc], hu⟩

theorem of_revised (h : Revised G w w')
    (hG : ∀ m k c, w.card m k = some c → c.isFinished = false → (G m k c).isFinished = false) : Keeps w w' :=
  fun m k c hc hu ↦ ⟨_, h.card_of_card hc, hG m k c hc hu⟩

theorem of_revised_at {id : FrameId} {g : Card → Card} (h : Revised (atFrame m id g) w w')
    (hg : ∀ c : Card, c.isFinished = false → (g c).isFinished = false) : Keeps w w' := by
  refine of_revised h fun m' k c _ hu ↦ ?_
  unfold atFrame
  split
  · exact hg c hu
  · exact hu

end Keeps

/-! ### Cascades -/

theorem Cascade.thins {ending : Ending} {order told : List FrameId} (h : Cascade m f ending order told w w') :
    Thins w w' := by
  have hmap : ∀ {m' k} {g : Card → Card}, w'.card m' k = (w.card m' k).map g → (∀ c : Card, c.Thins (g c)) →
      ∀ c', w'.card m' k = some c' → ∃ c, w.card m' k = some c ∧ c.Thins c' := by
    intro m' k g hcard hg c' hc'
    rw [hcard] at hc'
    obtain ⟨c, hc, rfl⟩ := Option.map_eq_some_iff.mp hc'
    exact ⟨c, hc, hg c⟩
  intro m' k
  by_cases hother : m' = m → k ∉ order ++ [f] ∧ k ∉ told ∧ ¬ w.IsChild m k f
  · refine hmap (g := id) ?_ .refl
    rw [h.others m' k hother, Option.map_id]
    rfl
  · obtain ⟨rfl, hk⟩ := Classical.not_imp.mp hother
    by_cases horder : k ∈ order
    · exact hmap (h.stopped k horder) fun c ↦ ⟨rfl, List.nil_sublist _, fun ht ↦ ht⟩
    by_cases hself : k = f
    · obtain ⟨origin, hended⟩ := h.ended
      subst hself
      exact hmap hended fun c ↦ ⟨rfl, List.nil_sublist _, fun ht ↦ ht⟩
    by_cases htold : k ∈ told
    · exact hmap (h.noted k htold) fun c ↦ ⟨rfl, .refl _, fun _ ↦ rfl⟩
    · have hchild : w.IsChild m' k f := by
        by_contra hnot
        exact hk ⟨by simp [horder, hself], htold, hnot⟩
      refine hmap (h.left k hchild) fun c ↦ ⟨rfl, ?_, fun ht ↦ ht⟩
      rw [Card.toList_children_without]
      exact List.erase_sublist

theorem Cascade.isFinished {ending : Ending} {order told : List FrameId} (h : Cascade m f ending order told w w')
    {c' : Card} (hc' : w'.card m f = some c') : c'.isFinished = true := by
  obtain ⟨origin, hended⟩ := h.ended
  rw [hended] at hc'
  obtain ⟨c, -, rfl⟩ := Option.map_eq_some_iff.mp hc'
  exact ending.isFinished_status

/-- Stopping comes too late for a frame that has settled. -/
theorem Cascade.stopFrame_release {ending : Ending} {order told : List FrameId} {c : Card}
    (h : Cascade m f ending order told w w') (hc : w.card m f = some c) (ls : List Link) :
    stopFrame m (w'.release ls) f = w'.release ls := by
  obtain ⟨origin, hended⟩ := h.ended
  rw [hc, Option.map_some] at hended
  rw [← (still_release w' ls).card] at hended
  exact stopWith_of_finished _ hended ending.isFinished_status

/-! ### Coming back from a step -/

/-- The world in which a frame settles that comes back from its step: the frame has been put back, and it may have
fallen asleep. -/
inductive Poised (m : MindId) (f : FrameId) (frame : Frame) (w : World) : World → Prop where
  | back (ls : List Link) :
      Poised m f frame w ((w.modifyEntry m f fun e ↦ { e with frame := some frame }).release ls)
  | asleep (wake : Wake) :
      Poised m f frame w ((w.modifyEntry m f fun e ↦ { e with frame := some frame }).sleep m f wake)

theorem Poised.sound {frame : Frame} {v : World} (hv : Poised m f frame w v) (h : Sound ∅ ((m, f) :: stack) w) :
    Sound (insert (m, f) ∅) stack v := by
  cases hv with
  | back ls =>
    rw [insert_empty_eq]
    exact (h.putBack frame).still (still_release _ ls)
  | asleep wake =>
    obtain ⟨c, hc⟩ := h.card_of_mem List.mem_cons_self
    exact h.returnAsleep hc (fun _ ↦ Set.mem_insert _ _) frame wake

/-- Only the frame itself is different, and it shows the same relatives. -/
theorem Poised.thins {frame : Frame} {v : World} (hv : Poised m f frame w v) (h : Sound ∅ ((m, f) :: stack) w) :
    Thins w v := by
  have hback := revised_putBack h.filed m f frame
  have hfirst : Thins w (w.modifyEntry m f fun e ↦ { e with frame := some frame }) :=
    .of_revised_at hback fun _ ↦ ⟨rfl, .refl _, fun ht ↦ ht⟩
  cases hv with
  | back ls => exact hfirst.trans (.of_still (still_release _ ls))
  | asleep wake =>
    obtain ⟨c, hc⟩ := h.card_of_mem List.mem_cons_self
    obtain ⟨e, he, -⟩ := card_eq_some_iff.mp (card_putBack h.filed hc frame)
    exact hfirst.trans (.of_revised_at (revised_sleep hback.filed he wake) fun _ ↦ ⟨rfl, .refl _, fun ht ↦ ht⟩)

/-- At the end of a step a frame falls asleep, or it settles. -/
theorem returnFrame_settles (h : Sound ∅ ((m, f) :: stack) w) (frame : Frame) (step : Except EvalError Step) :
    (Thins w (w.returnFrame m f frame step) ∧ Keeps w (w.returnFrame m f frame step) ∧
      ∃ wake, w.returnFrame m f frame step = (w.modifyEntry m f fun e ↦ { e with frame := some frame }).sleep m f wake) ∨
    ∃ ending order told v v' ls, Poised m f frame w v ∧ Cascade m f ending order told v v' ∧
      w.returnFrame m f frame step = v'.release ls := by
  obtain ⟨c, hc⟩ := h.card_of_mem List.mem_cons_self
  have hu := h.unfinished_of_mem List.mem_cons_self hc
  have hback := revised_putBack h.filed m f frame
  have hcard := card_putBack h.filed hc frame
  have heq := returnFrame_of_card hc frame step
  set w₁ := w.modifyEntry m f fun e ↦ { e with frame := some frame } with hw₁
  -- The frame ends, and a stop that was asked for has nothing to stop any more.
  have hends : ∀ ls ending ls', w₁.conclude m f step = ((w₁.release ls).finishFrame m f ending).release ls' →
      ∃ ending order told v v' ls, Poised m f frame w v ∧ Cascade m f ending order told v v' ∧
        w.returnFrame m f frame step = v'.release ls := by
    intro ls ending ls' hconclude
    have hcard' : (w₁.release ls).card m f = some { c with frame := some frame } := by
      rw [(still_release w₁ ls).card, hcard]
    obtain ⟨order, told, hcascade⟩ := cascade_finishFrame ((Poised.back ls).sound h) hcard' hu ending
    refine ⟨ending, order, told, _, _, ls', .back ls, hcascade, ?_⟩
    rw [heq, hconclude]
    dsimp only
    rw [hcascade.stopFrame_release hcard' ls', ite_self]
  have hconcludes := concludes_conclude w₁ m f step
  generalize hw₂ : w₁.conclude m f step = w₂ at hconcludes
  cases hconcludes with
  | ended ls hending => exact .inr (hends ls _ [] hw₂)
  | stuck _ _ => exact .inr (hends [] _ _ hw₂)
  | asleep wake _ =>
    obtain ⟨e₁, he₁, -⟩ := card_eq_some_iff.mp hcard
    have hsleep := revised_sleep hback.filed he₁ wake
    rw [heq, hw₂]
    cases hstop : c.stopRequested with
    | false =>
      refine .inl ⟨?_, ?_, wake, rfl⟩
      · exact (Thins.of_revised_at hback fun _ ↦ ⟨rfl, .refl _, fun ht ↦ ht⟩).trans
          (.of_revised_at hsleep fun _ ↦ ⟨rfl, .refl _, fun ht ↦ ht⟩)
      · exact (Keeps.of_revised_at hback fun _ hu ↦ hu).trans (.of_revised_at hsleep fun _ _ ↦ rfl)
    | true =>
      have hrests : (w₁.sleep m f wake).Rests m f := by
        refine ⟨_, hsleep.card_of_card hcard, ?_, ?_⟩
        · rw [atFrame_self]
          rfl
        · rw [atFrame_self]
          rfl
      obtain ⟨order, told, hcascade⟩ := cascade_stopFrame ((Poised.asleep wake).sound h) hrests
      exact .inr ⟨.stopped, order, told, _, _, [], .asleep wake, hcascade, rfl⟩

end World

/-! ### Acts -/

/-- The world in which a frame settles in an act: it is stopped where it is, or it comes back from its step. -/
inductive Moment.Settling (M : Moment) (m : MindId) (f : FrameId) : World → Prop where
  | stored : M.world.Rests m f → M.Settling m f M.world
  | back {s : List FrameKey} {v : World} (context : Context) (frame : Frame) : M.stack = (m, f) :: s →
      World.Poised m f frame (M.world.enter context s.head?) v → M.Settling m f v

theorem Moment.Valid.settles_stop {s : List FrameKey} {w : World} (h : Moment.Valid ⟨s, w⟩) (m : MindId) (f : FrameId) :
    (w.Keeps (World.stopFrame m w f) ∧ (w.Thins (World.stopFrame m w f) ∨
      ∃ m' parent x, World.Registered m' parent x w (World.stopFrame m w f))) ∨
    ∃ m' f' ending order told v v' ls, Moment.Settling ⟨s, w⟩ m' f' v ∧ World.Cascade m' f' ending order told v v' ∧
      World.stopFrame m w f = v'.release ls := by
  cases he : w.entryAt m f with
  | none =>
    have hsame : World.stopFrame m w f = w := by
      unfold World.stopFrame World.stopWith
      simp only [he]
    rw [hsame]
    exact .inl ⟨.refl w, .inl (.of_still (.refl w))⟩
  | some e =>
    obtain ⟨cell, hc⟩ := h.sound.filed.card he
    cases hu : (e.card cell).isFinished with
    | true =>
      rw [World.stopFrame, World.stopWith_of_finished _ hc hu]
      exact .inl ⟨.refl w, .inl (.of_still (.refl w))⟩
    | false =>
      cases hframe : (e.card cell).frame with
      | none =>
        have htell := World.revised_tell h.sound.filed m f
        rw [World.stopFrame, World.stopWith_of_running _ hc hu hframe]
        exact .inl ⟨.of_revised_at htell fun _ hu ↦ hu, .inl (.of_revised_at htell fun _ ↦ ⟨rfl, .refl _, fun _ ↦ rfl⟩)⟩
      | some frame =>
        have hrests : w.Rests m f := ⟨_, hc, hu, by rw [hframe, Option.isSome_some]⟩
        obtain ⟨order, told, hcascade⟩ := World.cascade_stopFrame (h.sound.mono (Set.subset_insert _ _)) hrests
        exact .inr ⟨m, f, .stopped, order, told, w, _, [], .stored hrests, hcascade, rfl⟩

theorem Moment.Valid.settles_detach {s : List FrameKey} {w : World} (h : Moment.Valid ⟨s, w⟩) (m : MindId)
    (f : FrameId) : w.Keeps (w.detachChildren m f) ∧ w.Thins (w.detachChildren m f) := by
  cases he : w.entryAt m f with
  | none =>
    rw [World.detachChildren_of_none he]
    exact ⟨.refl w, .of_still (.refl w)⟩
  | some e =>
    have hdetach := (World.revised_detachChildren h.sound.filed he).congr fun m' k c _ ↦
      World.detaching_eq m f e.children m' k c
    refine ⟨.of_revised hdetach fun _ _ _ _ hu ↦ hu, .of_revised hdetach fun _ _ c _ ↦ ⟨rfl, ?_, fun ht ↦ ht⟩⟩
    dsimp only
    split
    · exact List.nil_sublist _
    · exact .refl _

/-- An act settles nobody, or it settles one frame and its brood. -/
theorem Moment.Valid.settles {M M' : Moment} (h : M.Valid) (hact : Act M M') :
    (M.world.Keeps M'.world ∧ (M.world.Thins M'.world ∨
      ∃ m parent x, World.Registered m parent x M.world M'.world)) ∨
    ∃ m f ending order told v v' ls, M.Settling m f v ∧ World.Cascade m f ending order told v v' ∧
      M'.world = v'.release ls := by
  cases hact with
  | compute hstill _ => exact .inl ⟨.of_still hstill, .inl (.of_still hstill)⟩
  | @register s w m name owner parent frame hm hparent =>
    have hr := h.registered name owner frame hm hparent
    exact .inl ⟨fun _ _ _ hc hu ↦ ⟨_, hr.card_of_card hc, hu⟩, .inr ⟨_, _, _, hr⟩⟩
  | @begin s w m id e frame he hu hframe =>
    have htaken := World.revised_takeFrame h.sound.filed he frame
    exact .inl ⟨.of_revised_at htaken fun _ _ ↦ rfl, .inl (.of_revised_at htaken fun _ ↦ ⟨rfl, .refl _, fun ht ↦ ht⟩)⟩
  | @back s w m id context frame step =>
    have henter := World.still_enter w context s.head?
    rcases World.returnFrame_settles (h.sound.still henter) frame step with ⟨hthins, hkeeps, -⟩ |
      ⟨ending, order, told, v, v', ls, hpoised, hcascade, heq⟩
    · exact .inl ⟨World.Keeps.trans (.of_still henter) hkeeps, .inl (World.Thins.trans (.of_still henter) hthins)⟩
    · exact .inr ⟨m, id, ending, order, told, v, v', ls, .back context frame rfl hpoised, hcascade, heq⟩
  | stop m id => exact h.settles_stop m id
  | sweep m =>
    have hswept := World.swept_sweep h.sound.filed m
    exact .inl ⟨fun _ _ c hc hu ↦ ⟨c, hswept.stays hc hu, hu⟩, .inl fun _ _ c hc ↦ ⟨c, hswept.back hc, .refl c⟩⟩
  | detach m id => exact .inl ((h.settles_detach m id).imp_right .inl)
  | notify m event payload =>
    obtain ⟨woken, hwoken, -⟩ := World.revised_notify h.sound.filed m event payload
    have hdeliver := hwoken.congr fun m' k c _ ↦ World.delivering_eq m woken payload m' k c
    exact .inl ⟨.of_revised hdeliver fun _ _ _ _ hu ↦ hu,
      .inl (.of_revised hdeliver fun _ _ _ _ ↦ ⟨rfl, .refl _, fun ht ↦ ht⟩)⟩
  | setUpdateInterval x seconds =>
    have hset := World.revised_setUpdateInterval h.sound.filed x seconds
    exact .inl ⟨.of_revised hset fun _ _ _ _ hu ↦ hu, .inl (.of_revised hset fun _ _ c _ ↦ .refl c)⟩
  | @createMind s w name =>
    have hcard := World.card_createMind w name
    exact .inl ⟨fun m k c hc hu ↦ ⟨c, by rw [hcard, hc], hu⟩, .inl fun m k c hc ↦ ⟨c, hcard ▸ hc, .refl c⟩⟩

namespace Moment.Valid

variable {M M' : Moment} {m : MindId} {f k : FrameId} {v : World} {c : Card}

theorem sound_settling (h : M.Valid) (hv : M.Settling m f v) : ∃ X stack, Sound X stack v := by
  cases hv with
  | stored => exact ⟨_, _, h.sound⟩
  | @back s v context frame hstack hpoised =>
    have hsound := h.sound.still (World.still_enter M.world context s.head?)
    rw [hstack] at hsound
    exact ⟨_, _, hpoised.sound hsound⟩

theorem thins_settling (h : M.Valid) (hv : M.Settling m f v) : M.world.Thins v := by
  cases hv with
  | stored => exact .of_still (.refl _)
  | @back s v context frame hstack hpoised =>
    have henter := World.still_enter M.world context s.head?
    have hsound := h.sound.still henter
    rw [hstack] at hsound
    exact (World.Thins.of_still henter).trans (hpoised.thins hsound)

/-- Nobody gets children in an act but by a frame that is registered. -/
theorem thins_or_registered (h : M.Valid) (hact : Act M M') :
    M.world.Thins M'.world ∨ ∃ m parent x, World.Registered m parent x M.world M'.world := by
  rcases h.settles hact with ⟨-, hcases⟩ | ⟨m, f, ending, order, told, v, v', ls, hv, hcascade, heq⟩
  · exact hcases
  · rw [heq]
    exact .inl (((h.thins_settling hv).trans hcascade.thins).trans (.of_still (World.still_release v' ls)))

/-- Who has been told to stop stays told until they have finished. -/
theorem told_of_act (h : M.Valid) (hact : Act M M') (hc : M.world.card m k = some c) (hu : c.isFinished = false)
    (htold : c.stopRequested = true) :
    ∃ c', M'.world.card m k = some c' ∧ c'.handle = c.handle ∧ c'.stopRequested = true := by
  obtain ⟨c', hc', hhandle⟩ := (h.advances hact).card m k c hc hu
  refine ⟨c', hc', hhandle, ?_⟩
  rcases h.thins_or_registered hact with hthins | ⟨m₁, parent, x, hr⟩
  · obtain ⟨b, hb, hthin⟩ := hthins m k c' hc'
    obtain rfl := Option.some.inj (hc.symm.trans hb)
    exact hthin.told htold
  · obtain rfl := Option.some.inj ((hr.card_of_card hc).symm.trans hc')
    exact htold

end Moment.Valid

/-! ### The order of children -/

/-- Children stand in the order in which they were registered. -/
def World.Ranked (w : World) : Prop := ∀ m p c, w.card m p = some c →
  c.children.toList.Pairwise fun a b ↦ ∀ ca cb, w.card m a = some ca → w.card m b = some cb → ca.age < cb.age

theorem World.Ranked.thins {w w' : World} (h : w.Ranked) (hthins : w.Thins w') : w'.Ranked := by
  intro m p c' hc'
  obtain ⟨c, hc, hthin⟩ := hthins m p c' hc'
  refine ((h m p c hc).sublist hthin.children).imp fun {a b} hage ca' cb' hca' hcb' ↦ ?_
  obtain ⟨ca, hca, hthina⟩ := hthins m a ca' hca'
  obtain ⟨cb, hcb, hthinb⟩ := hthins m b cb' hcb'
  rw [Card.age, Card.age, hthina.handle, hthinb.handle]
  exact hage ca cb hca hcb

/-- A new child is younger than all others. -/
theorem World.Ranked.registered {w w' : World} {m : MindId} {parent : Option FrameId} {x : Handle} {X : Set FrameKey}
    {stack : List FrameKey} (h : w.Ranked) (hw : Sound X stack w) (hr : Registered m parent x w w') : w'.Ranked := by
  -- Whoever was there before is as old as before.
  have hold {m' : MindId} {k : FrameId} {c c' : Card} (hc : w.card m' k = some c) (hc' : w'.card m' k = some c') :
      c'.age = c.age := by
    obtain rfl := Option.some.inj ((hr.card_of_card hc).symm.trans hc')
    rfl
  intro m' p c' hc'
  rcases hr.card_cases hc' with ⟨rfl, rfl, frame, rfl⟩ | ⟨c, hc, rfl⟩
  · exact .nil
  · have hcard : ∀ k ∈ c.children.toList, ∃ b, w.card m' k = some b := by
      intro k hk
      obtain ⟨b, hb, -⟩ := hw.child m' p c k hc (Array.mem_toList_iff.mp hk)
      exact ⟨b, hb⟩
    have hkept : c.children.toList.Pairwise fun a b ↦
        ∀ ca cb, w'.card m' a = some ca → w'.card m' b = some cb → ca.age < cb.age := by
      refine (h m' p c hc).imp_of_mem fun {a b} ha hb hage ca' cb' hca' hcb' ↦ ?_
      obtain ⟨ca, hca⟩ := hcard a ha
      obtain ⟨cb, hcb⟩ := hcard b hb
      rw [hold hca hca', hold hcb hcb']
      exact hage ca cb hca hcb
    simp only [adopting]
    split
    · next hparent =>
      rw [Array.toList_push]
      refine List.pairwise_append.mpr ⟨hkept, List.pairwise_singleton _ _, fun a ha b hb ca' cb' hca' hcb' ↦ ?_⟩
      obtain rfl := List.mem_singleton.mp hb
      obtain ⟨ca, hca⟩ := hcard a ha
      obtain ⟨rfl, -⟩ := hparent
      obtain ⟨frame, hfresh⟩ := hr.fresh
      obtain rfl := Option.some.inj (hfresh.symm.trans hcb')
      have hage : (freshCard x parent frame).age = w.heap.outcomes.size := hr.outcome
      rw [hold hca hca', hage]
      exact index_of_cell? (Option.isSome_iff_exists.mpr ⟨_, cell_of_card hca⟩)
    · exact hkept

theorem Reachable.ranked {M : Moment} (h : Reachable M) : M.world.Ranked := by
  obtain ⟨config, hrun⟩ := h.run
  clear h
  induction hrun with
  | refl => exact fun m p c hc ↦ absurd ((World.card_new config m p).symm.trans hc) (Option.some_ne_none c).symm
  | tail hbefore hact ih =>
    have hvalid := (valid_new config).run hbefore
    rcases hvalid.thins_or_registered hact with hthins | ⟨m, parent, x, hr⟩
    · exact ih.thins hthins
    · exact ih.registered hvalid.sound hr

/-! ### Frames that are told to stop -/

/-- A frame that was told to stop has finished once it has come back. -/
theorem World.finished_of_told {stack : List FrameKey} {w : World} {m : MindId} {k : FrameId} {c c' : Card}
    (h : Sound ∅ ((m, k) :: stack) w) (hc : w.card m k = some c) (htold : c.stopRequested = true) {frame : Frame}
    {step : Except EvalError Step} (hc' : (w.returnFrame m k frame step).card m k = some c') : c'.isFinished = true := by
  obtain ⟨w₁, hconcluded, heq⟩ := returnFrame_cases h hc frame step
  obtain ⟨hsound, -⟩ := h.concluded hc hconcluded
  rw [heq, if_pos htold] at hc'
  have hu := h.unfinished_of_mem List.mem_cons_self hc
  obtain ⟨c₁, hc₁⟩ := Option.isSome_iff_exists.mp (hconcluded.card_isSome (h.putBack frame).filed
    (card_putBack h.filed hc frame) hu)
  cases hu : c₁.isFinished with
  | true =>
    rw [stopFrame, stopWith_of_finished _ hc₁ hu] at hc'
    obtain rfl := Option.some.inj (hc₁.symm.trans hc')
    exact hu
  | false =>
    have hframe : c₁.frame.isSome = true := by
      by_contra hnone
      have hstack := ((hsound.fits m k c₁ hc₁).framed hu (by simpa using hnone)).2
      exact h.notMem_top hstack
    obtain ⟨order, told, hcascade⟩ := cascade_stopFrame hsound ⟨c₁, hc₁, hu, hframe⟩
    exact hcascade.isFinished hc'

/-- Only coming back takes a step off the stack. -/
theorem Act.back_of_stack {N N' : Moment} {m : MindId} {k : FrameId} (hact : Act N N')
    (hstack : N.stack = (m, k) :: N'.stack) : ∃ context frame step,
      N'.world = (N.world.enter context N'.stack.head?).returnFrame m k frame step := by
  have hlength := congrArg List.length hstack
  cases hact with
  | back context frame step =>
    obtain ⟨hkey, -⟩ := List.cons.inj hstack
    obtain ⟨rfl, rfl⟩ := Prod.mk.inj hkey
    exact ⟨context, frame, step, rfl⟩
  | begin =>
    simp only [List.length_cons] at hlength
    omega
  | _ => simp at hlength

namespace Moment.Valid

variable {M N N' : Moment} {m : MindId} {k : FrameId} {c : Card}

/-- Who has settled stays so. -/
theorem status_of_run (h : M.Valid) (hrun : Run M N) {x : Handle} (hfin : M.world.isFinished x = true) :
    N.world.status x = M.world.status x := by
  obtain ⟨cell, hcell, hdone⟩ := World.cell_of_isFinished hfin
  rw [World.status_of_cell? (hrun.cell_of_finished h hcell hdone), World.status_of_cell? hcell]

theorem isFinished_of_run (h : M.Valid) (hrun : Run M N) {x : Handle} (hfin : M.world.isFinished x = true) :
    N.world.isFinished x = true := by
  rwa [World.isFinished, h.status_of_run hrun hfin]

/-- Who has been told to stop stays told, and has finished when their step is over. -/
theorem told_of_run (h : M.Valid) (hrun : Run M N) (hc : M.world.card m k = some c)
    (htold : c.stopRequested = true) : N.world.isFinished c.handle = true ∨
      ∃ c', N.world.card m k = some c' ∧ c'.handle = c.handle ∧ c'.stopRequested = true := by
  induction hrun with
  | refl => exact .inr ⟨c, hc, rfl, htold⟩
  | @tail N N' hbefore hact ih =>
    have hvalid := h.run hbefore
    rcases ih with hfin | ⟨c', hc', hhandle, htold'⟩
    · exact .inl (hvalid.isFinished_of_run (.single hact) hfin)
    · cases hu' : c'.isFinished with
      | true =>
        have hfin : N.world.isFinished c.handle = true := by
          rw [← hhandle, World.isFinished_of_card hc', hu']
        exact .inl (hvalid.isFinished_of_run (.single hact) hfin)
      | false =>
        obtain ⟨c'', hc'', hhandle', htold''⟩ := hvalid.told_of_act hact hc' hu' htold'
        exact .inr ⟨c'', hc'', hhandle'.trans hhandle, htold''⟩

theorem isFinished_of_back (h : M.Valid) (hrun : Run M N) (hc : M.world.card m k = some c)
    (htold : c.stopRequested = true) (hact : Act N N') (hstack : N.stack = (m, k) :: N'.stack) :
    N'.world.isFinished c.handle = true := by
  have hvalid := h.run hrun
  rcases h.told_of_run hrun hc htold with hfin | ⟨c', hc', hhandle, htold'⟩
  · exact hvalid.isFinished_of_run (.single hact) hfin
  · obtain ⟨context, frame, step, heq⟩ := hact.back_of_stack hstack
    have henter := World.still_enter N.world context N'.stack.head?
    have hsound : Sound ∅ ((m, k) :: N'.stack) (N.world.enter context N'.stack.head?) := hstack ▸ hvalid.sound.still henter
    have hcenter : (N.world.enter context N'.stack.head?).card m k = some c' := by rw [henter.card, hc']
    obtain ⟨c'', hc'', hhandle''⟩ := (hvalid.advances hact).card m k c' hc'
      (hsound.unfinished_of_mem List.mem_cons_self hcenter)
    have hfin := World.finished_of_told hsound hcenter htold' (heq ▸ hc'')
    rw [← hhandle, ← hhandle'', World.isFinished_of_card hc'', hfin]

end Moment.Valid

/-! ### Everyone below -/

namespace World

variable {X : Set FrameKey} {stack : List FrameKey} {w : World} {m : MindId} {f : FrameId} {order told : List FrameId}

/-- Where nobody below a frame is running, everyone below it settles. -/
theorem Brood.whole (hb : Brood w m f order told) (h : Sound X stack w)
    (hnone : ∀ k, Relation.TransGen (w.IsChild m) f k → ¬ w.Runs m k) :
    told = [] ∧ ∀ k, k ∈ order ↔ Relation.TransGen (w.IsChild m) f k := by
  have hbelow : ∀ p ∈ order ++ [f], Relation.ReflTransGen (w.IsChild m) f p := by
    intro p hp
    rcases List.mem_append.mp hp with hp | hp
    · have hreach := (hb.reached p).mp hp
      exact (Relation.TransGen.mono (fun _ _ hstep ↦ hstep.1) _ _ hreach).to_reflTransGen
    · rw [List.mem_singleton.mp hp]
  constructor
  · refine List.eq_nil_iff_forall_not_mem.mpr fun k hk ↦ ?_
    obtain ⟨hruns, p, hp, hchild⟩ := (hb.edge k).mp hk
    exact hnone k (.tail' (hbelow p hp) hchild) hruns
  · intro k
    rw [hb.reached]
    refine ⟨Relation.TransGen.mono (fun _ _ hstep ↦ hstep.1) _ _, fun hunder ↦ ?_⟩
    have hrests : ∀ p k, w.IsChild m p k → ¬ w.Runs m k → w.Rests m k := by
      rintro p k ⟨a, ha, hk⟩ hruns
      obtain ⟨b, hbk, hu, -⟩ := h.child m p a k ha hk
      refine ⟨b, hbk, hu, ?_⟩
      by_contra hframe
      have hframe : b.frame = none := by simpa using hframe
      exact hruns ⟨b, hbk, ((h.fits m k b hbk).framed hu hframe).1, hframe⟩
    induction hunder with
    | single hchild => exact .single ⟨hchild, hrests _ _ hchild (hnone _ (.single hchild))⟩
    | tail hunder hchild ih => exact .tail ih ⟨hchild, hrests _ _ hchild (hnone _ (.tail hunder hchild))⟩

end World

/-- Whenever a frame settles, what happens is a cascade.  First the frames below it that are reached through children
without passing through a running frame settle and are stopped, each after its own children and children in the order
in which they were started; where nobody below is running, these are all frames below.  Then the frame ends.  A running
frame at the edge is told to stop, and has finished when its step is over.  For all other frames nothing changes, but
that the frame leaves its parent. -/
theorem settling_takes_brood {M M' : Moment} (h : Reachable M) (hact : Act M M')
    (hsettles : ∃ m k c, M.world.card m k = some c ∧ c.isFinished = false ∧
      ∀ c', M'.world.card m k = some c' → c'.isFinished = true) :
    ∃ m f ending order told v v' ls, M.Settling m f v ∧ World.Cascade m f ending order told v v' ∧
      M'.world = v'.release ls ∧ v.Ranked ∧
      ((∀ k, Relation.TransGen (v.IsChild m) f k → ¬ v.Runs m k) →
        told = [] ∧ ∀ k, k ∈ order ↔ Relation.TransGen (v.IsChild m) f k) ∧
      ∀ k ∈ told, ∀ c, v.card m k = some c → ∀ N N', Run M' N → Act N N' → N.stack = (m, k) :: N'.stack →
        N'.world.isFinished c.handle = true := by
  have hvalid := h.valid
  rcases hvalid.settles hact with ⟨hkeeps, -⟩ | ⟨m, f, ending, order, told, v, v', ls, hv, hcascade, heq⟩
  · obtain ⟨m, k, c, hc, hu, hdone⟩ := hsettles
    obtain ⟨c', hc', hu'⟩ := hkeeps m k c hc hu
    exact absurd ((hdone c' hc').symm.trans hu') Bool.false_ne_true.symm
  · obtain ⟨X, stack, hsound⟩ := hvalid.sound_settling hv
    refine ⟨m, f, ending, order, told, v, v', ls, hv, hcascade, heq, h.ranked.thins (hvalid.thins_settling hv),
      hcascade.whole hsound, fun k hk c hc N N' hrun hact' hstack ↦ ?_⟩
    have hc' : M'.world.card m k = some { c with stopRequested := true } := by
      rw [heq, (World.still_release v' ls).card, hcascade.noted k hk, hc, Option.map_some]
    exact (hvalid.act hact).isFinished_of_back (c := { c with stopRequested := true }) hrun hc' rfl hact' hstack

/-- The parent completes in its step, and the child that has not begun yet is stopped. -/
theorem settling_takes_brood_parentAndChild :
    (World.parentAndChild.status ⟨⟨0⟩, ⟨1, 0⟩, "child", ⟨1⟩⟩ = .pending) ∧
    ∃ m f ending order told v v', World.Cascade m f ending order told v v' ∧
      v'.status ⟨⟨0⟩, ⟨1, 0⟩, "child", ⟨1⟩⟩ = .stopped := by
  have hback : Act ⟨[(⟨0⟩, ⟨0, 0⟩)], .parentAndChild⟩ ⟨[], (World.parentAndChild.enter default none).returnFrame
    ⟨0⟩ ⟨0, 0⟩ default (.ok (.done .nil))⟩ := .back default default (.ok (.done .nil))
  have hpending : ∃ c, World.parentAndChild.card ⟨0⟩ ⟨1, 0⟩ = some c ∧ c.isFinished = false := ⟨_, rfl, rfl⟩
  have hstopped : ∃ c, ((World.parentAndChild.enter default none).returnFrame ⟨0⟩ ⟨0, 0⟩ default
      (.ok (.done .nil))).card ⟨0⟩ ⟨1, 0⟩ = some c ∧ c.isFinished = true := ⟨_, rfl, rfl⟩
  obtain ⟨c, hc, hu⟩ := hpending
  obtain ⟨b, hb, hfin⟩ := hstopped
  refine ⟨rfl, ?_⟩
  obtain ⟨m, f, ending, order, told, v, v', ls, -, hcascade, heq, -⟩ :=
    settling_takes_brood reachable_parentAndChild hback ⟨⟨0⟩, ⟨1, 0⟩, c, hc, hu, fun c' hc' ↦ by
      rw [← Option.some.inj (hb.symm.trans hc'), hfin]⟩
  refine ⟨m, f, ending, order, told, v, v', hcascade, ?_⟩
  rw [← (World.still_release v' ls).status, ← heq]
  rfl

/-! ### A step within a step -/

/-- The parent has fallen asleep until its child has finished. -/
def World.parentAsleep : World :=
  (parentAndChild.enter default none).returnFrame ⟨0⟩ ⟨0, 0⟩ default (.ok (.suspend .children))

/-- The child is in a step. -/
def World.childRunning : World :=
  parentAsleep.takeFrame ⟨0⟩ ⟨1, 0⟩ ((parentAsleep.entryAt ⟨0⟩ ⟨1, 0⟩).getD default) default

/-- The child has started a coroutine in its step. -/
def World.grandchild : World :=
  (childRunning.register ⟨0⟩ "grandchild" Core.object (some ⟨1, 0⟩) default).2

/-- The new coroutine is in a step, within that of the child. -/
def World.grandchildStep : World :=
  grandchild.takeFrame ⟨0⟩ ⟨2, 0⟩ ((grandchild.entryAt ⟨0⟩ ⟨2, 0⟩).getD default) default

theorem reachable_grandchildStep :
    Reachable ⟨[(⟨0⟩, ⟨2, 0⟩), (⟨0⟩, ⟨1, 0⟩)], .grandchildStep⟩ := by
  have hasleep : Act ⟨[(⟨0⟩, ⟨0, 0⟩)], .parentAndChild⟩ ⟨[], .parentAsleep⟩ :=
    .back default default (.ok (.suspend .children))
  have hchild : Act ⟨[], .parentAsleep⟩ ⟨[(⟨0⟩, ⟨1, 0⟩)], .childRunning⟩ := .begin rfl rfl rfl
  have hregister : Act ⟨[(⟨0⟩, ⟨1, 0⟩)], .childRunning⟩ ⟨[(⟨0⟩, ⟨1, 0⟩)], .grandchild⟩ := by
    refine .register _ _ _ ?_ fun p hp ↦ ?_
    · decide
    · rw [← Option.some.inj hp]
      rfl
  have hbegin : Act ⟨[(⟨0⟩, ⟨1, 0⟩)], .grandchild⟩ ⟨[(⟨0⟩, ⟨2, 0⟩), (⟨0⟩, ⟨1, 0⟩)], .grandchildStep⟩ :=
    .begin rfl rfl rfl
  exact (((reachable_parentAndChild.act hasleep).act hchild).act hregister).act hbegin

/-- A running frame that is below a running one is not told to stop, and may sleep on when its step is over. -/
theorem running_below_running_not_told :
    ¬ (∀ s w m f k, Reachable ⟨s, w⟩ → w.Rests m f → Relation.TransGen (w.IsChild m) f k → w.Runs m k →
      ∃ c, (World.stopFrame m w f).card m k = some c ∧ c.stopRequested = true) ∧
    ¬ (∀ s w m f k, Reachable ⟨(m, k) :: s, w⟩ → w.Rests m f → Relation.TransGen (w.IsChild m) f k → w.Runs m k →
      ∀ N, Act ⟨(m, k) :: s, World.stopFrame m w f⟩ N → N.stack = s →
        ∃ c, N.world.card m k = some c ∧ c.isFinished = true) := by
  have hrests : World.grandchildStep.Rests ⟨0⟩ ⟨0, 0⟩ := ⟨_, rfl, rfl, rfl⟩
  have hruns : World.grandchildStep.Runs ⟨0⟩ ⟨2, 0⟩ := ⟨_, rfl, rfl, rfl⟩
  have hbelow : Relation.TransGen (World.grandchildStep.IsChild ⟨0⟩) ⟨0, 0⟩ ⟨2, 0⟩ := by
    have hparent : ∃ c, World.grandchildStep.card ⟨0⟩ ⟨0, 0⟩ = some c ∧ c.children = #[⟨1, 0⟩] := ⟨_, rfl, rfl⟩
    have hchild : ∃ c, World.grandchildStep.card ⟨0⟩ ⟨1, 0⟩ = some c ∧ c.children = #[⟨2, 0⟩] := ⟨_, rfl, rfl⟩
    obtain ⟨a, ha, hachildren⟩ := hparent
    obtain ⟨b, hb, hbchildren⟩ := hchild
    exact .tail (.single ⟨a, ha, by simp [hachildren]⟩) ⟨b, hb, by simp [hbchildren]⟩
  constructor
  · intro hall
    obtain ⟨c, hc, htold⟩ := hall _ _ _ _ _ reachable_grandchildStep hrests hbelow hruns
    have hnot : ∃ b, (World.stopFrame ⟨0⟩ World.grandchildStep ⟨0, 0⟩).card ⟨0⟩ ⟨2, 0⟩ = some b ∧
        b.stopRequested = false := ⟨_, rfl, rfl⟩
    obtain ⟨b, hb, hno⟩ := hnot
    obtain rfl := Option.some.inj (hb.symm.trans hc)
    exact absurd (hno.symm.trans htold) Bool.false_ne_true
  · intro hall
    have hback := hall _ _ _ _ _ reachable_grandchildStep hrests hbelow hruns _
      (.back default default (.ok (.suspend .tick))) rfl
    obtain ⟨c, hc, hfin⟩ := hback
    have hnot : ∃ b, ((((World.stopFrame ⟨0⟩ World.grandchildStep ⟨0, 0⟩).enter default (some (⟨0⟩, ⟨1, 0⟩))).returnFrame
        ⟨0⟩ ⟨2, 0⟩ default (.ok (.suspend .tick))).card ⟨0⟩ ⟨2, 0⟩) = some b ∧ b.isFinished = false := ⟨_, rfl, rfl⟩
    obtain ⟨b, hb, hu⟩ := hnot
    obtain rfl := Option.some.inj (hb.symm.trans hc)
    exact absurd (hu.symm.trans hfin) Bool.false_ne_true

end MindScript
