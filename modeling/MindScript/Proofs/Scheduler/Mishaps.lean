import MindScript.Proofs.Scheduler.Settling

/-!
# Who fails in an act

In an act at most one frame fails.  Its Mind notes the error that is stored with its handle, blamed on the frame unless it had
been blamed before, and nobody else notes anything.
-/

namespace MindScript

/-- The same frame at another time. -/
structure FrameEntry.Kin (e e' : FrameEntry) : Prop where
  handle : e'.handle = e.handle
  owner : e'.owner = e.owner
  this : e'.this = e.this

namespace FrameEntry.Kin

variable {e e' e'' : FrameEntry}

theorem refl (e : FrameEntry) : e.Kin e := ⟨rfl, rfl, rfl⟩

theorem trans (h : e.Kin e') (h' : e'.Kin e'') : e.Kin e'' :=
  ⟨h'.handle.trans h.handle, h'.owner.trans h.owner, h'.this.trans h.this⟩

end FrameEntry.Kin

/-- All frames of a Mind were there before. -/
def Mind.Kin (mind mind' : Mind) : Prop := ∀ k e', mind'.entryAt k = some e' → ∃ e, mind.entryAt k = some e ∧ e.Kin e'

namespace Mind.Kin

variable {mind mind' mind'' : Mind}

theorem refl (mind : Mind) : mind.Kin mind := fun _ e he ↦ ⟨e, he, .refl e⟩

theorem trans (h : mind.Kin mind') (h' : mind'.Kin mind'') : mind.Kin mind'' := by
  intro k e'' he''
  obtain ⟨e', he', hkin'⟩ := h' k e'' he''
  obtain ⟨e, he, hkin⟩ := h k e' he'
  exact ⟨e, he, hkin.trans hkin'⟩

theorem modifyEntry (mind : Mind) (id : FrameId) {f : FrameEntry → FrameEntry} (hf : ∀ e : FrameEntry, e.Kin (f e)) :
    mind.Kin (mind.modifyEntry id f) := by
  intro k e' he'
  rw [Mind.entryAt_modifyEntry] at he'
  split at he'
  · next heq =>
    obtain ⟨e, he, rfl⟩ := Option.map_eq_some_iff.mp he'
    exact ⟨e, heq ▸ he, hf e⟩
  · exact ⟨e', he', .refl e'⟩

theorem settleEntry (mind : Mind) (id : FrameId) (entry : FrameEntry) (s : FrameStatus) (failure : Option FrameFailure) :
    mind.Kin (World.settleEntry mind id entry s failure) := by
  intro k e' he'
  rw [World.entryAt_settleEntry] at he'
  obtain ⟨e, he, rfl⟩ := Option.map_eq_some_iff.mp he'
  refine ⟨e, he, ?_⟩
  dsimp only
  split <;> split <;> exact ⟨rfl, rfl, rfl⟩

theorem enlist (mind : Mind) (m : MindId) (id : FrameId) (wake : Wake) : mind.Kin (World.enlist mind m id wake) := by
  unfold World.enlist
  split
  · split
    · exact modifyEntry mind _ fun _ ↦ ⟨rfl, rfl, rfl⟩
    · exact refl mind
  · exact refl mind

end Mind.Kin

theorem Heap.classOf_of_stock {h h' : Heap} (hstock : h'.objects.map Object.stock = h.objects.map Object.stock) :
    h'.classOf = h.classOf := by
  have hread : ∀ (g : Heap) (r : Ref), g.classOf r =
      ((g.objects.map Object.stock)[r.index]?.map Object.classId).getD (default : Object).classId := by
    intro g r
    rw [Array.getElem?_map, Option.map_map, classOf, object, object?]
    cases g.objects[r.index]? <;> rfl
  funext r
  rw [hread, hstock, ← hread]

namespace World

variable {w w' w'' : World} {m : MindId} {rs rs' : List FrameFailure}

/-- Among the frames of a Mind some have failed, and these are the records of them; each names the frame as it was called
before, and its error is blamed on the frame as it would have been before. -/
structure Fares (m : MindId) (rs : List FrameFailure) (w w' : World) : Prop where
  classes : w'.classes = w.classes
  classOf : w'.heap.classOf = w.heap.classOf
  entry : ∀ k e', w'.entryAt m k = some e' → ∃ e, w.entryAt m k = some e ∧ e.Kin e'
  failed : ∀ o c, w'.cell? o = some c → c.status = .failed → w.cell? o = some c ∨
    ∃ r ∈ rs, ∃ e x, w.entryAt m r.frame = some e ∧ e.handle.outcome = o ∧ c.error = some r.error ∧
      r = ⟨r.frame, w.frameName m r.frame, w.withFrameOrigin e x⟩

namespace Fares

theorem frameName (h : Fares m rs w w') {k : FrameId} {e' : FrameEntry} (he' : w'.entryAt m k = some e') :
    w'.frameName m k = w.frameName m k := by
  obtain ⟨e, he, hkin⟩ := h.entry k e' he'
  simp only [World.frameName, he, he', h.classes, hkin.owner, hkin.handle]

theorem withFrameOrigin (h : Fares m rs w w') {e e' : FrameEntry} (hkin : e.Kin e') (x : EvalError) :
    w'.withFrameOrigin e' x = w.withFrameOrigin e x := by
  have hclass : w'.classNameOf = w.classNameOf := by
    funext r
    rw [classNameOf, classNameOf, h.classes, h.classOf]
  rw [World.withFrameOrigin, World.withFrameOrigin, describe, describe, hclass, hkin.this, hkin.handle]

theorem trans (h : Fares m rs w w') (h' : Fares m rs' w' w'') : Fares m (rs ++ rs') w w'' := by
  refine ⟨h'.classes.trans h.classes, h'.classOf.trans h.classOf, fun k e'' he'' ↦ ?_, fun o c hc hfailed ↦ ?_⟩
  · obtain ⟨e', he', hkin'⟩ := h'.entry k e'' he''
    obtain ⟨e, he, hkin⟩ := h.entry k e' he'
    exact ⟨e, he, hkin.trans hkin'⟩
  · rcases h'.failed o c hc hfailed with hbefore | ⟨r, hr, e', x, he', houtcome, herror, hrecord⟩
    · refine (h.failed o c hbefore hfailed).imp_right fun ⟨r, hr, hthere⟩ ↦ ⟨r, List.mem_append_left _ hr, hthere⟩
    · obtain ⟨e, he, hkin⟩ := h.entry r.frame e' he'
      refine .inr ⟨r, List.mem_append_right _ hr, e, x, he, hkin.handle ▸ houtcome, herror, ?_⟩
      rw [← h.frameName he', ← h.withFrameOrigin hkin]
      exact hrecord

theorem of_minds (hminds : w'.minds = w.minds) (hclasses : w'.classes = w.classes)
    (hclassOf : w'.heap.classOf = w.heap.classOf)
    (hcells : ∀ o c, w'.cell? o = some c → c.status = .failed → w.cell? o = some c) : Fares m [] w w' := by
  refine ⟨hclasses, hclassOf, fun k e he ↦ ⟨e, ?_, .refl e⟩, fun o c hc hfailed ↦ .inl (hcells o c hc hfailed)⟩
  rwa [entryAt, mind?, ← hminds]

theorem release (h : Fares m rs w w') (ls : List Link) : Fares m rs w (w'.release ls) := by
  have hreleased : Fares m [] w' (w'.release ls) := by
    refine of_minds rfl rfl (Heap.classOf_of_stock (Heap.Ages.release ls).stock) fun o c hc _ ↦ ?_
    rwa [(still_release w' ls).cell?] at hc
  simpa using h.trans hreleased

theorem modifyMind (w : World) {f : Mind → Mind} (hf : ∀ mind : Mind, mind.Kin (f mind)) :
    Fares m [] w (w.modifyMind m f) := by
  refine ⟨rfl, rfl, fun k e' he' ↦ ?_, fun o c hc _ ↦ .inl hc⟩
  obtain ⟨mind', hmind', he'⟩ := Option.bind_eq_some_iff.mp he'
  rw [mind?_modifyMind, if_pos rfl] at hmind'
  obtain ⟨mind, hmind, rfl⟩ := Option.map_eq_some_iff.mp hmind'
  obtain ⟨e, he, hkin⟩ := hf mind k e' he'
  exact ⟨e, Option.bind_eq_some_iff.mpr ⟨mind, hmind, he⟩, hkin⟩

theorem modifyEntry (w : World) (id : FrameId) {f : FrameEntry → FrameEntry} (hf : ∀ e : FrameEntry, e.Kin (f e)) :
    Fares m [] w (w.modifyEntry m id f) :=
  modifyMind w fun mind ↦ .modifyEntry mind id hf

theorem settle {id : FrameId} {e : FrameEntry} (he : w.entryAt m id = some e) (hu : w.isFinished e.handle = false)
    (ending : Ending) :
    Fares m (ending.error?.map fun x ↦ ⟨id, w.frameName m id, w.withFrameOrigin e x⟩).toList w (w.settle m id ending) := by
  have hended : Fares m (ending.error?.map fun x ↦ ⟨id, w.frameName m id, w.withFrameOrigin e x⟩).toList w
      { w with heap := w.heap.modifyOutcome e.handle.outcome fun o ↦
        { o with status := ending.status, result := ending.result?, error := ending.error?.map (w.withFrameOrigin e) } } := by
    refine ⟨rfl, rfl, fun k e he ↦ ⟨e, he, .refl e⟩, fun o c hc hfailed ↦ ?_⟩
    rw [cell?_modifyOutcome (g := fun o ↦ { o with
      status := ending.status, result := ending.result?, error := ending.error?.map (w.withFrameOrigin e) }) _ _
      fun _ ↦ rfl] at hc
    split at hc
    · next ho =>
      obtain ⟨c, -, rfl⟩ := Option.map_eq_some_iff.mp hc
      cases ending with
      | failed x => exact .inr ⟨_, List.mem_singleton_self _, e, x, he, ho, rfl, rfl⟩
      | _ => cases hfailed
    · exact .inl hc
  have hsettled := hended.trans (modifyMind (m := m) _ (f := fun mind ↦ settleEntry mind id e ending.status
      ((ending.error?.map (w.withFrameOrigin e)).map fun x ↦ ⟨id, w.frameName m id, x⟩)) fun mind ↦ .settleEntry mind id e _ _)
  unfold World.settle
  simp only [he, hu, Bool.false_eq_true, if_false]
  rw [List.append_nil] at hsettled
  exact hsettled.release _

theorem sleep (w : World) (m : MindId) (id : FrameId) (wake : Wake) : Fares m [] w (w.sleep m id wake) := by
  unfold World.sleep
  split
  · exact release (of_minds rfl rfl rfl fun _ _ hc _ ↦ hc) _
  · next e he =>
    have hslept : Fares m [] w (w.setStatus e.handle .suspended) := by
      refine of_minds rfl rfl rfl fun o c hc hfailed ↦ ?_
      rw [setStatus, cell?_modifyOutcome (g := fun o ↦ { o with status := .suspended }) _ _ fun _ ↦ rfl] at hc
      split at hc
      · obtain ⟨c, -, rfl⟩ := Option.map_eq_some_iff.mp hc
        cases hfailed
      · exact hc
    exact hslept.trans (modifyMind _ fun mind ↦ (Mind.Kin.enlist mind m id wake).trans
      (.modifyEntry _ id fun _ ↦ ⟨rfl, rfl, rfl⟩))

end Fares

/-! ### What is noted of a cascade -/

namespace Confined

variable {events : List FrameEvent}

theorem failures_of_ne (h : Confined m events rs w w') {m' : MindId} (hm : m' ≠ m) :
    w'.failures m' = w.failures m' := by
  rw [World.failures, World.failures, h.minds m' hm]

theorem silent (h : Confined m events [] w w') : Silent w w' := by
  intro m'
  by_cases hm : m' = m
  · subst hm
    rw [World.failures, World.failures]
    cases hmind : w.mind? m' with
    | none =>
      have hsize := Array.getElem?_eq_none_iff.mp hmind
      have hmind' : w'.mind? m' = none := Array.getElem?_eq_none_iff.mpr (h.inward.minds ▸ hsize)
      rw [hmind']
    | some mind =>
      obtain ⟨mind', hmind', hlogs⟩ := h.mind mind hmind
      rw [hmind', Option.map_some, Option.map_some, hlogs.failures]
      rfl
  · exact h.failures_of_ne hm

/-- The only failure is noted last. -/
theorem failures {r : FrameFailure} (h : Confined m events [r] w w') {mind : Mind} (hmind : w.mind? m = some mind)
    (hsize : (w.failures m).length ≤ logLimit) : w'.failures m = (w.failures m ++ [r]).rtake logLimit := by
  obtain ⟨mind', hmind', hlogs⟩ := h.mind mind hmind
  have hbefore : w.failures m = mind.failures.toList := by rw [World.failures, hmind, Option.map_some, Option.getD_some]
  rw [hbefore, Array.length_toList] at hsize
  rw [hbefore, World.failures, hmind', Option.map_some, Option.getD_some, hlogs.failures]
  exact toList_pushBounded hsize r

end Confined

theorem Chronicle.fares {events : List FrameEvent} {failures : List FrameFailure} (h : Chronicle m w events failures w') :
    Fares m failures w w' := by
  induction h with
  | refl => exact .of_minds rfl rfl rfl fun _ _ hc _ ↦ hc
  | clear id _ ih =>
    have hclear := ih.trans (.modifyEntry (f := fun e ↦ { e with children := #[] }) _ id fun _ ↦ ⟨rfl, rfl, rfl⟩)
    rwa [List.append_nil] at hclear
  | tell id _ ih =>
    have htell := ih.trans (.modifyEntry (f := fun e ↦ { e with stopRequested := true }) _ id fun _ ↦ ⟨rfl, rfl, rfl⟩)
    rwa [List.append_nil] at htell
  | @settle events failures w' id e ending _ he hu ih =>
    have hlast := ih.trans (.settle he hu ending)
    exact hlast

/-! ### Failures -/

/-- A frame of a Mind fails from one world to the next. -/
structure Fails (m : MindId) (x : Handle) (w w' : World) : Prop where
  stored : ∃ e, w.entryAt m x.frame = some e ∧ e.handle = x
  unfinished : w.isFinished x = false
  failed : w'.status x = .failed

/-- A frame has failed, and this error is stored with its handle. -/
structure FailedWith (w : World) (x : Handle) (e : EvalError) : Prop where
  status : w.status x = .failed
  error : (w.heap.outcome x.outcome).error = some e

/-- The record of a frame that has failed: it bears the error that is stored with the handle, which names an origin. -/
structure Records (w : World) (x : Handle) (r : FrameFailure) : Prop where
  frame : r.frame = x.frame
  failed : w.FailedWith x r.error
  origin : r.error.origin.isSome = true

/-- One frame fails from one world to the next, and its Mind notes the failure, under the name of the frame.  It is blamed on
the frame unless it had been blamed before. -/
structure Mishap (m : MindId) (x : Handle) (r : FrameFailure) (w w' : World) : Prop where
  fails : Fails m x w w'
  only : ∀ m' y, Fails m' y w w' → m' = m ∧ y = x
  others : ∀ m', m' ≠ m → w'.failures m' = w.failures m'
  failures : (w.failures m).length ≤ logLimit → w'.failures m = (w.failures m ++ [r]).rtake logLimit
  records : w'.Records x r
  blamed : ∃ e raised, w.entryAt m x.frame = some e ∧ e.handle = x ∧
    r = ⟨x.frame, w.frameName m x.frame, w.withFrameOrigin e raised⟩

theorem failedWith_iff {x : Handle} {e : EvalError} :
    w.FailedWith x e ↔ ∃ c, w.cell? x.outcome = some c ∧ c.status = .failed ∧ c.error = some e := by
  constructor
  · rintro ⟨hfailed, herror⟩
    obtain ⟨c, hc, -⟩ := cell_of_isFinished (w := w) (h := x) (by rw [isFinished, hfailed]; rfl)
    exact ⟨c, hc, (status_of_cell? hc).symm.trans hfailed, (congrArg Outcome.error (outcome_of_cell? hc)).symm.trans herror⟩
  · rintro ⟨c, hc, hfailed, herror⟩
    exact ⟨(status_of_cell? hc).trans hfailed, (congrArg Outcome.error (outcome_of_cell? hc)).trans herror⟩

namespace FailedWith

variable {x : Handle} {e e' : EvalError}

theorem unique (h : w.FailedWith x e) (h' : w.FailedWith x e') : e = e' :=
  Option.some.inj (h.error.symm.trans h'.error)

theorem isFinished (h : w.FailedWith x e) : w.isFinished x = true := by
  rw [World.isFinished, h.status]
  rfl

/-- What a frame has failed with stays. -/
theorem later {s s' : List FrameKey} (h : w.FailedWith x e) (hvalid : Moment.Valid ⟨s, w⟩) (hrun : Run ⟨s, w⟩ ⟨s', w'⟩) :
    w'.FailedWith x e := by
  obtain ⟨c, hc, hfailed, herror⟩ := failedWith_iff.mp h
  have hfin : c.status.isFinished = true := by
    rw [hfailed]
    rfl
  exact failedWith_iff.mpr ⟨c, hrun.cell_of_finished hvalid hc hfin, hfailed, herror⟩

end FailedWith

theorem Still.failedWith (h : Still w w') (x : Handle) (e : EvalError) : w'.FailedWith x e ↔ w.FailedWith x e := by
  rw [failedWith_iff, failedWith_iff, h.cell?]

theorem Cascade.failed {f : FrameId} {x : EvalError} {order told : List FrameId} {c' : Card}
    (h : Cascade m f (.failed x) order told w w') (hc' : w'.card m f = some c') :
    c'.cell.status = .failed ∧ ∃ origin, c'.cell.error = some (x.withOrigin origin) := by
  obtain ⟨origin, hended⟩ := h.ended
  rw [hc'] at hended
  obtain ⟨c, -, rfl⟩ := Option.map_eq_some_iff.mp hended.symm
  exact ⟨rfl, origin, rfl⟩

/-- Only frames fail that there are records of. -/
theorem Fares.of_fails {m' : MindId} {x : Handle} (h : Fares m rs w w') (hw : w.Filed) (hx : Fails m' x w w') :
    ∃ r ∈ rs, m' = m ∧ x.frame = r.frame ∧ ∃ e raised, w.entryAt m r.frame = some e ∧ e.handle = x ∧
      r = ⟨r.frame, w.frameName m r.frame, w.withFrameOrigin e raised⟩ := by
  obtain ⟨e', he', hhandle⟩ := hx.stored
  have hdone : w'.isFinished x = true := by
    rw [isFinished, hx.failed]
    rfl
  obtain ⟨c, hc, -⟩ := cell_of_isFinished hdone
  have hfailed : c.status = .failed := (status_of_cell? hc).symm.trans hx.failed
  rcases h.failed _ c hc hfailed with hbefore | ⟨r, hr, e, raised, he, houtcome, -, hrecord⟩
  · have hfin := hx.unfinished
    rw [isFinished, status_of_cell? hbefore, hfailed] at hfin
    cases hfin
  · obtain ⟨rfl, hframe⟩ := hw.apart _ _ _ _ _ _ he' he (by rw [hhandle, houtcome])
    rw [hframe, he] at he'
    obtain rfl := Option.some.inj he'
    exact ⟨r, hr, rfl, hframe, e, raised, he, hhandle, hrecord⟩

end World

namespace Moment

variable {M M' : Moment} {m : MindId} {f : FrameId} {v : World}

theorem Settling.fares (h : M.Settling m f v) : World.Fares m [] M.world v ∧ M.world.Silent v := by
  cases h with
  | stored _ => exact ⟨.of_minds rfl rfl rfl fun _ _ hc _ ↦ hc, .refl _⟩
  | @back s v context frame _ hpoised =>
    let back := (M.world.enter context s.head?).modifyEntry m f fun e ↦ { e with frame := some frame }
    have henter : World.Fares m [] M.world (M.world.enter context s.head?) := .of_minds rfl rfl rfl fun _ _ hc _ ↦ hc
    have hback : World.Fares m [] M.world back := henter.trans (.modifyEntry _ f fun _ ↦ ⟨rfl, rfl, rfl⟩)
    have hsilent : M.world.Silent back := .modifyMind (M.world.enter context s.head?) m fun _ ↦ rfl
    cases hpoised with
    | back ls => exact ⟨hback.release ls, hsilent.release ls⟩
    | asleep wake => exact ⟨hback.trans (.sleep back m f wake), hsilent.trans (.sleep back m f wake)⟩

namespace Valid

/-- The frame that settles is unfinished. -/
theorem card_settling (h : M.Valid) (hv : M.Settling m f v) : ∃ c, M.world.card m f = some c ∧ c.isFinished = false := by
  cases hv with
  | stored hrests =>
    obtain ⟨c, hc, hu, -⟩ := hrests
    exact ⟨c, hc, hu⟩
  | @back s v context frame hstack _ =>
    obtain ⟨stack, w⟩ := M
    exact h.card_of_head? (by rw [show stack = (m, f) :: s from hstack, List.head?_cons])

/-- A frame that comes back and settles nobody falls asleep. -/
theorem silent_back {s : List FrameKey} {w : World} (h : Moment.Valid ⟨(m, f) :: s, w⟩) (context : Context) (frame : Frame)
    (step : Except EvalError Step) (hkeeps : w.Keeps ((w.enter context s.head?).returnFrame m f frame step)) :
    w.Silent ((w.enter context s.head?).returnFrame m f frame step) := by
  have henter := World.still_enter w context s.head?
  rcases World.returnFrame_settles (h.sound.still henter) frame step with ⟨-, -, wake, heq⟩ |
    ⟨ending, order, told, v, v', ls, hpoised, hcascade, heq⟩
  · have hback : (w.enter context s.head?).Silent
        ((w.enter context s.head?).modifyEntry m f fun e ↦ { e with frame := some frame }) := .modifyMind _ m fun _ ↦ rfl
    rw [heq]
    exact hback.trans (.sleep _ m f wake)
  · obtain ⟨c, hc, hu⟩ := h.card_settling (.back context frame rfl hpoised)
    obtain ⟨c', hc', hu'⟩ := hkeeps m f c hc hu
    rw [heq, (World.still_release v' ls).card] at hc'
    exact absurd (hu'.symm.trans (hcascade.isFinished hc')) Bool.false_ne_true

theorem silent_of_keeps (h : M.Valid) (hact : Act M M') (hstill : M.world.Still M'.world → M.world.Silent M'.world)
    (hkeeps : M.world.Keeps M'.world) : M.world.Silent M'.world := by
  cases hact with
  | compute hsame _ => exact hstill hsame
  | register name owner frame _ _ => exact .register _ _ name owner _ frame
  | begin _ _ _ => exact .takeFrame _ _ _ _ _
  | back context frame step => exact h.silent_back context frame step hkeeps
  | stop m f => exact .stopFrame _ m f
  | sweep m => exact .sweep _ m
  | detach m f => exact .detachChildren _ m f
  | notify m event payload => exact .notify _ m event payload
  | setUpdateInterval x seconds => exact .modifyMind _ _ fun _ ↦ rfl
  | createMind name => exact .createMind _ name

theorem not_fails_of_keeps (h : M.Valid) (hact : Act M M') (hkeeps : M.world.Keeps M'.world) (m : MindId) (x : Handle) :
    ¬ World.Fails m x M.world M'.world := by
  rintro ⟨⟨e, he, rfl⟩, hu, hfailed⟩
  obtain ⟨cell, hc⟩ := h.sound.filed.card he
  have hu : (e.card cell).isFinished = false := (World.isFinished_of_card hc).symm.trans hu
  obtain ⟨c, hc₁, hu₁⟩ := hkeeps _ _ _ hc hu
  obtain ⟨c', hc', hhandle⟩ := (h.advances hact).card _ _ _ hc hu
  obtain rfl := Option.some.inj (hc₁.symm.trans hc')
  have hstatus := World.status_of_card hc₁
  rw [hhandle] at hstatus
  rw [Card.isFinished, ← Card.status, ← hstatus] at hu₁
  have hsame : M'.world.status (e.card cell).handle = .failed := hfailed
  rw [hsame] at hu₁
  cases hu₁

/-- A frame that fails is the only one that does, and its failure is noted. -/
theorem mishap (h : M.Valid) (hact : Act M M') {x : EvalError} {order told : List FrameId} {v' : World} {ls : List Link}
    (hv : M.Settling m f v) (hcascade : World.Cascade m f (.failed x) order told v v') (heq : M'.world = v'.release ls) :
    ∃ y r, World.Mishap m y r M.world M'.world := by
  obtain ⟨failures, hframes, hchronicle, hconfined⟩ := hcascade.chronicle
  obtain ⟨r, rfl, rfl⟩ := List.map_eq_singleton_iff.mp hframes
  obtain ⟨hfares, hsilent⟩ := hv.fares
  have hwhole : World.Fares m [r] M.world M'.world := by
    rw [heq]
    exact (hfares.trans hchronicle.fares).release ls
  obtain ⟨c, hc, hu⟩ := h.card_settling hv
  -- The frame is where it was, and has failed.
  obtain ⟨c', hc', hhandle⟩ := (h.advances hact).card m r.frame c hc hu
  have hthere : v'.card m r.frame = some c' := by rw [← hc', heq, (World.still_release v' ls).card]
  obtain ⟨hfailed, origin, herror⟩ := hcascade.failed hthere
  obtain ⟨e₀, he₀, -, hcard₀⟩ := World.card_eq_some_iff.mp hc
  have hhandle₀ : e₀.handle = c.handle := congrArg Card.handle hcard₀
  have hx : World.Fails m c.handle M.world M'.world := by
    obtain ⟨-, hframe⟩ := h.sound.filed.named m r.frame e₀ he₀
    refine ⟨⟨e₀, ?_, hhandle₀⟩, (World.isFinished_of_card hc).trans hu, ?_⟩
    · rwa [← hhandle₀, hframe]
    · rw [← hhandle, World.status_of_card hc']
      exact hfailed
  obtain ⟨r', hr', -, hframe, e, raised, he, hsame, hrecord⟩ := hwhole.of_fails h.sound.filed hx
  obtain rfl := List.mem_singleton.mp hr'
  obtain ⟨mind, hmind, hnoted⟩ : ∃ mind, v.mind? m = some mind ∧ c'.cell.error = some r'.error := by
    rcases hchronicle.fares.failed _ _ (World.cell_of_card hthere) hfailed with hbefore | ⟨r'', hr'', e', -, hthere', -, hnoted, -⟩
    · -- It had not failed before.
      rcases hfares.failed _ _ hbefore hfailed with hbefore | ⟨r'', hr'', -⟩
      · rw [hhandle, World.cell_of_card hc] at hbefore
        rw [Card.isFinished, Option.some.inj hbefore, hfailed] at hu
        cases hu
      · cases hr''
    · obtain rfl := List.mem_singleton.mp hr''
      obtain ⟨mind, hmind, -⟩ := Option.bind_eq_some_iff.mp hthere'
      exact ⟨mind, hmind, hnoted⟩
  refine ⟨c.handle, r', hx, fun m' y hy ↦ ?_, fun m' hm' ↦ ?_, fun hsize ↦ ?_, ⟨hframe.symm, ⟨hx.failed, ?_⟩, ?_⟩, e, raised,
    hframe ▸ he, hsame, hframe ▸ hrecord⟩
  · obtain ⟨r'', hr'', hm, -, e', -, he', hsame', -⟩ := hwhole.of_fails h.sound.filed hy
    obtain rfl := List.mem_singleton.mp hr''
    obtain rfl := Option.some.inj (he.symm.trans he')
    exact ⟨hm, hsame'.symm.trans hsame⟩
  · rw [← hsilent m', heq]
    exact hconfined.failures_of_ne hm'
  · rw [← hsilent m] at hsize ⊢
    rw [heq]
    exact hconfined.failures hmind hsize
  · rw [← hhandle]
    exact (congrArg Outcome.error (World.outcome_of_cell? (World.cell_of_card hc'))).trans hnoted
  · rw [hnoted] at herror
    rw [Option.some.inj herror]
    exact EvalError.isSome_origin_withOrigin x origin

/-- In an act nobody fails and nothing is noted, or one frame fails and its Mind notes it. -/
theorem notes (h : M.Valid) (hact : Act M M') (hstill : M.world.Still M'.world → M.world.Silent M'.world) :
    (M.world.Silent M'.world ∧ ∀ m x, ¬ World.Fails m x M.world M'.world) ∨
      ∃ m x r, World.Mishap m x r M.world M'.world := by
  rcases h.settles hact with ⟨hkeeps, -⟩ | ⟨m, f, ending, order, told, v, v', ls, hv, hcascade, heq⟩
  · exact .inl ⟨h.silent_of_keeps hact hstill hkeeps, h.not_fails_of_keeps hact hkeeps⟩
  cases ending with
  | failed x =>
    obtain ⟨x, r, hmishap⟩ := h.mishap hact hv hcascade heq
    exact .inr ⟨m, x, r, hmishap⟩
  | completed _ | stopped =>
    obtain ⟨failures, hframes, hchronicle, hconfined⟩ := hcascade.chronicle
    obtain rfl : failures = [] := List.map_eq_nil_iff.mp hframes
    obtain ⟨hfares, hsilent⟩ := hv.fares
    rw [heq]
    refine .inl ⟨(hsilent.trans hconfined.silent).release ls, fun m' y hy ↦ ?_⟩
    obtain ⟨r, hr, -⟩ := ((hfares.trans hchronicle.fares).release ls).of_fails h.sound.filed hy
    cases hr

end Valid

end Moment

end MindScript
