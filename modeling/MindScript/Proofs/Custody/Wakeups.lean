import MindScript.Proofs.Custody.Hosts
import MindScript.Proofs.Wakeups.Halts

/-!
# No frame sleeps through an update

Whatever a sleeping frame waits for, other than time, has its effect in the next update at the latest.  A frame wakes
with the frame that it awaits because it stands in the list of that frame.  This holds of sane worlds only, since a step
may hand over a handle of nobody.  So the runs that are looked at are checked after each step, and no run of a reached
world fails the check.
-/

namespace MindScript

open Machine
open World (Sane Anchored EnRoute)

variable {σ : Footing} {A G : List Link} {w : World} {m : MindId} {ok : World → Bool}

/-- What is awaited is alive, so it is there. -/
theorem World.Sane.anchored (h : Sane σ A w) : w.Anchored := by
  refine ⟨h.books.posted, fun m id e x he hx ↦ ?_⟩
  have halive := h.alive_stored he (l := .outcome x.outcome) (by simp [FrameEntry.links, hx, Wake.links])
  obtain ⟨o, ho, -⟩ := Heap.outcome?_of_alive halive
  exact (Array.getElem?_eq_some_iff.mp ho).1

/-! ### The checked engine -/

theorem Machine.Gives.checked {α : Type} {f : Machine α} {B : α → List Link} (hf : Gives σ G f w B) :
    Gives σ G (Machine.checked ok f) w B := by
  refine hf.bind fun a w₁ h₁ ↦ .read ?_
  split
  · exact .pure h₁
  · exact .exhausted (h₁.mono (.append_left _ _))

namespace Engine

theorem satisfies_checked {J : ∀ {α : Type}, Setting → Machine α → Prop} (hJ : Compositional J) (ok : World → Bool)
    (n : Nat) : (Engine.checked ok n).Satisfies J := by
  induction n with
  | zero => exact satisfies_ofBudget hJ 0
  | succ n ih =>
    have hle : (Engine.checked ok n).budget ≤ (Engine.checked ok n).budget := Nat.le_refl _
    refine ⟨fun _ id ↦ (Alike.evalNode hle id).compositional hJ ih,
      fun _ this m args ↦ (Alike.invokeMember hle this m args).compositional hJ ih,
      fun _ m id ↦ hJ.bind (hJ.resumeFrame ih m id) fun _ ↦ hJ.look fun w ↦ ?_⟩
    split
    · exact hJ.unchanged fun _ ↦ rfl
    · exact hJ.unchanged fun _ ↦ rfl

theorem civilized_checked (ok : World → Bool) (n : Nat) : Civilized (.checked ok n) := by
  induction n with
  | zero => exact civilized_ofBudget 0
  | succ n ih =>
    exact ⟨satisfies_checked (Along.compositional World.NoNewMembers.lasting) ok (n + 1),
      fun m id ↦ (Calm.resumeFrame _ m id).checked ok, fun this m args hm ↦ civil_invokeMember ih this args hm⟩

theorem careful_checked (ok : World → Bool) (n : Nat) : (Engine.checked ok n).Careful := by
  induction n with
  | zero => exact careful_ofBudget 0
  | succ n ih =>
    have hcivil := civilized_checked ok n
    exact ⟨fun id h ↦ .evalNode ih h id, fun this m args h hm ↦ .invokeMember ih hcivil h hm,
      fun m id h ↦ .checked (.resumeFrame ih hcivil h m id)⟩

end Engine

/-! ### Updates of reached worlds -/

namespace World

/-- Whoever sleeps in the first world until an unfinished frame of its Mind has finished has moved by the second one, if
that frame has finished by then. -/
def Roused (m : MindId) (v w : World) : Prop :=
  ∀ f e x t, v.entryAt m f = some e → e.wake = some (.frame x) → x.mind = m → v.entryAt m x.frame = some t →
    t.handle = x → v.isFinished x = false → w.isFinished x = true → Moved m f v w

/-- It stands in the list of the other one, and from there it goes to the queue, where nobody is left. -/
theorem Heeds.roused {s : List FrameKey} {v w : World} (hvalid : Moment.Valid ⟨s, v⟩) (hposted : v.Posted)
    (hheeds : ∀ f, Heeds m f v w) (hready : w.ready m = []) : Roused m v w := by
  rintro f e _ t he hx hmind ht rfl hopen hfin
  obtain ⟨hu, hframe⟩ := asleep hvalid he (status_of_wake hvalid he hx)
  obtain ⟨mind, hm, hef⟩ := Option.bind_eq_some_iff.mp he
  have htx : mind.entryAt t.handle.frame = some t := by rwa [entryAt, hm] at ht
  obtain ⟨cell, hc⟩ := hvalid.sound.filed.card ht
  obtain ⟨t', ht', hcell, -⟩ := card_eq_some_iff.mp hc
  obtain rfl := Option.some.inj (ht.symm.trans ht')
  have hunfinished : v.Open t.handle := ⟨cell, hcell, (isFinished_of_card hc).symm.trans hopen⟩
  have halert : v.Alert m f t.handle :=
    ⟨fun _ ↦ ⟨t, ht, rfl, hposted m mind hm f e _ t hef hx hmind htx rfl hunfinished⟩,
      fun hfinished ↦ absurd (hopen.symm.trans hfinished) Bool.false_ne_true⟩
  rcases (hheeds f).rests e he hframe hu with hmoved | ⟨-, -, -, -, hstays⟩
  · exact hmoved
  · have hmem := (hstays _ hx halert).after hfin
    rw [hready] at hmem
    cases hmem

end World

/-- That is so at each moment of a journey on which no frame is forgotten. -/
theorem Vigil.roused {M N : Moment} (h : Vigil Anchored m M N) (hready : N.world.ready m = []) :
    M.Valid → Relation.ReflTransGen
      (fun L L' ↦ (∃ pumped, Deed pumped L L') ∧ L.world.Roused m N.world) M N := by
  induction h using Relation.ReflTransGen.head_induction_on with
  | refl => exact fun _ ↦ .refl
  | head hstep _ ih =>
    obtain ⟨⟨pumped, hdeed⟩, hP, hheeds⟩ := hstep
    exact fun hvalid ↦ .head ⟨⟨pumped, hdeed⟩, World.Heeds.roused hvalid hP.posted hheeds hready⟩ (ih (hvalid.act hdeed.act))

/-- Advancing the clock is a change to the queues and settings of a Mind only. -/
theorem World.deed_beginUpdate (s : List FrameKey) (w : World) (m : MindId) (elapsed : Float) :
    Deed (some m) ⟨s, w⟩ ⟨s, (beginUpdate m elapsed w).2⟩ :=
  .compute (still_modifyMind w m (fun _ ↦ rfl) fun _ ↦ rfl) (inward_modifyMind w m _).steady
    (tends_modifyMind w m (fun _ ↦ rfl) (fun _ ↦ Nat.le_succ _) (absurd rfl))

open Classical in
/-- The phases of an update of a sane world rouse all frames that have something to do, and forget nobody from the end
of any step on. -/
theorem World.Sane.resumePhases (h : Sane σ G w) (hw : w.isUpdating m = true) {n k : ℕ} {w' : World}
    (hrun : Machine.resumePhases (.ofBudget n) m w = (.ok k, w')) :
    Watched Anchored m σ.stack w w' ∧ w'.ready m = [] ∧ w'.pending m = [] ∧
      (∀ f ∈ w.live m, w.conditionHolds m f = true → World.Moved m f w w') ∧
      ∀ v, StepEnds n (fun E ↦ Machine.resumePhases E m) w v → EnRoute m σ.stack v w' := by
  have hvalid := h.books.valid
  let ok : World → Bool := fun v ↦ decide v.Anchored
  have htallies := (Alike.resumePhases (σ := ⟨w.current, 0, true, some m⟩) (E := .checked ok n)
    (Nat.le_of_eq (Engine.budget_checked ok n)) rfl).tallies (Engine.tallies_checked ok n) w
    ⟨rfl, Nat.zero_le _, (hvalid.holds (σ := ⟨w.current, 0, true, some m⟩) hvalid.current.symm (Nat.zero_le _)).rooted⟩
  have hchecked : Machine.resumePhases (.checked ok n) m w = (.ok k, w') := by
    rcases htallies with heq | ⟨v, hv, hok⟩
    · exact heq.trans hrun
    · -- A checked run that is given up ends in a sane world, which passes the check.
      have hgives := Gives.resumePhases (Engine.careful_checked ok n) h m
      rw [Gives, Yields, hv] at hgives
      obtain ⟨τ, hsane⟩ := hgives
      exact absurd (decide_eq_true hsane.anchored) (Bool.eq_false_iff.mp hok)
  have hanchored : ∀ v, ok v = true → v.Anchored := fun v hv ↦ of_decide_eq_true hv
  have hrouses := Engine.rouses_checked hanchored m n
  obtain ⟨hwatched, hready, hpending, hmoved⟩ :=
    hrouses.resumePhases World.steadfast_anchored hvalid hw h.anchored hchecked
  refine ⟨hwatched, hready, hpending, hmoved, fun v hends ↦ ?_⟩
  obtain ⟨halts, -, hhalted⟩ := hends
  rcases (Engine.follows_checked hanchored halts m n).resumePhases hrouses hvalid hw h.anchored hchecked with
    hends | ⟨u, hu, hroute⟩
  · cases hends.symm.trans hhalted
  · obtain ⟨-, rfl⟩ := Prod.mk.inj (hu.symm.trans hhalted)
    exact hroute

/-- An update of an idle Mind goes through its phases. -/
theorem Machine.update_of_idle (E : Engine) (hidle : w.Idle m) (elapsed : Float) : update E m elapsed w =
    (resumePhases E m >>= fun resumed ↦ endUpdate m >>= fun _ ↦ runDestructors E >>= fun _ ↦ pure resumed)
      (beginUpdate m elapsed w).2 := by
  obtain ⟨mind, hmind, hsuspended, hupdating⟩ := hidle
  rw [update, get_bind, hmind]
  simp only [hsuspended, hupdating, Bool.or_self, Bool.false_eq_true, if_false]
  exact bind_of_ok rfl

/-- If the update ends, its phases end. -/
theorem Machine.phases_of_update (hidle : w.Idle m) {n : ℕ} {elapsed : Float}
    (hne : (update (.ofBudget n) m elapsed w).1 ≠ .error .exhausted) :
    ∃ k w', resumePhases (.ofBudget n) m (beginUpdate m elapsed w).2 = (.ok k, w') ∧ update (.ofBudget n) m elapsed w =
      (endUpdate m >>= fun _ ↦ runDestructors (.ofBudget n) >>= fun _ ↦ pure k) w' := by
  have hcalm : Calm (resumePhases (.ofBudget n) m) := Calm.resumePhases (Calm.resume_ofBudget n) m
  obtain ⟨k, w', hrun, hrest⟩ := bind_calm hcalm (update_of_idle (.ofBudget n) hidle elapsed).symm hne
  exact ⟨k, w', hrun, hrest.symm⟩

theorem World.Sane.beginUpdate (h : Sane σ G w) (m : MindId) (elapsed : Float) :
    Sane σ G (Machine.beginUpdate m elapsed w).2 :=
  h.modifyMind m (fun _ ↦ rfl) (fun _ ↦ rfl) (fun _ ↦ rfl) fun _ ↦ Nat.le_succ _

theorem World.still_beginUpdate (w : World) (m : MindId) (elapsed : Float) : w.Still (beginUpdate m elapsed w).2 :=
  still_modifyMind w m (fun _ ↦ rfl) fun _ ↦ rfl

theorem World.Idle.mind?_beginUpdate (hidle : w.Idle m) (elapsed : Float) :
    ∃ mind, w.mind? m = some mind ∧ (beginUpdate m elapsed w).2.mind? m =
      some { mind with clock := mind.clock + atLeastZero elapsed, tick := mind.tick + 1, updating := true } := by
  obtain ⟨mind, hmind, -⟩ := hidle
  exact ⟨mind, hmind, by simp [beginUpdate, modify_apply, mind?_modifyMind, hmind]⟩

theorem World.Idle.isUpdating_beginUpdate (hidle : w.Idle m) (elapsed : Float) :
    (beginUpdate m elapsed w).2.isUpdating m = true := by
  obtain ⟨mind, -, hmind⟩ := hidle.mind?_beginUpdate elapsed
  rw [isUpdating, hmind]
  rfl

/-- An update wakes whoever has something to do: the frames that had already been given what they wait for when it was
called, and those that sleep until an unfinished frame of their Mind has finished, if it finishes; so at the beginning,
where any step of the update ends, and at each moment from there to its end.  At the end nobody is left in the queues. -/
theorem update_wakes {owned : List Link} (hw : Reached owned w) (hidle : w.Idle m) {n : ℕ} {elapsed : Float}
    (hne : (update (.ofBudget n) m elapsed w).1 ≠ .error .exhausted) :
    ∃ k w', resumePhases (.ofBudget n) m (beginUpdate m elapsed w).2 = (.ok k, w') ∧
      (∀ f e, w.entryAt m f = some e → w.status e.handle = .suspended → w.Happened e → World.Moved m f w w') ∧
      w.Roused m w' ∧
      (∃ s, Relation.ReflTransGen (fun L L' ↦ (∃ pumped, Deed pumped L L') ∧ L.world.Roused m w') ⟨s, w⟩ ⟨s, w'⟩ ∧
        ∀ v, StepEnds n (fun E ↦ resumePhases E m) (beginUpdate m elapsed w).2 v → v.Roused m w' ∧ ∃ s',
          Relation.ReflTransGen (fun L L' ↦ (∃ pumped, Deed pumped L L') ∧ L.world.Roused m w') ⟨s', v⟩ ⟨s, w'⟩) ∧
      w'.ready m = [] ∧ w'.pending m = [] := by
  obtain ⟨σ, hsane⟩ := hw.sane
  obtain ⟨k, w', hrun, -⟩ := phases_of_update hidle hne
  let w₁ := (beginUpdate m elapsed w).2
  have hbegun : Sane σ owned w₁ := hsane.beginUpdate m elapsed
  have hdeed := World.deed_beginUpdate σ.stack w m elapsed
  obtain ⟨hwatched, hready, hpending, hmoved, hsteps⟩ :=
    hbegun.resumePhases (hidle.isUpdating_beginUpdate elapsed) hrun
  have hstill : w.Still w₁ := w.still_beginUpdate m elapsed
  have hbegin : ∀ f, w.Heeds m f w₁ := fun f ↦
    (World.Dozes.of_still hstill fun _ ↦ World.mem_ready_modifyMind fun _ _ _ ↦ id).heeds
  have hheeds : ∀ f, w.Heeds m f w' := fun f ↦ (hbegin f).trans (hwatched.vigil.heeds f)
  have hfirst : w.Roused m w' := World.Heeds.roused hsane.books.valid hsane.books.posted hheeds hready
  refine ⟨k, w', hrun, fun f e he hs hhappened ↦ ?_, hfirst, ⟨σ.stack, ?_, fun v hv ↦ ?_⟩, hready, hpending⟩
  · have hlive : f ∈ w₁.live m := (hbegun.books.listed.mem m f).mpr (by rw [hstill.entryAt, he]; rfl)
    have hcond := World.conditionHolds_iff.mpr ⟨e, he, hs, hhappened⟩
    rcases (hbegin f).conditionHolds hsane.books.valid hcond with hmoved₁ | hcond₁
    · exact World.Heeds.moved_left hmoved₁ (hwatched.vigil.heeds f)
    · obtain ⟨hu, hframe⟩ := World.asleep hsane.books.valid he hs
      exact (hbegin f).moved_right he hframe hu (hmoved f hlive hcond₁) (hwatched.vigil.heeds f)
  · exact .head ⟨⟨_, hdeed⟩, hfirst⟩ (hwatched.vigil.roused hready hbegun.books.valid)
  · obtain ⟨hanchored, s', hvalid, hvigil⟩ := hsteps v hv
    exact ⟨World.Heeds.roused hvalid hanchored.posted hvigil.heeds hready, s', hvigil.roused hready hvalid⟩

/-! ### A frame that waits for an event -/

/-- A call resolves to what a search of the registry finds. -/
theorem Machine.resolveCall_of_search {r : Registry} {receiver : Ref} {c : ClassId} {name : String} {member : Member}
    (hr : r.Remembers w.classes) (hc : w.heap.classOf receiver = c) (hlt : c.index < r.size)
    (hsearch : r.search c name = some member) :
    resolveCall receiver name none w = (.ok member, { w with classes := (w.classes.find c name).2 }) := by
  have hsize : w.classes.size = r.size := hr.size
  obtain ⟨hanswer, -⟩ := Registry.find_of_sound hr.sound (hsize ▸ hlt) name
  have hresolve : Registry.resolve c name none w.classes = (.ok member, (w.classes.find c name).2) := by
    have hqualifier : ∀ q ∈ (none : Option ClassId), w.classes.isSubtype c q = true := fun q hq ↦ by cases hq
    rw [Registry.resolve_of_isSubtype hqualifier, Option.getD_none, hanswer, hr.search, hsearch]
    rfl
  have hdispatch : onClasses (Registry.resolve c name none) w =
      (.ok member, { w with classes := (w.classes.find c name).2 }) := by
    rw [onClasses, hresolve]
  rw [resolveCall_eq, pure_bind, dispatchFrom, get_bind, hc]
  exact bind_of_ok (attempt_of_ok hdispatch)

/-- What is left of a host's call that starts a coroutine once the member has been found. -/
def Machine.startFrom (E : Engine) (target : Ref) (member : Member) (args : ArgValues) (mind : MindId)
    (deferred : Bool) : Machine (Except EvalError Handle) := do
  let result ← attempt (retain target >>= fun _ ↦ spawnMember E mind none target member args deferred)
  let result ← blame target member.name result
  modify fun w ↦ w.settleMind mind
  return result

section

variable {r : Registry} {target : Ref} {c : ClassId} {member : Member} {args : List Ref} {shared : ArgValues}

theorem Machine.startBody_of_search (E : Engine) (m : MindId) (deferred : Bool)
    (hshare : shareArgs args w = (.ok shared, w')) (hr : r.Remembers w'.classes) (hc : w'.heap.classOf target = c)
    (hlt : c.index < r.size) (hsearch : r.search c member.name = some member) :
    startBody E target member.name args m deferred w = startFrom E target member shared m deferred
      { w' with classes := (w'.classes.find c member.name).2 } := by
  have hfound : elseRelease (resolveCall target member.name none) (shared.map Prod.snd) w' =
      (.ok member, { w' with classes := (w'.classes.find c member.name).2 }) := by
    rw [elseRelease, resolveCall_of_search hr hc hlt hsearch]
  have hstart : startMember E target member.name shared m deferred w' =
      (retain target >>= fun _ ↦ spawnMember E m none target member shared deferred)
        { w' with classes := (w'.classes.find c member.name).2 } := by
    rw [startMember, bind_of_ok hfound]
  rw [startBody, bind_of_ok hshare]
  exact bind_of_eq (attempt_of_eq hstart)

theorem Machine.startValue_of_search (E : Engine) (m : MindId) (deferred : Bool)
    (hshare : shareArgs args w = (.ok shared, w')) (hr : r.Remembers w'.classes) (hc : w'.heap.classOf target = c)
    (hlt : c.index < r.size) (hsearch : r.search c member.name = some member) :
    startValue E target member.name args m deferred w =
      (startFrom E target member shared m deferred >>= finishHostCall E >>= fun h ↦ handleValue h >>= fun value ↦
        releaseLinks [.outcome h.outcome] >>= fun _ ↦ pure value)
        { w' with classes := (w'.classes.find c member.name).2 } := by
  have hstart := congrFun (hostStart_eq E target member.name args m deferred) w
  exact bind_of_eq (hstart.trans (bind_of_eq (startBody_of_search E m deferred hshare hr hc hlt hsearch)))

/-- A host comes to the end of a start by way of the search. -/
theorem Reached.hostStarts {owned : List Link} (h : Reached owned w) (htarget : Owns owned target)
    (hargs : ∀ r ∈ args, Owns owned r) {n : ℕ} {m : MindId} {deferred : Bool}
    (hshare : shareArgs args w = (.ok shared, w')) (hr : r.Remembers w'.classes) (hc : w'.heap.classOf target = c)
    (hlt : c.index < r.size) (hsearch : r.search c member.name = some member)
    (hends : (startFrom (.ofBudget n) target member shared m deferred
      { w' with classes := (w'.classes.find c member.name).2 }).1.toOption.isSome = true) :
    ∃ owned', Reached owned' (startFrom (.ofBudget n) target member shared m deferred
      { w' with classes := (w'.classes.find c member.name).2 }).2 := by
  obtain ⟨result, v, hrun⟩ := exists_of_isSome hends
  rw [hrun]
  exact ⟨_, h.safePoint n (.start member.name m deferred htarget hargs)
    ((startBody_of_search _ m deferred hshare hr hc hlt hsearch).trans hrun)⟩

end

/-- The coroutine that completes with the payload of an event. -/
def waitEvent : Member := ⟨"_wait_event", ⟨0⟩, .coroutine, .coroutine ["event"] (.core .waitEvent)⟩

set_option maxRecDepth 100000 in
theorem search_waitEvent : (CoreClass.all.foldl Registry.adding {}).search ⟨1⟩ "_wait_event" = some waitEvent := by
  with_unfolding_all rfl

/-- What is left of the call that starts the coroutine once the member has been found. -/
def startFound : Machine (Except EvalError Handle) := do
  let result ← attempt (retain .nil >>= fun _ ↦ spawnMember (.ofBudget 2) ⟨0⟩ none .nil waitEvent [(none, ⟨1⟩)] false)
  let result ← blame .nil "_wait_event" result
  modify fun w ↦ w.settleMind ⟨0⟩
  return result

/-- A host has started a coroutine that waits for an event, whose name the host holds. -/
def World.waiting : World :=
  let w := ((literal (.symbol "ping") (.new {})).2).retain (.object ⟨1⟩)
  (startFound { w with classes := (w.classes.find ⟨1⟩ "_wait_event").2 }).2

theorem World.looks_waiting : World.waiting.live ⟨0⟩ = [⟨0, 0⟩] ∧ ((World.waiting.entryAt ⟨0⟩ ⟨0, 0⟩).any fun e ↦
    World.waiting.awaitsEvent "ping" e && World.waiting.status e.handle == .suspended) = true := by
  decide +kernel

/-- The coroutine listens. -/
theorem World.entryAt_waiting : ∃ e, World.waiting.entryAt ⟨0⟩ ⟨0, 0⟩ = some e ∧ World.waiting.awaitsEvent "ping" e = true ∧
    World.waiting.status e.handle = .suspended := by
  obtain ⟨e, he, hlooks⟩ := (Option.any_eq_true _ _).mp World.looks_waiting.2
  obtain ⟨hawaits, hstatus⟩ := (Bool.and_eq_true ..).mp hlooks
  exact ⟨e, he, hawaits, beq_iff_eq.mp hstatus⟩

/-- The same call where it is left open when the first step runs. -/
def foundStart (deferred : Bool) : Machine (Except EvalError Handle) := do
  let result ← attempt (retain .nil >>= fun _ ↦ spawnMember (.ofBudget 2) ⟨0⟩ none .nil waitEvent [(none, ⟨1⟩)] deferred)
  let result ← blame .nil "_wait_event" result
  modify fun w ↦ w.settleMind ⟨0⟩
  return result

/-- The host has made the name of an event and has found the coroutine that waits for events. -/
def World.found : World :=
  let w := ((literal (.symbol "ping") (.new {})).2).retain (.object ⟨1⟩)
  { w with classes := (w.classes.find ⟨1⟩ "_wait_event").2 }

theorem Reached.started (deferred : Bool) : ∃ owned, Reached owned (foundStart deferred World.found).2 := by
  let w := (literal (.symbol "ping") (World.new {})).2
  have hliteral : literal (.symbol "ping") (World.new {}) = (.ok ⟨1⟩, w) := rfl
  have hnamed : Reached [.object ⟨1⟩] w := by
    have hcall : FairCall (.ofBudget 0) (.new {}) [] (literal (.symbol "ping")) fun r ↦ [.object r] :=
      .literal (.symbol "ping")
    have hreturns := (Reached.start {}).returns 0 hcall hliteral
    exact hreturns
  have hshare : shareArgs [⟨1⟩] w = (.ok [(none, ⟨1⟩)], w.retain (.object ⟨1⟩)) := rfl
  have hc : (w.retain (.object ⟨1⟩)).heap.classOf .nil = ⟨1⟩ := rfl
  have hends : (foundStart deferred World.found).1.toOption.isSome = true := by cases deferred <;> decide +kernel
  exact hnamed.hostStarts (.inl rfl) (fun r hr ↦ .inr (by simpa using hr)) hshare
    (World.classes_new {} ▸ CoreClass.registry_remembers) hc (CoreClass.lt_size (by decide)) search_waitEvent hends

theorem Reached.waiting : ∃ owned, Reached owned World.waiting := Reached.started false

/-- Who waits for an event is not due by the clock. -/
theorem World.timeWakeDue_of_event {f : FrameId} {e : FrameEntry} {name : String} (he : w.entryAt m f = some e)
    (hwake : e.wake = some (.event name)) : w.timeWakeDue m f = false := by
  obtain ⟨mind, hmind, he⟩ := Option.bind_eq_some_iff.mp he
  simp only [timeWakeDue, hmind, he, hwake, Bool.and_false]

/-- Nobody makes a step if nobody is due. -/
theorem Machine.resumeDue_of_none {E : Engine} {isDue : World → FrameId → Bool} {ids : List FrameId}
    (h : ∀ id ∈ ids, isDue w id = false) (resumed : ℕ) : resumeDue E m isDue ids resumed w = (.ok resumed, w) := by
  induction ids with
  | nil => rfl
  | cons id rest ih =>
    rw [resumeDue, get_bind, h id List.mem_cons_self]
    exact ih fun k hk ↦ h k (List.mem_cons_of_mem id hk)

theorem Machine.resumePhases_of_none {E : Engine} (h : ∀ id ∈ w.live m, w.timeWakeDue m id = false) :
    resumePhases E m w = (resumeDue E m (fun w id ↦ w.conditionHolds m id) (w.live m) 0 >>= fun resumed ↦
      drainReady E m E.budget resumed >>= drainPending E m E.budget) w := by
  have htimed : resumeDue E m (fun w id ↦ w.timeWakeDue m id) (w.live m) 0 w = (.ok 0, w) := resumeDue_of_none h 0
  rw [resumePhases, get_bind]
  exact bind_of_ok htimed

/-- The event has happened, and the coroutine holds what came with it. -/
def World.notified : World := (World.waiting.notify ⟨0⟩ "ping" .nil).2

theorem World.entryAt_notified : ∃ e, World.notified.entryAt ⟨0⟩ ⟨0, 0⟩ = some e ∧ e.wake = some (.event "ping") ∧
    e.delivered = some .nil ∧ World.notified.status e.handle = .suspended := by
  obtain ⟨e, he, hawaits, hs⟩ := World.entryAt_waiting
  have hhears : (⟨0, 0⟩ : FrameId) ∈ World.waiting.hearers ⟨0⟩ "ping" :=
    World.mem_hearers.mpr ⟨by simp [World.looks_waiting.1], e, he, hawaits⟩
  refine ⟨{ e with delivered := some .nil }, ?_, (World.awaitsEvent_iff.mp hawaits).1, rfl, ?_⟩
  · rw [World.notified, World.entryAt_notify, he, Option.map_some, if_pos ⟨rfl, hhears⟩]
  · rw [World.notified, World.status_notify]
    exact hs

theorem Reached.notified : ∃ owned, Reached owned World.notified := by
  obtain ⟨owned, hwaiting⟩ := Reached.waiting
  have hreturns := hwaiting.returns 0 (.notify ⟨0⟩ "ping" (.inl rfl)) (modifyGet_apply ..)
  exact ⟨_, hreturns⟩

theorem World.idle_of_any (h : ((w.mind? m).any fun mind ↦ !mind.suspended && !mind.updating) = true) : w.Idle m := by
  cases hmind : w.mind? m with
  | none => simp [hmind] at h
  | some mind => exact ⟨mind, hmind, by simpa [hmind] using h⟩

/-- The clock has no part in an update of a Mind whose only frame waits for an event. -/
theorem Machine.update_ends {f : FrameId} {e : FrameEntry} {name : String} {n : ℕ} {elapsed : Float} (hidle : w.Idle m)
    (he : w.entryAt m f = some e) (hwake : e.wake = some (.event name))
    (hlive : (beginUpdate m elapsed w).2.live m = [f])
    (hends : (((resumeDue (.ofBudget n) m (fun w id ↦ w.conditionHolds m id) [f] 0 >>= fun resumed ↦
          drainReady (.ofBudget n) m (Engine.ofBudget n).budget resumed >>=
            drainPending (.ofBudget n) m (Engine.ofBudget n).budget) >>= fun resumed ↦
          endUpdate m >>= fun _ ↦ runDestructors (.ofBudget n) >>= fun _ ↦ pure resumed)
        (beginUpdate m elapsed w).2).1.toOption.isSome = true) :
    (update (.ofBudget n) m elapsed w).1 ≠ .error .exhausted := by
  have hstill := w.still_beginUpdate m elapsed
  have hdue : ∀ id ∈ (beginUpdate m elapsed w).2.live m, (beginUpdate m elapsed w).2.timeWakeDue m id = false := by
    rw [hlive]
    refine fun id hid ↦ World.timeWakeDue_of_event (e := e) ?_ hwake
    rw [hstill.entryAt, List.mem_singleton.mp hid, he]
  rw [update_of_idle (.ofBudget n) hidle, bind_of_eq (resumePhases_of_none hdue), hlive]
  exact ne_exhausted_of_isSome hends

/-- An update is possible and comes to its end, unless it is halted after its first step. -/
theorem World.looks_notified :
    ((World.notified.mind? ⟨0⟩).any fun mind ↦ !mind.suspended && !mind.updating) = true ∧
    (beginUpdate ⟨0⟩ 0.5 World.notified).2.live ⟨0⟩ = [⟨0, 0⟩] ∧
    (((resumeDue (.ofBudget 2) ⟨0⟩ (fun w id ↦ w.conditionHolds ⟨0⟩ id) [⟨0, 0⟩] 0 >>= fun resumed ↦
          drainReady (.ofBudget 2) ⟨0⟩ (Engine.ofBudget 2).budget resumed >>=
            drainPending (.ofBudget 2) ⟨0⟩ (Engine.ofBudget 2).budget) >>= fun resumed ↦
          endUpdate ⟨0⟩ >>= fun _ ↦ runDestructors (.ofBudget 2) >>= fun _ ↦ pure resumed)
        (beginUpdate ⟨0⟩ 0.5 World.notified).2).1.toOption.isSome = true ∧
    ((resumePhases (.checked (fun _ ↦ false) 2) ⟨0⟩ (beginUpdate ⟨0⟩ 0.5 World.notified).2).1 matches
      .error .exhausted) = true := by
  decide +kernel

theorem World.idle_notified : World.notified.Idle ⟨0⟩ := World.idle_of_any World.looks_notified.1

theorem Machine.update_notified_ends : (update (.ofBudget 2) ⟨0⟩ 0.5 World.notified).1 ≠ .error .exhausted := by
  obtain ⟨e, he, hwake, -⟩ := World.entryAt_notified
  obtain ⟨-, hlive, hends, -⟩ := World.looks_notified
  exact update_ends World.idle_notified he hwake hlive hends

/-- The coroutine makes a step in the next update. -/
theorem Machine.exists_stepEnds_notified :
    ∃ v, StepEnds 2 (fun E ↦ resumePhases E ⟨0⟩) (beginUpdate ⟨0⟩ 0.5 World.notified).2 v := by
  obtain ⟨-, -, -, hhalts⟩ := World.looks_notified
  rcases hrun : resumePhases (.checked (fun _ ↦ false) 2) ⟨0⟩ (beginUpdate ⟨0⟩ 0.5 World.notified).2 with
    ⟨(e | _) | k, v⟩ <;> rw [hrun] at hhalts
  · cases hhalts
  · exact ⟨v, fun _ ↦ false, rfl, hrun⟩
  · cases hhalts

/-- The coroutine has the event and goes on in the next update; where its step ends, nobody is forgotten. -/
theorem update_wakes_notified : ∃ owned e k v w', Reached owned World.notified ∧
    World.notified.entryAt ⟨0⟩ ⟨0, 0⟩ = some e ∧ World.notified.status e.handle = .suspended ∧
    World.notified.Happened e ∧
    resumePhases (.ofBudget 2) ⟨0⟩ (beginUpdate ⟨0⟩ 0.5 World.notified).2 = (.ok k, w') ∧
    World.Moved ⟨0⟩ ⟨0, 0⟩ World.notified w' ∧
    StepEnds 2 (fun E ↦ resumePhases E ⟨0⟩) (beginUpdate ⟨0⟩ 0.5 World.notified).2 v ∧ v.Roused ⟨0⟩ w' := by
  obtain ⟨owned, hnotified⟩ := Reached.notified
  obtain ⟨e, he, hwake, hdelivered, hs⟩ := World.entryAt_notified
  obtain ⟨v, hv⟩ := exists_stepEnds_notified
  have hhappened : World.notified.Happened e := .delivered hwake (by rw [hdelivered]; rfl)
  obtain ⟨k, w', hrun, hmoved, -, ⟨s, -, hsteps⟩, -⟩ := update_wakes hnotified World.idle_notified update_notified_ends
  exact ⟨owned, e, k, v, w', hnotified, he, hs, hhappened, hrun, hmoved _ e he hs hhappened, hv, (hsteps v hv).1⟩

end MindScript
