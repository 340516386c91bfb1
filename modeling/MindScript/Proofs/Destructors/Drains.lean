import MindScript.Diagnostics
import MindScript.Proofs.Destructors.Instances

/-!
# Draining the queue of destructors

The queue is taken in batches, and the instances of a batch have their turns one after the other.  Each belongs to the
batch until its turn is over: nothing frees it before.  What the destructors do, also when they make instances due
again or run into errors, makes no difference to that, and once drained the queue is empty.
-/

namespace MindScript

open Machine
open World (Sane History)

/-- Where a drain that began in a world has come to: who has had his turn, who of the batch under way still waits for
his, and the world. -/
inductive Draining (E : Engine) (w : World) : List Ref → List Ref → World → Prop where
  | start : Draining E w [] [] w
  | batch {done : List Ref} {v : World} : Draining E w done [] v →
      Draining E w done v.heap.due.toList { v with heap := v.heap.takeDue.2 }
  | turn {done rest : List Ref} {r : Ref} {v v' : World} : Draining E w done (r :: rest) v →
      runDestructor E r v = (.ok (), v') → Draining E w (done ++ [r]) rest v'

namespace Draining

variable {E : Engine} {σ : Footing} {G : List Link} {w v v' : World} {done waiting rest : List Ref} {r : Ref}

/-! ### Running a drain to its end -/

theorem runAll (h : Draining E w done waiting v) (hrun : runAll E waiting v = (.ok (), v')) :
    Draining E w (done ++ waiting) [] v' := by
  induction waiting generalizing done v with
  | nil =>
    obtain rfl : v = v' := (Prod.mk.inj hrun).2
    rwa [List.append_nil]
  | cons r rest ih =>
    obtain ⟨_, v₁, hturn, hrest⟩ := exists_of_bind_eq_ok hrun
    rw [List.append_cons]
    exact ih (h.turn hturn) hrest

/-- A drain ends with an empty queue, and counts the turns. -/
theorem drainDue {n ran total : Nat} (h : Draining E w done [] v) (hrun : drainDue E n ran v = (.ok total, v')) :
    ∃ more, Draining E w (done ++ more) [] v' ∧ v'.heap.due = #[] ∧ total = ran + more.length := by
  induction n generalizing done v ran with
  | zero => cases hrun
  | succ n ih =>
    obtain ⟨due, v₁, htake, hrest⟩ := exists_of_bind_eq_ok hrun
    obtain ⟨rfl, rfl⟩ : v.heap.due.toList = due ∧ { v with heap := v.heap.takeDue.2 } = v₁ := by
      cases htake
      exact ⟨rfl, rfl⟩
    split at hrest
    · next hempty =>
      obtain ⟨rfl, rfl⟩ : ran = total ∧ { v with heap := v.heap.takeDue.2 } = v' := by
        cases hrest
        exact ⟨rfl, rfl⟩
      refine ⟨[], ?_, rfl, rfl⟩
      have hbatch := h.batch
      rwa [List.isEmpty_iff.mp hempty, ← List.append_nil done] at hbatch
    · obtain ⟨_, v₂, hall, hrest⟩ := exists_of_bind_eq_ok hrest
      obtain ⟨more, hmore, hempty, htotal⟩ := ih (h.batch.runAll hall) hrest
      refine ⟨v.heap.due.toList ++ more, List.append_assoc .. ▸ hmore, hempty, ?_⟩
      rw [htotal, List.length_append, Nat.add_assoc]

/-! ### Waiting instances -/

/-- Who waits for his turn is in the hand of the drain. -/
theorem sane (hE : E.Careful) (h : Sane σ G w) (hdrain : Draining E w done waiting v) :
    Sane σ (waiting.map .object ++ G) v := by
  induction hdrain with
  | start => exact h
  | batch _ ih => exact ih.takeDue
  | turn _ hturn ih =>
    have hgives := Gives.runDestructor hE ih
    rw [Gives, Yields, hturn] at hgives
    exact hgives

/-- Also whose turn it is. -/
theorem sane_stopped (hE : E.Careful) (h : Sane σ (.object r :: G) v)
    (hstopped : runDestructor E r v = (.error .exhausted, v')) : ∃ τ, Sane τ (.object r :: G) v' := by
  have hyields : Yields σ (.object r :: G) (runDestructor E r) v fun _ _ ↦ True := by
    refine .read ((Yields.resolve h _ _ _).attempt.bind fun found w₁ h₁ ↦ ?_)
    cases found with
    | error e => exact .modify trivial
    | ok m =>
      obtain ⟨h₁, hm⟩ := h₁
      refine (Gives.retain h₁ (h₁.alive List.mem_cons_self)).bind fun _ w₂ h₂ ↦ ?_
      refine (Gives.attempt (hE.invoke r m [] h₂ hm)).bind fun result w₃ _ ↦ ?_
      cases result with
      | ok value => exact .modified (.modify trivial)
      | error e => exact .modify trivial
  rw [Yields, hstopped] at hyields
  exact hyields

/-! ### Turns -/

/-- The turns of a drain are among the entries that its history took from the queue. -/
theorem history (hE : E.Careful) (hcalls : E.Satisfies (Along fun w w' ↦ ∃ taken, History w taken w')) (h : Sane σ G w)
    (hdrain : Draining E w done waiting v) : ∃ taken, History w taken v ∧ (done ++ waiting).Sublist taken := by
  induction hdrain with
  | start => exact ⟨[], .refl w, .slnil⟩
  | batch _ ih =>
    obtain ⟨taken, hpast, hsub⟩ := ih
    rw [List.append_nil] at hsub
    exact ⟨_, hpast.take, hsub.append (.refl _)⟩
  | @turn done rest r v v' hdrain hturn ih =>
    obtain ⟨taken, hpast, hsub⟩ := ih
    have hsane := hdrain.sane hE h
    have halike : Alike E E ⟨σ.stack.head?, 0, true, none⟩ (runDestructor E r) (runDestructor E r) := .runDestructor r
    obtain ⟨taken', hnext⟩ := (halike.along History.lasting hcalls).along σ.stack v hsane.books.valid rfl (Nat.zero_le _)
    rw [hturn] at hnext
    refine ⟨taken ++ taken', hpast.trans hnext, ?_⟩
    rw [List.append_assoc]
    exact hsub.trans (List.sublist_append_left taken taken')

end Draining

/-! ### Outermost drains -/

section

variable {E : Engine} {w w' : World} {total : Nat}

/-- Inside a drain nothing happens. -/
theorem runDestructors_of_draining (E : Engine) (h : w.draining = true) : runDestructors E w = (.ok 0, w) := by
  rw [runDestructors, get_bind, h]
  rfl

theorem draining_of_runDestructors (h : w.draining = false) (hrun : runDestructors E w = (.ok total, w')) :
    ∃ done v, Draining E { w with draining := true } done [] v ∧ v.heap.due = #[] ∧ total = done.length ∧
      w' = { v with draining := false } := by
  rw [runDestructors, get_bind, h, if_neg Bool.false_ne_true] at hrun
  obtain ⟨_, w₁, hset, hrun⟩ := exists_of_bind_eq_ok hrun
  obtain rfl : { w with draining := true } = w₁ := (Prod.mk.inj hset).2
  obtain ⟨ran, v, hdrain, hrun⟩ := exists_of_bind_eq_ok hrun
  obtain ⟨done, hdone, hempty, hran⟩ := Draining.start.drainDue hdrain
  obtain ⟨rfl, rfl⟩ : ran = total ∧ { v with draining := false } = w' := by
    cases hrun
    exact ⟨rfl, rfl⟩
  exact ⟨done, v, hdone, hempty, by rw [hran, Nat.zero_add], rfl⟩

end

/-! ### Once in a lifetime -/

variable {owned : List Link} {w v u : World} {taken taken' done waiting : List Ref}

theorem World.Sane.isAlive {σ : Footing} {r : Ref} (h : Sane σ owned w) (hr : .object r ∈ owned) : w.isAlive r = true :=
  decide_eq_true (h.alive hr)

/-- Whoever has been taken from the queue, has had his turn or is waiting for it, or is on the queue, is there once. -/
theorem Draining.once {stop : World → Bool} {n : Nat} (hw : Reached owned w) {config : Config}
    (hpast : History (.new config) taken w)
    (hdrain : Draining (.pausing stop n) { w with draining := true } done waiting v) (hlater : History v taken' u) :
    (taken ++ (done ++ waiting) ++ (taken' ++ u.heap.due.toList)).Nodup := by
  obtain ⟨σ, hsane⟩ := hw.sane
  have hbegun : Sane σ owned { w with draining := true } := hsane.unconcerned rfl rfl rfl rfl rfl rfl
  have hcalls := Engine.satisfies_pausing World.hospitable_history.toCompositional stop n
  obtain ⟨during, hdrained, hsub⟩ := hdrain.history (Engine.careful_pausing stop n) hcalls hbegun
  have hbefore : History (.new config) taken { w with draining := true } := hpast.aside rfl rfl rfl
  have hall := (hbefore.trans hdrained).trans hlater
  have hnodup := (hall.accounts (World.sane_new config).queued).once
  rw [List.append_assoc] at hnodup
  exact hnodup.sublist ((hsub.append_left taken).append (.refl _))

/-- Everybody comes on the queue of due destructors once and has one turn at most, whatever the destructors do; nobody
who waits for his turn is freed; and a drain that ends leaves the queue empty. -/
theorem destructors_run_once (hw : Reached owned w) :
    (∃ config taken, History (.new config) taken w) ∧
    (∀ config taken, History (.new config) taken w → (taken ++ w.heap.due.toList).Nodup ∧
      ∀ stop n done waiting v, Draining (.pausing stop n) { w with draining := true } done waiting v →
        ∀ taken' u, History v taken' u → (taken ++ (done ++ waiting) ++ (taken' ++ u.heap.due.toList)).Nodup) ∧
    (∀ r ∈ w.heap.due.toList, w.isAlive r = true) ∧
    (∀ stop n done waiting v, Draining (.pausing stop n) { w with draining := true } done waiting v →
      (∀ r ∈ waiting, v.isAlive r = true) ∧
      ∀ r rest u, waiting = r :: rest → runDestructor (.pausing stop n) r v = (.error .exhausted, u) →
        ∀ x ∈ waiting, u.isAlive x = true) ∧
    ∀ n total w', runDestructors (.ofBudget n) w = (.ok total, w') →
      if w.draining then total = 0 ∧ w' = w
      else w'.heap.due = #[] ∧ ∃ done v, Draining (.ofBudget n) { w with draining := true } done [] v ∧
        total = done.length ∧ w' = { v with draining := false } := by
  obtain ⟨σ, hsane⟩ := hw.sane
  have hbegun : Sane σ owned { w with draining := true } := hsane.unconcerned rfl rfl rfl rfl rfl rfl
  refine ⟨hw.history, fun config taken hpast ↦ ⟨?_, fun stop n done waiting v hdrain taken' u hlater ↦ ?_⟩,
    fun r hr ↦ ?_, fun stop n done waiting v hdrain ↦ ?_, fun n total w' hrun ↦ ?_⟩
  · exact (hpast.accounts (World.sane_new config).queued).once
  · exact hdrain.once hw hpast hlater
  · refine decide_eq_true (hsane.covered.alive_of_held (l := .object r) ?_)
    simp only [Heap.held, List.mem_append]
    exact .inr (List.mem_map_of_mem hr)
  · have hwaits := hdrain.sane (Engine.careful_pausing stop n) hbegun
    refine ⟨fun r hr ↦ hwaits.isAlive (List.mem_append_left _ (List.mem_map_of_mem hr)), ?_⟩
    rintro r rest u rfl hstopped x hx
    obtain ⟨τ, hτ⟩ := Draining.sane_stopped (Engine.careful_pausing stop n) hwaits hstopped
    exact hτ.isAlive (List.mem_append_left _ (List.mem_map_of_mem hx))
  · split
    · next hdraining =>
      rw [runDestructors_of_draining _ hdraining] at hrun
      cases hrun
      exact ⟨rfl, rfl⟩
    · next hidle =>
      obtain ⟨done, v, hdone, hempty, htotal, rfl⟩ := draining_of_runDestructors (Bool.eq_false_of_not_eq_true hidle) hrun
      exact ⟨hempty, done, v, hdone, htotal, rfl⟩

/-- An instance that waits on the queue when it is drained. -/
theorem destructors_run_once_due : ∃ w, Reached [] w ∧ w.heap.due = #[⟨1⟩] ∧ w.isAlive ⟨1⟩ = true ∧
    ∃ config taken, History (.new config) taken w ∧ (taken ++ [(⟨1⟩ : Ref)]).Nodup ∧
      ∀ n total w', runDestructors (.ofBudget n) w = (.ok total, w') → w'.heap.due = #[] := by
  obtain ⟨w, hw, hdue, hdraining⟩ := Reached.exists_due
  obtain ⟨⟨config, taken, hpast⟩, honce, halive, -, hdrained⟩ := destructors_run_once hw
  refine ⟨w, hw, hdue, halive _ (by simp [hdue]), config, taken, hpast, ?_, fun n total w' hrun ↦ ?_⟩
  · have hnodup := (honce config taken hpast).1
    rwa [hdue] at hnodup
  · have hended := hdrained n total w' hrun
    rw [hdraining, if_neg Bool.false_ne_true] at hended
    exact hended.1

/-! ### What a turn does -/

section

variable {E : Engine} {r : Ref} {m : Member} {n : Nat} {w₀ : World}

/-- The instances of a batch have their turns in order. -/
theorem Draining.turn_of_split {before rest : List Ref} (hdrain : Draining E w₀ done (before ++ r :: rest) v)
    (hrun : Machine.runAll E (before ++ r :: rest) v = (.ok (), u)) : ∃ v₁ v₂,
    Draining E w₀ (done ++ before) (r :: rest) v₁ ∧ runDestructor E r v₁ = (.ok (), v₂) := by
  induction before generalizing done v with
  | nil =>
    obtain ⟨_, v₁, hturn, -⟩ := exists_of_bind_eq_ok hrun
    exact ⟨v, v₁, (List.append_nil done).symm ▸ hdrain, hturn⟩
  | cons first before ih =>
    obtain ⟨_, v₁, hturn, hrest⟩ := exists_of_bind_eq_ok hrun
    obtain ⟨v₂, v₃, hcome, hnext⟩ := ih (hdrain.turn hturn) hrest
    exact ⟨v₂, v₃, List.append_cons .. ▸ hcome, hnext⟩

/-- Everybody who is due when a drain begins has a turn in it, in the order of the queue. -/
theorem turn_of_due (hidle : w₀.draining = false) {total : Nat} (hrun : runDestructors E w₀ = (.ok total, w))
    {before rest : List Ref} (hdue : w₀.heap.due.toList = before ++ r :: rest) : ∃ v₁ v₂,
    Draining E { w₀ with draining := true } before (r :: rest) v₁ ∧ runDestructor E r v₁ = (.ok (), v₂) := by
  rw [runDestructors, get_bind, hidle, if_neg Bool.false_ne_true] at hrun
  obtain ⟨_, w₁, hset, hrun⟩ := exists_of_bind_eq_ok hrun
  obtain rfl : { w₀ with draining := true } = w₁ := (Prod.mk.inj hset).2
  obtain ⟨ran, u, hdrain, -⟩ := exists_of_bind_eq_ok hrun
  cases hbudget : E.budget with
  | zero =>
    rw [hbudget] at hdrain
    cases hdrain
  | succ k =>
    rw [hbudget] at hdrain
    obtain ⟨due, w₂, htake, hdrain⟩ := exists_of_bind_eq_ok hdrain
    obtain ⟨rfl, rfl⟩ : w₀.heap.due.toList = due ∧ { w₀ with draining := true, heap := w₀.heap.takeDue.2 } = w₂ := by
      cases htake
      exact ⟨rfl, rfl⟩
    rw [hdue, if_neg (by simp)] at hdrain
    obtain ⟨_, w₃, hall, -⟩ := exists_of_bind_eq_ok hdrain
    have hbatch : Draining E { w₀ with draining := true } [] (before ++ r :: rest)
        { w₀ with draining := true, heap := w₀.heap.takeDue.2 } := hdue ▸ Draining.start.batch
    exact hbatch.turn_of_split hall

theorem exists_turn_of_due (hidle : w₀.draining = false) {total : Nat} (hrun : runDestructors E w₀ = (.ok total, w))
    (hr : r ∈ w₀.heap.due.toList) : ∃ before rest v₁ v₂, Draining E { w₀ with draining := true } before (r :: rest) v₁ ∧
      runDestructor E r v₁ = (.ok (), v₂) := by
  obtain ⟨before, rest, hdue⟩ := List.append_of_mem hr
  exact ⟨before, rest, turn_of_due hidle hrun hdue⟩

/-- The world in which the body of a destructor starts. -/
def World.enteringDestructor (w : World) (r : Ref) (m : Member) (classes : Registry) : World :=
  { w with
    classes
    heap := w.heap.retain (.object r)
    callStack := { w.callStack with
      invocations := w.callStack.invocations.push ⟨classes.nameOf m.owner, m.name⟩ } }

/-- With room on the call stack, a turn evaluates the body of the destructor as the instance, once. -/
theorem body_of_turn {classes : Registry} (hturn : runDestructor (.ofBudget (n + 1)) r v = (.ok (), u))
    (hfound : Registry.resolve (v.heap.classOf r) destructorName none v.classes = (.ok m, classes))
    (hroom : v.callStack.depth < v.callStack.maxDepth) : ∃ result u',
      attempt (runMember (.ofBudget n) r m []) (v.enteringDestructor r m classes) = (.ok result, u') := by
  rw [runDestructor, get_bind, bind_of_ok (attempt_of_ok (onClasses_of_ok hfound))] at hturn
  obtain ⟨_, v₁, hretain, hturn⟩ := exists_of_bind_eq_ok hturn
  obtain rfl : { v with classes, heap := v.heap.retain (.object r) } = v₁ := (Prod.mk.inj hretain).2
  obtain ⟨result, v₂, hinvoke, -⟩ := exists_of_bind_eq_ok hturn
  have hpush := (CallStack.push_eq_ok_iff (i := ⟨classes.nameOf m.owner, m.name⟩)).mpr ⟨hroom, rfl⟩
  obtain ⟨leave, hentered⟩ : ∃ leave, invokeMember (.ofBudget n) r m []
      { v with classes, heap := v.heap.retain (.object r) } =
        (attempt (runMember (.ofBudget n) r m []) >>= leave) (v.enteringDestructor r m classes) := by
    rw [invokeMember, get_bind, withInvocation, get_bind]
    dsimp only
    rw [hpush]
    exact ⟨_, rfl⟩
  rcases hrun : runMember (.ofBudget n) r m [] (v.enteringDestructor r m classes) with ⟨(e | _) | value, u'⟩
  · exact ⟨.error e, u', attempt_of_raised hrun⟩
  · have hstopped : attempt (invokeMember (.ofBudget n) r m []) { v with classes, heap := v.heap.retain (.object r) } =
        (.error .exhausted, u') :=
      attempt_of_exhausted (hentered.trans (bind_of_error (attempt_of_exhausted hrun)))
    cases hinvoke.symm.trans hstopped
  · exact ⟨.ok value, u', attempt_of_ok hrun⟩

end

/-- An instance whose class has a destructor when it is made comes on the queue with the last reference to it, and is
not freed without that.  When the queue is drained next, it has a turn while it is alive, and if there is room on the
call stack its turn evaluates the body of the member that dispatch then finds. -/
theorem armed_instance_has_turn (hw : Reached owned w) :
    (∀ c slots r w', allocate c slots w = (.ok r, w') → w'.heap.object? r = some
      { classId := c, payload := .plain, slots := slots.toArray, armed := w.classes.hasDestructor c }) ∧
    (w.heap.reaping = true → ∀ r o, w.heap.object? r = some o → o.armed = true → o.destructed = false →
      0 < o.count ∧ (o.count = 1 →
        (w.release [.object r]).heap.due = w.heap.due.push r ∧ (w.release [.object r]).isAlive r = true)) ∧
    (w.draining = false → ∀ n total w', runDestructors (.ofBudget (n + 1)) w = (.ok total, w') →
      ∀ r ∈ w.heap.due.toList, ∃ before rest v u,
        Draining (.ofBudget (n + 1)) { w with draining := true } before (r :: rest) v ∧ v.isAlive r = true ∧
        runDestructor (.ofBudget (n + 1)) r v = (.ok (), u) ∧
        ∀ m classes, Registry.resolve (v.heap.classOf r) destructorName none v.classes = (.ok m, classes) →
          v.callStack.depth < v.callStack.maxDepth → ∃ result u',
            attempt (runMember (.ofBudget n) r m []) (v.enteringDestructor r m classes) = (.ok result, u')) := by
  refine ⟨fun c slots r w' hmade ↦ ?_, fun hreaping r o ho harmed hnew ↦ ⟨?_, fun hlast ↦ ?_⟩,
    fun hidle n total w' hrun r hr ↦ ?_⟩
  · cases hmade
    exact Heap.object?_newObject_self ..
  · exact hw.guarded hreaping r o ho harmed hnew
  · rw [World.isAlive, World.release, Heap.release_last ho harmed hnew hlast hreaping]
    refine ⟨rfl, decide_eq_true ?_⟩
    have hmarked := Heap.object?_modifyObject w.heap r r fun o ↦ { o with destructed := true }
    rw [if_pos rfl, ho] at hmarked
    show 0 < ((Heap.object? (w.heap.modifyObject r fun o ↦ { o with destructed := true }) r).map Object.count).getD 0
    rw [hmarked, Option.map_some, Option.map_some, Option.getD_some, hlast]
    exact Nat.one_pos
  · obtain ⟨before, rest, v, u, hdrain, hturn⟩ := exists_turn_of_due hidle hrun hr
    obtain ⟨σ, hsane⟩ := hw.sane
    have hbegun : Sane σ owned { w with draining := true } := hsane.unconcerned rfl rfl rfl rfl rfl rfl
    have hwaits := hdrain.sane (Engine.careful_ofBudget (n + 1)) hbegun
    exact ⟨before, rest, v, u, hdrain, hwaits.isAlive List.mem_cons_self, hturn, fun m classes hfound hroom ↦
      body_of_turn hturn hfound hroom⟩

theorem armed_instance_has_turn_due : ∃ w, Reached [] w ∧ w.heap.due = #[⟨1⟩] ∧
    ∀ n total w', runDestructors (.ofBudget (n + 1)) w = (.ok total, w') →
      ∃ v u, v.isAlive ⟨1⟩ = true ∧ runDestructor (.ofBudget (n + 1)) ⟨1⟩ v = (.ok (), u) := by
  obtain ⟨w, hw, hdue, hdraining⟩ := Reached.exists_due
  obtain ⟨-, -, hturns⟩ := armed_instance_has_turn hw
  refine ⟨w, hw, hdue, fun n total w' hrun ↦ ?_⟩
  obtain ⟨-, -, v, u, -, halive, hturn, -⟩ := hturns hdraining n total w' hrun ⟨1⟩ (by simp [hdue])
  exact ⟨v, u, halive, hturn⟩

/-- A destructor that the class gets when the instance is there already never becomes due. -/
theorem not_every_destructor_is_due : ¬ ∀ owned w, Reached owned w → w.heap.reaping = true →
    ∀ r o, .object r ∈ owned → w.heap.object? r = some o → o.count = 1 → o.destructed = false →
      (∃ m, w.classes.search o.classId destructorName = some m) → r ∈ (w.release [.object r]).heap.due.toList := by
  intro hall
  obtain ⟨w, hw, hreaping, hdue, hsearch, ho⟩ := Reached.exists_late
  have hunlink : w.heap.unlink (.object ⟨1⟩) =
      (some [], w.heap.modifyObject ⟨1⟩ fun o ↦ { o with count := o.count - 1 }) := by
    simp only [Heap.unlink, ho]
    rfl
  have hrelease : w.heap.release [.object ⟨1⟩] = w.heap.modifyObject ⟨1⟩ fun o ↦ { o with count := o.count - 1 } := by
    rw [Heap.release, Heap.releaseWithin, Heap.unlinkUntilFreed, hunlink]
    rfl
  have hmem := hall _ w hw hreaping ⟨1⟩ _ List.mem_cons_self ho rfl rfl hsearch
  have hkept : (w.release [.object ⟨1⟩]).heap.due = w.heap.due := by
    rw [World.release, hrelease]
    rfl
  rw [hkept, hdue] at hmem
  cases hmem

end MindScript
