import MindScript.Proofs.Balance
import MindScript.Proofs.Class.Dispatch
import MindScript.Proofs.Same

/-!
# Counts and budgets make no difference

An action refines another one if, wherever it ends within its budget, the other one ends in the same way,
also in a world with other counts.  Actions that are built alike refine one another as soon as the calls of
their engines do; by induction on the budget, the engine of a budget refines those of all larger ones.

Along with this goes what an action leaves as it was: the step under way and, unless it is a single task of
a step, the context of the running code with its scopes.
-/

namespace MindScript

namespace Machine

/-- Wherever the first action ends within its budget, the second one ends alike. -/
def Refines {α : Type} (σ : Setting) (f g : Machine α) : Prop :=
  ∀ ⦃w w₁ r w'⦄, σ.Holds w → w.Same w₁ → f w = (r, w') → r ≠ .error .exhausted →
    ∃ w₁', g w₁ = (r, w₁') ∧ w'.Same w₁' ∧ Onward σ.scoping w w'

namespace Refines

variable {σ : Setting} {α β : Type} {f g : Machine α}

/-! ### Ways of going on -/

theorem pure (a : α) : Refines σ (pure a) (pure a) := by
  intro w w₁ r w' _ hs hf _
  obtain ⟨rfl, rfl⟩ := Prod.mk.inj hf
  exact ⟨w₁, rfl, hs, .refl w⟩

theorem raise (e : EvalError) : Refines σ (raise e : Machine α) (raise e) := by
  intro w w₁ r w' _ hs hf _
  obtain ⟨rfl, rfl⟩ := Prod.mk.inj hf
  exact ⟨w₁, rfl, hs, .refl w⟩

theorem exhausted (g : Machine α) : Refines σ exhausted g := by
  intro w w₁ r w' _ _ hf hne
  exact absurd (Prod.mk.inj hf).1.symm hne

theorem bind {F G : α → Machine β} (h : Refines σ f g) (hF : ∀ a, Refines σ (F a) (G a)) :
    Refines σ (f >>= F) (g >>= G) := by
  intro w w₁ r w' hw hs hrun hne
  rcases hf : f w with ⟨i | a, w₀⟩
  · rw [bind_of_error hf] at hrun
    obtain ⟨rfl, rfl⟩ := Prod.mk.inj hrun
    have hi : (.error i : Except Interrupt α) ≠ .error .exhausted := fun heq ↦ hne (by cases heq; rfl)
    obtain ⟨w₁', hg, hs', hon⟩ := h hw hs hf hi
    exact ⟨w₁', bind_of_error hg, hs', hon⟩
  · rw [bind_of_ok hf] at hrun
    obtain ⟨w₁', hg, hs', hon⟩ := h hw hs hf (by simp)
    obtain ⟨w₂, hG, hs₂, hon₂⟩ := hF a (hw.onward hon) hs' hrun hne
    exact ⟨w₂, (bind_of_ok hg).trans hG, hs₂, hon.trans hon₂⟩

theorem read {F G : World → Machine α} (hG : ∀ w, G w.bare = G w)
    (h : ∀ w, σ.Holds w → Refines { σ with minds := w.minds.size } (F w) (G w)) :
    Refines σ (get >>= F) (get >>= G) := by
  intro w w₁ r w' hw hs hrun hne
  obtain ⟨w₁', hg, hs', hon⟩ := h w hw ⟨hw.current, Nat.le_refl _, hw.rooted⟩ hs hrun hne
  refine ⟨w₁', ?_, hs', hon⟩
  rw [Machine.get_bind, hs.read hG]
  exact hg

/-- As `read`, for actions that the setting has no part in. -/
theorem get_bind {F G : World → Machine α} (hG : ∀ w, G w.bare = G w) (h : ∀ w, Refines σ (F w) (G w)) :
    Refines σ (get >>= F) (get >>= G) := by
  intro w w₁ r w' hw hs hrun hne
  obtain ⟨w₁', hg, hrest⟩ := h w hw hs hrun hne
  refine ⟨w₁', ?_, hrest⟩
  rw [Machine.get_bind, hs.read hG]
  exact hg

theorem attempt (h : Refines σ f g) : Refines σ (attempt f) (attempt g) := by
  intro w w₁ r w' hw hs hrun hne
  rcases hf : f w with ⟨result, w₀⟩
  match result with
  | .ok a =>
    rw [attempt_of_ok hf] at hrun
    obtain ⟨rfl, rfl⟩ := Prod.mk.inj hrun
    obtain ⟨w₁', hg, hrest⟩ := h hw hs hf (by simp)
    exact ⟨w₁', attempt_of_ok hg, hrest⟩
  | .error (.raised e) =>
    rw [attempt_of_raised hf] at hrun
    obtain ⟨rfl, rfl⟩ := Prod.mk.inj hrun
    obtain ⟨w₁', hg, hrest⟩ := h hw hs hf (by simp)
    exact ⟨w₁', attempt_of_raised hg, hrest⟩
  | .error .exhausted =>
    rw [attempt_of_exhausted hf] at hrun
    exact absurd (Prod.mk.inj hrun).1.symm hne

/-- An action that ends in every world, and sees and does the same in worlds that are the same. -/
theorem same (hsame : ∀ {w w'}, World.Same w w' → (f w').1 = (f w).1 ∧ World.Same (f w).2 (f w').2)
    (hon : ∀ w, Onward σ.scoping w (f w).2) : Refines σ f f := by
  intro w w₁ r w' _ hs hrun _
  obtain ⟨hr, hs'⟩ := hsame hs
  rw [hrun] at hr hs'
  have hw := hon w
  rw [hrun] at hw
  exact ⟨(f w₁).2, Prod.ext hr rfl, hs', hw⟩

theorem change {F : World → World} (hsame : ∀ {w w'}, World.Same w w' → World.Same (F w) (F w'))
    (hon : ∀ w, Onward σ.scoping w (F w)) : Refines σ (modify F) (modify F) :=
  same (fun hs ↦ ⟨rfl, hsame hs⟩) hon

theorem changeGet {F : World → α × World}
    (hsame : ∀ {w w'}, World.Same w w' → (F w').1 = (F w).1 ∧ World.Same (F w).2 (F w').2)
    (hon : ∀ w, Onward σ.scoping w (F w).2) : Refines σ (modifyGet F) (modifyGet F) :=
  same (fun hs ↦ ⟨congrArg Except.ok (hsame hs).1, (hsame hs).2⟩) hon

theorem onHeap {F : Heap → α × Heap}
    (hsame : ∀ {h h'}, Heap.Same h h' → (F h').1 = (F h).1 ∧ Heap.Same (F h).2 (F h').2) :
    Refines σ (onHeap F) (onHeap F) :=
  same (fun hs ↦ ⟨congrArg Except.ok (hsame hs.heap).1, hs.withHeap (hsame hs.heap).2⟩)
    fun w ↦ .heap w _

theorem withContext (h : Refines σ f g) (c : Context) : Refines σ (withContext c f) (withContext c g) := by
  intro w w₁ r w' hw hs hrun hne
  have happly (f : Machine α) (w : World) :
      Machine.withContext c f w = (Machine.attempt f >>= fun r ↦ do
        let after := (← get).context
        modify fun v ↦ { v with context := w.context }
        return (r, after)) { w with context := c } := rfl
  rw [happly] at hrun ⊢
  have hin : σ.Holds { w with context := c } := ⟨hw.current, hw.minds, hw.rooted.1, hw.rooted.2⟩
  obtain ⟨result, w₀, hf, hrest⟩ := bind_calm (Calm.attempt f) hrun hne
  obtain ⟨rfl, rfl⟩ := Prod.mk.inj hrest
  obtain ⟨w₁', hg, hs', hon⟩ := h.attempt hin (hs.withContext c) hf (by simp)
  refine ⟨{ w₁' with context := w.context }, ?_, hs'.withContext _, ?_⟩
  · rw [bind_of_ok hg, hs.context]
    exact Prod.ext (congrArg (fun c ↦ Except.ok (result, c)) hs'.context) rfl
  · exact ⟨hon.current, hon.defaultMind, hon.minds, fun _ ↦ rfl⟩

theorem releaseLinks (ls : List Link) : Refines σ (releaseLinks ls) (releaseLinks ls) :=
  change (fun hs ↦ hs.release ls ls) fun w ↦ .heap w _

theorem setCallStack (F : World → CallStack) (hF : ∀ w, F w.bare = F w) :
    Refines σ (modify fun w ↦ { w with callStack := F w }) (modify fun w ↦ { w with callStack := F w }) := by
  refine change (fun hs ↦ ?_) fun w ↦ ⟨rfl, rfl, Nat.le_refl _, fun _ ↦ rfl⟩
  rw [hs.read hF]
  exact hs.withCallStack _

theorem withInvocation (h : Refines σ f g) (i : Invocation) (held : List Ref) :
    Refines σ (withInvocation i held f) (withInvocation i held g) := by
  refine get_bind (fun _ ↦ rfl) fun w ↦ ?_
  split
  · exact (releaseLinks _).bind fun _ ↦ raise _
  · refine (setCallStack _ fun _ ↦ rfl).bind fun _ ↦ h.attempt.bind fun result ↦ ?_
    refine get_bind (fun _ ↦ rfl) fun w ↦ (setCallStack _ fun _ ↦ rfl).bind fun _ ↦ ?_
    cases result with
    | ok a => exact pure a
    | error e => exact raise _

/-- A search among the classes remembers its answer and changes nothing else. -/
theorem onClasses {act : Registry.Action α} (hact : ∀ r, (act r).2.classes = r.classes) :
    Refines σ (onClasses act) (onClasses act) := by
  have happly (w : World) : ∃ r, Machine.onClasses act w = (r, { w with classes := (act w.classes).2 }) ∧
      ∀ w' : World, w'.classes = w.classes →
        Machine.onClasses act w' = (r, { w' with classes := (act w.classes).2 }) := by
    unfold Machine.onClasses
    rcases hr : act w.classes with ⟨_ | _, classes⟩
    · exact ⟨_, rfl, fun w' hw' ↦ by rw [hw', hr]⟩
    · exact ⟨_, rfl, fun w' hw' ↦ by rw [hw', hr]⟩
  refine same (fun {w w'} hs ↦ ?_) fun w ↦ (level_onClasses act w).toOnward
  obtain ⟨r, hw, hw'⟩ := happly w
  rw [hw, hw' w' hs.classes]
  refine ⟨rfl, ⟨⟨fun c ↦ ?_, hs.inert.heap⟩, congrArg (fun b : World ↦ { b with classes := (act w.classes).2 })
    hs.bare⟩⟩
  show (((act w.classes).2.classes.getD c.index default).hasDestructor) = false
  rw [hact]
  exact hs.inert.classes c

/-! ### Scopes -/

/-- A change of the heap along with the scopes of the running code. -/
theorem same_scopes {F : Environment → Heap → Environment × Heap}
    (hF : ∀ e {h h'}, Heap.Same h h' → (F e h').1 = (F e h).1 ∧ Heap.Same (F e h).2 (F e h').2)
    {w w' : World} (hs : w.Same w') :
    World.Same { w with heap := (F w.context.env w.heap).2, context := { w.context with
        env := (F w.context.env w.heap).1 } }
      { w' with heap := (F w'.context.env w'.heap).2, context := { w'.context with
        env := (F w'.context.env w'.heap).1 } } := by
  obtain ⟨henv, hheap⟩ := hF w.context.env hs.heap
  rw [hs.context, henv]
  exact (hs.withHeap hheap).withContext _

theorem same_pushScope {w w' : World} (hs : w.Same w') : (pushScope w).2.Same (pushScope w').2 :=
  same_scopes (F := fun e h ↦ e.push h) (fun e _ _ hs ↦ hs.push e) hs

theorem same_popScope {w w' : World} (hs : w.Same w') : (popScope w).2.Same (popScope w').2 :=
  same_scopes (F := fun e h ↦ e.pop h) (fun e _ _ hs ↦ hs.pop e) hs

theorem same_truncateScopes {w w' : World} (hs : w.Same w') (depth : Nat) :
    (truncateScopes depth w).2.Same (truncateScopes depth w').2 :=
  same_scopes (F := fun e h ↦ e.truncate h depth) (fun e _ _ hs ↦ ⟨rfl, hs.truncate e depth⟩) hs

theorem inScope {f g : Machine Ref} (h : Refines σ f g) : Refines σ (inScope f) (inScope g) := by
  intro w w₁ r w' hw hs hrun hne
  have happly (f : Machine Ref) (w : World) : Machine.inScope f w =
      (Machine.attempt f >>= fun r ↦ popScope >>= fun _ ↦ Machine.ofExcept r) (pushScope w).2 := rfl
  have hpop (r : Except EvalError Ref) (w : World) : (popScope >>= fun _ ↦ Machine.ofExcept r) w =
      ((Machine.ofExcept r w).1, (popScope w).2) := by
    cases r <;> rfl
  have hend (r : Except EvalError Ref) (w w' : World) :
      (Machine.ofExcept r w).1 = (Machine.ofExcept r w').1 := by
    cases r <;> rfl
  rw [happly] at hrun ⊢
  have hin : σ.Holds (pushScope w).2 := ⟨hw.current, hw.minds, hw.rooted.1, hw.rooted.2⟩
  obtain ⟨result, w₀, hf, hrest⟩ := bind_calm (Calm.attempt f) hrun hne
  rw [hpop] at hrest
  obtain ⟨rfl, rfl⟩ := Prod.mk.inj hrest
  obtain ⟨w₁', hg, hs', hon⟩ := h.attempt hin (same_pushScope hs) hf (by simp)
  refine ⟨(popScope w₁').2, ?_, same_popScope hs', hon.current, hon.defaultMind, hon.minds, fun hsc ↦ ?_⟩
  · rw [bind_of_ok hg, hpop, hend]
  · have hcontext : w₀.context = (pushScope w).2.context := hon.context hsc
    show { w₀.context with env := (w₀.context.env.pop w₀.heap).1 } = w.context
    rw [hcontext]
    exact congrArg (fun env ↦ { w.context with env }) (Environment.pop_push _ w.heap w₀.heap)

theorem rescue {f g : Machine Ref} {F G : EvalError → Machine Ref} (h : Refines σ f g)
    (hF : ∀ e, Refines σ (F e) (G e)) (catches : EvalError → Bool) :
    Refines σ (rescue f catches F) (rescue g catches G) := by
  intro w w₁ r w' hw hs hrun hne
  rw [Machine.rescue, Machine.get_bind] at hrun ⊢
  obtain ⟨result, w₀, hf, hrest⟩ := bind_calm (Calm.attempt f) hrun hne
  obtain ⟨w₁', hg, hs', hon⟩ := h.attempt hw hs hf (by simp)
  rw [bind_of_ok hg]
  cases result with
  | ok value =>
    obtain ⟨rfl, rfl⟩ := Prod.mk.inj hrest
    exact ⟨w₁', rfl, hs', hon⟩
  | error e =>
    dsimp only at hrest ⊢
    cases hcatch : catches e with
    | false =>
      simp only [hcatch] at hrest ⊢
      obtain ⟨rfl, rfl⟩ := Prod.mk.inj hrest
      exact ⟨w₁', rfl, hs', hon⟩
    | true =>
      simp only [hcatch] at hrest ⊢
      have hcut : Onward σ.scoping w (truncateScopes w.context.env.depth w₀).2 := by
        refine ⟨hon.current, hon.defaultMind, hon.minds, fun hsc ↦ ?_⟩
        have hcontext : w₀.context = w.context := hon.context hsc
        show { w₀.context with env := (w₀.context.env.truncate w₀.heap w.context.env.depth).1 } = w.context
        rw [hcontext, Environment.truncate_depth]
      obtain ⟨w₂, hG, hs₂, hon₂⟩ := hF e (hw.onward hcut) (same_truncateScopes hs' _) hrest hne
      refine ⟨w₂, ?_, hs₂, hcut.trans hon₂⟩
      rw [hs.context]
      exact hG

end Refines

/-! ### Basic actions -/

theorem classes_resolve (r : Registry) (c : ClassId) (name : String) (qualifier : Option ClassId) :
    (Registry.resolve c name qualifier r).2.classes = r.classes := by
  rcases r.resolve_cases c name qualifier with ⟨start, h⟩ | ⟨note, h⟩ <;> rw [h]
  exact r.classes_find start name

theorem Refines.store {σ : Setting} (name : String) (value : Ref) (place : Place) :
    Refines σ (store name value place) (store name value place) := by
  cases place with
  | binding s => exact .change (fun hs ↦ hs.withHeap ((hs.heap.define rfl name value).release _ _)) fun w ↦ .heap w _
  | slot owner i =>
    refine .change (fun hs ↦ ?_) fun w ↦ .heap w _
    refine hs.withHeap ((hs.heap.modifyObject (fun _ ↦ ?_) (fun _ ↦ ?_) owner).release _ _)
    · rfl
    · rfl
  | classDatum c i =>
    refine .change (fun {w w'} hs ↦ World.Same.release ?_ _ _) fun w ↦ ⟨rfl, rfl, Nat.le_refl _, fun _ ↦ rfl⟩
    refine ⟨⟨fun d ↦ ?_, hs.inert.heap⟩, ?_⟩
    · exact (w.classes.hasDestructor_setClassData ..).trans (hs.inert.classes d)
    · exact congrArg (fun b : World ↦ { b with classes := (b.classes.setClassData c i value).2 }) hs.bare

theorem Refines.allocate {σ : Setting} (c : ClassId) (slots : List Ref) :
    Refines σ (allocate c slots) (allocate c slots) := by
  let new (armed : Bool) : Object := { classId := c, payload := .plain, slots := slots.toArray, armed }
  have happly (w : World) : Machine.allocate c slots w =
      Machine.onHeap (fun h ↦ h.newObject (new (w.classes.hasDestructor c))) w := rfl
  refine .same (fun {w w'} hs ↦ ?_) fun w ↦ .heap w _
  obtain ⟨hr, hheap⟩ := hs.heap.newObject (o := new (w.classes.hasDestructor c)) (hs.inert.classes c)
  rw [happly, happly, hs.classes]
  exact ⟨congrArg Except.ok hr, hs.withHeap hheap⟩

theorem Refines.createMind {σ : Setting} (name : String) :
    Refines σ (modifyGet fun w ↦ w.createMind name) (modifyGet fun w ↦ w.createMind name) := by
  refine .changeGet (fun hs ↦ ⟨?_, ?_⟩) fun w ↦ ⟨rfl, rfl, ?_, fun _ ↦ rfl⟩
  · exact congrArg (fun minds : Array Mind ↦ MindId.mk minds.size) hs.minds
  · exact hs.change (F := fun w ↦ (w.createMind name).2) (fun _ ↦ rfl) (fun _ ↦ rfl) fun _ ↦ rfl
  · simp [World.createMind]

/-- Every basic action refines itself. -/
theorem Basic.refines {σ : Setting} {α : Type} {f : Machine α} (h : Basic σ f) : Refines σ f f := by
  have hon (w : World) : Onward σ.scoping w (f w).2 := (h.level w).toOnward
  cases h with
  | retainLink l => exact .change (fun hs ↦ hs.retain l) hon
  | releaseLinks ls => exact .releaseLinks ls
  | newValue c p => exact .onHeap fun hs ↦ hs.newObject rfl
  | allocate c slots => exact .allocate c slots
  | disarm r =>
    refine .change (fun hs ↦ hs.withHeap (hs.heap.modifyObject (fun _ ↦ ?_) (fun _ ↦ ?_) r)) hon
    · rfl
    · rfl
  | newScope => exact .onHeap fun hs ↦ hs.root
  | chainedScope s => exact .onHeap fun hs ↦ hs.chained s
  | pushScope _ => exact .same (fun hs ↦ ⟨rfl, Refines.same_pushScope hs⟩) hon
  | popScope _ => exact .same (fun hs ↦ ⟨rfl, Refines.same_popScope hs⟩) hon
  | truncateScopes _ depth => exact .same (fun hs ↦ ⟨rfl, Refines.same_truncateScopes hs depth⟩) hon
  | define name value =>
    refine .change (fun hs ↦ hs.withHeap ((hs.heap.define ?_ name value).release _ _)) hon
    rw [hs.context]
  | store name value place => exact .store name value place
  | setItems r s =>
    refine .change (fun hs ↦ hs.withHeap (hs.heap.modifyObject (fun _ ↦ ?_) (fun _ ↦ ?_) r)) hon
    · rfl
    · rfl
  | modifyItems r F => exact .change (fun hs ↦ hs.withHeap (hs.heap.modifyItems r F)) hon
  | findMember c name => exact .onClasses fun r ↦ r.classes_find c name
  | resolve c name qualifier => exact .onClasses fun r ↦ classes_resolve r c name qualifier
  | register m name owner parent frame _ _ => exact .changeGet (fun hs ↦ hs.register ..) hon
  | deferFrame m name owner parent frame _ _ =>
    have hregister (w : World) : Onward σ.scoping w (w.register m name owner parent frame).2 :=
      (Level.of_inward (w.inward_register ..)).toOnward
    have hdefer (h : Handle) (w : World) : Onward σ.scoping w (defer m h.frame w).2 :=
      (Level.of_inward (w.inward_modifyMind m _)).toOnward
    exact Refines.bind (.changeGet (fun hs ↦ hs.register ..) hregister) fun h ↦
      Refines.bind (.change (fun hs ↦ hs.modifyMind m _) (hdefer h)) fun _ ↦ .pure h
  | settleMind m => exact .change (fun hs ↦ hs.settleMind m) hon
  | stop x => exact .change (fun hs ↦ hs.stop x) hon
  | stopAll m => exact .change (fun hs ↦ hs.stopAll m) hon
  | stopAllFor r => exact .change (fun hs ↦ hs.stopAllFor r) hon
  | detachChildren m id => exact .change (fun hs ↦ hs.detachChildren m id) hon
  | notify m event payload => exact .changeGet (fun hs ↦ hs.notify m event payload) hon
  | createMind name => exact .createMind name
  | setSuspended m suspended => exact .change (fun hs ↦ hs.modifyMind m _) hon
  | setUpdateInterval x seconds => exact .change (fun hs ↦ hs.modifyMind x.mind _) hon
  | @popReady m _ =>
    refine .changeGet (fun hs ↦ ?_) hon
    rw [hs.mind?]
    split
    · exact ⟨rfl, hs.modifyMind m _⟩
    · exact ⟨rfl, hs⟩
  | @popPending m _ =>
    refine .changeGet (fun hs ↦ ?_) hon
    rw [hs.mind?]
    split
    · exact ⟨rfl, hs.modifyMind m _⟩
    · exact ⟨rfl, hs⟩
  | @beginUpdate m _ elapsed => exact .change (fun hs ↦ hs.modifyMind m _) hon
  | @endUpdate m _ => exact .change (fun hs ↦ (hs.sweep m).modifyMind m _) hon
  | takeDue => exact .onHeap fun hs ↦ hs.takeDue
  | setDraining draining =>
    refine .change (fun hs ↦ ?_) hon
    exact hs.change (F := fun w ↦ { w with draining }) (fun _ ↦ rfl) (fun _ ↦ rfl) fun _ ↦ rfl
  | writeDown run line =>
    refine .change (fun {w w'} hs ↦ ?_) hon
    rw [hs.read World.view_bare]
    exact hs.change (F := fun v ↦ { v with journal := v.journal.push (line.map fun r ↦ w.view (run.value r)) })
      (fun _ ↦ rfl) (fun _ ↦ rfl) fun _ ↦ rfl

theorem Refines.whenIdle {σ : Setting} {f g : Machine Nat} (m : MindId)
    (h : Refines { σ with pumping := some m } f g) : Refines σ (whenIdle m f) (whenIdle m g) := by
  refine get_bind (fun _ ↦ rfl) fun w ↦ ?_
  cases w.mind? m with
  | none => exact pure 0
  | some mind =>
    dsimp only
    split
    · exact pure 0
    · intro w w₁ r w' hw hs hrun hne
      exact h ⟨hw.current, hw.minds, hw.rooted⟩ hs hrun hne

/-! ### Steps -/

theorem Refines.stepInvocation {σ : Setting} {E E' : Engine} {m : MindId} {id : FrameId} {frame : Frame}
    {delivered : Option Ref}
    (h : Refines σ (stepBody E m id frame delivered) (stepBody E' m id frame delivered)) (i : Invocation) :
    Refines σ (stepInvocation E m id i frame delivered) (stepInvocation E' m id i frame delivered) := by
  refine get_bind (fun _ ↦ rfl) fun w ↦ ?_
  split
  · exact pure _
  · exact (setCallStack _ fun _ ↦ rfl).bind fun _ ↦ h.attempt.bind fun _ ↦ get_bind (fun _ ↦ rfl) fun _ ↦
      (setCallStack _ fun _ ↦ rfl).bind fun _ ↦ pure _

/-- A step of a frame: whatever its body does to the context, the caller finds its own again. -/
theorem refines_runFrame {σ : Setting} {E E' : Engine} {m : MindId} {id : FrameId} {entry : FrameEntry}
    {frame : Frame} (hbody : Refines { σ with current := some (m, id), scoping := true }
      (stepBody E m id frame entry.delivered) (stepBody E' m id frame entry.delivered))
    {w w₁ w' : World} {r : Except Interrupt Unit} (hw : σ.Holds w) (hm : m.index < w.minds.size)
    (hs : w.Same w₁) (hrun : runFrame E m id entry frame w = (r, w')) (hne : r ≠ .error .exhausted) :
    ∃ w₁', runFrame E' m id entry frame w₁ = (r, w₁') ∧ w'.Same w₁' ∧ Onward σ.scoping w w' := by
  rw [runFrame_apply] at hrun ⊢
  have hin := hw.takeFrame hm id entry frame
  obtain ⟨⟨body, step, unused⟩, w₀, hstep, hrest⟩ := bind_calm (Calm.stepInvocation E m id _ frame _) hrun hne
  obtain ⟨rfl, rfl⟩ := Prod.mk.inj hrest
  obtain ⟨w₁', hstep', hs', hon⟩ := (hbody.stepInvocation _) hin (hs.takeFrame m id entry frame) hstep (by simp)
  let after := { frame with context := w₀.context, body, updateCount := frame.updateCount + 1 }
  have hreturn := (hs'.enter w.context w.current).returnFrame m id after step
  refine ⟨_, ?_, hreturn.release (unused.map .object) (unused.map .object), ?_⟩
  · rw [hs.classes, bind_of_ok hstep', hs.context, hs.current]
    show (Except.ok (), (World.returnFrame _ m id { frame with context := w₁'.context, body, updateCount := _ } step).release _) = _
    rw [hs'.context]
  · have hinward := World.inward_returnFrame (w₀.enter w.context w.current) m id after step
    refine ⟨hinward.current, hinward.defaultMind.trans hon.defaultMind, ?_, fun _ ↦ hinward.context⟩
    have hminds : w.minds.size ≤ w₀.minds.size := by
      rw [← World.size_minds_takeFrame w m id entry frame]
      exact hon.minds
    exact Nat.le_trans hminds (Nat.le_of_eq hinward.minds.symm)

theorem Refines.resumeFrame {σ : Setting} {E E' : Engine} {m : MindId} {id : FrameId}
    (hbody : ∀ frame delivered, Refines { σ with current := some (m, id), scoping := true }
      (stepBody E m id frame delivered) (stepBody E' m id frame delivered)) :
    Refines σ (resumeFrame E m id) (resumeFrame E' m id) := by
  intro w w₁ r w' hw hs hrun hne
  have hidle : Refines σ (Pure.pure () : Machine Unit) (Pure.pure ()) := pure ()
  rw [Machine.resumeFrame, Machine.get_bind] at hrun ⊢
  rw [hs.entryAt, hs.isFinished]
  cases he : w.entryAt m id with
  | none =>
    simp only [he] at hrun
    exact hidle hw hs hrun hne
  | some entry =>
    cases hu : w.isFinished entry.handle with
    | true =>
      simp only [he, hu] at hrun ⊢
      exact hidle hw hs hrun hne
    | false =>
      cases hframe : entry.frame with
      | none =>
        simp only [he, hu, hframe] at hrun ⊢
        exact hidle hw hs hrun hne
      | some frame =>
        simp only [he, hu, hframe] at hrun ⊢
        obtain ⟨mind, hmind, -⟩ := Option.bind_eq_some_iff.mp he
        have hm : m.index < w.minds.size := (Array.getElem?_eq_some_iff.mp hmind).1
        exact refines_runFrame (hbody frame entry.delivered) hw hm hs hrun hne

end Machine

/-! ### Engines -/

/-- The calls of the first engine refine those of the second. -/
structure Engine.Refines (E E' : Engine) : Prop where
  budget : E.budget ≤ E'.budget
  eval : ∀ σ id, Machine.Refines σ (E.eval id) (E'.eval id)
  invoke : ∀ σ this m args, Machine.Refines σ (E.invoke this m args) (E'.invoke this m args)
  resume : ∀ σ m id, Machine.Refines σ (E.resume m id) (E'.resume m id)

open Machine in
theorem Machine.Alike.refines {E E' : Engine} (hE : E.Refines E') {σ : Setting} {α : Type} {f g : Machine α}
    (h : Alike E E' σ f g) : Refines σ f g := by
  induction h with
  | basic hbasic => exact hbasic.refines
  | pure a => exact .pure a
  | raise e => exact .raise e
  | exhausted g _ => exact .exhausted g
  | bind _ _ ihf ihF => exact ihf.bind ihF
  | read _ hG _ ih => exact .read hG ih
  | attempt _ ih => exact ih.attempt
  | withContext c _ ih => exact ih.withContext c
  | withInvocation i held _ ih => exact ih.withInvocation i held
  | inScope _ ih => exact ih.inScope
  | rescue catches _ _ ihf ihF => exact ihf.rescue ihF catches
  | @whenIdle σ _ _ m elapsed _ ih =>
    have hbegin : Basic { σ with pumping := some m } (beginUpdate m elapsed) := .beginUpdate rfl elapsed
    exact (hbegin.refines.bind fun _ ↦ ih).whenIdle m
  | eval id => exact hE.eval _ id
  | invoke this m args => exact hE.invoke _ this m args
  | spawn m name owner parent frame hm hparent hfresh _ ih =>
    exact (Basic.register m name owner parent frame hm hparent hfresh).refines.bind fun h ↦
      (hE.resume _ m h.frame).bind fun _ ↦ ih h
  | resumeDue id isDue _ hbare _ _ _ ih ih' =>
    refine .get_bind (fun w ↦ by simp only [hbare]) fun w ↦ ?_
    split
    · exact (hE.resume _ _ id).bind fun _ ↦ ih
    · exact ih'
  | resumePending hm _ _ ih ih' =>
    refine (Basic.popPending hm).refines.bind fun id? ↦ ?_
    cases id? with
    | none => exact ih
    | some id => exact (hE.resume _ _ id).bind fun _ ↦ ih'

/-- What runs in a step is put together alike over both engines. -/
theorem Engine.Refines.resumeFrame {E E' : Engine} (hE : E.Refines E') (σ : Machine.Setting) (m : MindId) (id : FrameId) :
    Machine.Refines σ (Machine.resumeFrame E m id) (Machine.resumeFrame E' m id) :=
  .resumeFrame fun frame delivered ↦ (Machine.Alike.stepBody rfl hE.budget rfl frame delivered).refines hE

/-- A computation that ends within some budget ends in the same way within every larger one. -/
theorem Engine.refines_ofBudget {n n' : Nat} (hn : n ≤ n') : (Engine.ofBudget n).Refines (.ofBudget n') := by
  induction n generalizing n' with
  | zero =>
    exact ⟨Nat.zero_le _, fun _ _ ↦ .exhausted _, fun _ _ _ _ ↦ .exhausted _, fun _ _ _ ↦ .exhausted _⟩
  | succ n ih =>
    obtain ⟨k, rfl⟩ := Nat.exists_eq_succ_of_ne_zero (Nat.ne_zero_of_lt hn)
    have hk := Nat.le_of_succ_le_succ hn
    have hE := ih hk
    exact ⟨hk, fun _ id ↦ (Machine.Alike.evalNode hE.budget id).refines hE,
      fun _ this m args ↦ (Machine.Alike.invokeMember hE.budget this m args).refines hE,
      hE.resumeFrame⟩

end MindScript
