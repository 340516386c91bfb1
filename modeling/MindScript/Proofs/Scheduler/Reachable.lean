import MindScript.Interpreter
import MindScript.Proofs.Class.Marks
import MindScript.Proofs.Scheduler.Runs

/-!
# Reachable moments

What a host can do with an interpreter, and the moments that it comes to.  Native members may do anything
that a host may; so may whatever runs in the middle of a step.  Every reachable moment is valid.
-/

namespace MindScript

open Machine

/-- The calls that a host makes. -/
inductive HostCall (E : Engine) : {α : Type} → Machine α → Prop where
  | new (c : ClassId) (args : List Ref) : HostCall E (hostNew E c args)
  | evaluate (arena : Arena) (root : ExprId) : HostCall E (hostEvaluate E arena root)
  | invoke (target : Ref) (member : String) (args : List Ref) : HostCall E (hostInvoke E target member args)
  | start (target : Ref) (member : String) (args : List Ref) (m : MindId) (deferred : Bool) :
      HostCall E (hostStart E target member args m deferred)
  | update (m : MindId) (elapsed : Float) : HostCall E (update E m elapsed)
  | runDestructors : HostCall E (runDestructors E)
  | notify (m : MindId) (event : String) (payload : Ref) :
      HostCall E (modifyGet fun w ↦ w.notify m event payload)
  | stop (h : Handle) : HostCall E (modify fun w ↦ w.stop h)
  | stopAll (m : MindId) : HostCall E (modify fun w ↦ w.stopAll m)
  | stopAllFor (r : Ref) : HostCall E (modify fun w ↦ w.stopAllFor r)
  | setSuspended (m : MindId) (suspended : Bool) : HostCall E (modify fun w ↦ w.setSuspended m suspended)
  | setUpdateInterval (h : Handle) (seconds : Float) :
      HostCall E (modify fun w ↦ w.setUpdateInterval h seconds)
  | createMind (name : String) : HostCall E (modifyGet fun w ↦ w.createMind name)
  | takeFailures (m : MindId) : HostCall E (modifyGet fun w ↦ w.takeFailures m)
  | takeHistory (m : MindId) : HostCall E (modifyGet fun w ↦ w.takeHistory m)
  | literal (v : Literal) : HostCall E (literal v)
  | retain (l : Link) : HostCall E (retainLink l)
  | release (ls : List Link) : HostCall E (releaseLinks ls)
  | registerClass (decl : ClassDecl) : HostCall E (registerClass decl)
  | defineMember (c : ClassId) (decl : MemberDecl) : HostCall E (defineMember c decl)
  | teardown : HostCall E (teardown E)

/-- The moments that an interpreter can come to: between host calls, in the middle of them, and after
anything that a native member does in a step. -/
inductive Reachable : Moment → Prop where
  | start (config : Config) : Reachable ⟨[], .new config⟩
  | act {M M' : Moment} : Reachable M → Act M M' → Reachable M'
  | call {s : List FrameKey} {w : World} {α : Type} {f : Machine α} (n : Nat) : Reachable ⟨s, w⟩ →
      HostCall (.ofBudget n) f → (f w).1 ≠ .error .exhausted → Reachable ⟨s, (f w).2⟩

/-! ### Properties of host calls -/

namespace Machine

/-- A property of actions that what only a host does has too: it adds to the classes, takes the history of a Mind, and
ends the interpreter. -/
structure Calling (J : ∀ {α : Type}, Setting → Machine α → Prop) : Prop extends Composite @J where
  onClasses : ∀ {σ : Setting} {α : Type} (act : Registry.Action α), (∀ r : Registry, r.KeepsMarks (act r).2) →
    J σ (onClasses act)
  setClasses : ∀ {σ : Setting} (F : World → Registry), (∀ w : World, w.classes.KeepsMarks (F w)) →
    J σ (modify fun w ↦ { w with classes := F w })
  takeHistory : ∀ {σ : Setting} (m : MindId), J σ (modifyGet fun w ↦ w.takeHistory m)
  retire : ∀ {σ : Setting}, J σ (modify fun w ↦ { w with heap := { w.heap with reaping := false } })

/-- The host also takes the notes of a Mind. -/
structure Hosting (J : ∀ {α : Type}, Setting → Machine α → Prop) : Prop extends Calling @J where
  takeFailures : ∀ {σ : Setting} (m : MindId), J σ (modifyGet fun w ↦ w.takeFailures m)

/-- A property that also a step has if what runs in the step has it. -/
structure Hospitable (J : ∀ {α : Type}, Setting → Machine α → Prop) : Prop extends Compositional @J, Hosting @J

namespace Calling

variable {J : ∀ {α : Type}, Setting → Machine α → Prop} (hJ : Calling J) {σ : Setting} {E : Engine}

include hJ

theorem initClassData (c : ClassId) (data : List ClassDatum) (i : Nat) : J σ (initClassData c data i) := by
  induction data generalizing i with
  | nil => exact hJ.pure ()
  | cons d rest ih =>
    have hzero : Alike (.ofBudget 0) (.ofBudget 0) σ (zeroValue d.valueClass) (zeroValue d.valueClass) :=
      Alike.zeroValue d.valueClass
    exact hJ.bind (hzero.composite hJ.toComposite (Engine.satisfies_empty hJ.toComposite)) fun value ↦
      hJ.bind (hJ.setClasses (fun w ↦ (w.classes.setClassData c i value).2) fun w ↦ .setClassData w.classes c i value)
        fun _ ↦ ih (i + 1)

theorem registerClass (decl : ClassDecl) : J σ (registerClass decl) :=
  hJ.bind (hJ.onClasses _ (.register decl)) fun _ ↦ hJ.look fun _ ↦ hJ.bind (hJ.initClassData _ _ _) fun _ ↦ hJ.pure _

theorem stopMinds (ms : List MindId) : J σ (modify fun w ↦ ms.foldl World.stopAll w) := by
  induction ms with
  | nil => exact hJ.unchanged fun _ ↦ rfl
  | cons m rest ih =>
    have hsplit : (modify fun w ↦ (m :: rest).foldl World.stopAll w : Machine Unit) =
        (modify fun w ↦ w.stopAll m) >>= fun _ ↦ modify fun w ↦ rest.foldl World.stopAll w := rfl
    rw [hsplit]
    exact hJ.bind (hJ.basic (.stopAll (σ := σ) m)) fun _ ↦ ih

theorem teardown (hE : E.Serves @J) : J σ (teardown E) := by
  have hsplit : (modify World.stopEverything : Machine Unit) =
      get >>= fun w ↦ modify fun w' ↦ w.mindIds.foldl World.stopAll w' := rfl
  have hstop : J σ (modify World.stopEverything) := by
    rw [hsplit]
    exact hJ.look fun w ↦ hJ.stopMinds w.mindIds
  have hclear := hJ.setClasses (σ := σ) (fun w ↦ w.classes.clearClassData) fun w ↦ .clearClassData w.classes
  refine hJ.bind hstop fun _ ↦ hJ.look fun _ ↦ hJ.bind hclear fun _ ↦
    hJ.bind (hJ.basic (.releaseLinks (σ := σ) _)) fun _ ↦ hJ.bind ?_ fun _ ↦ hJ.retire
  exact (Alike.runDestructors (Nat.le_refl _)).served hJ.toComposite hE

end Calling

end Machine

/-- The calls of a host have a property that the engine serves. -/
theorem HostCall.served {J : ∀ {α : Type}, Setting → Machine α → Prop} (hJ : Hosting J) {E : Engine}
    (hE : E.Serves @J) {α : Type} {f : Machine α} (h : HostCall E f) (σ : Setting) : J σ f := by
  have hb : E.budget ≤ E.budget := Nat.le_refl _
  have hcomp := hJ.toComposite
  cases h with
  | new c args => exact (Alike.hostNew hb c args).served hcomp hE
  | evaluate arena root => exact (Alike.hostEvaluate hb arena root).served hcomp hE
  | invoke target member args => exact (Alike.hostInvoke hb target member args).served hcomp hE
  | start target member args m deferred =>
    exact (Alike.hostStart hb target member args m deferred).served hcomp hE
  | update m elapsed => exact (Alike.update hb m elapsed).served hcomp hE
  | runDestructors => exact (Alike.runDestructors hb).served hcomp hE
  | notify m event payload => exact hJ.basic (.notify (σ := σ) m event payload)
  | stop x => exact hJ.basic (.stop (σ := σ) x)
  | stopAll m => exact hJ.basic (.stopAll (σ := σ) m)
  | stopAllFor r => exact hJ.basic (.stopAllFor (σ := σ) r)
  | setSuspended m suspended => exact hJ.basic (.setSuspended (σ := σ) m suspended)
  | setUpdateInterval x seconds => exact hJ.basic (.setUpdateInterval (σ := σ) x seconds)
  | createMind name => exact hJ.basic (.createMind (σ := σ) name)
  | takeFailures m => exact hJ.takeFailures m
  | takeHistory m => exact hJ.takeHistory m
  | literal v =>
    have hv : Alike E E σ (Machine.literal v) (Machine.literal v) := Alike.literal v
    exact hv.served hcomp hE
  | retain l => exact hJ.basic (.retainLink (σ := σ) l)
  | release ls => exact hJ.basic (.releaseLinks (σ := σ) ls)
  | registerClass decl => exact hJ.registerClass decl
  | defineMember c decl => exact hJ.onClasses _ (.define c decl)
  | teardown => exact hJ.teardown hE

theorem HostCall.satisfies {J : ∀ {α : Type}, Setting → Machine α → Prop} (hJ : Hospitable J) {E : Engine}
    (hE : E.Satisfies @J) {α : Type} {f : Machine α} (h : HostCall E f) (σ : Setting) : J σ f :=
  h.served hJ.toHosting (hE.serves hJ.toComposite) σ

/-! ### Host calls are runs -/

theorem Machine.Tracked.hospitable : Hospitable Tracked where
  toCompositional := Tracked.compositional
  onClasses act _ := .ofCourse fun s _ ↦ ⟨none, course_onClasses s act⟩
  setClasses _ _ := .ofCourse fun s _ ↦ ⟨none, .of_minds s rfl rfl rfl rfl⟩
  takeFailures m s w _ _ _ := by
    have hdeed : Deed none ⟨s, w⟩ ⟨s, (w.takeFailures m).2⟩ := .compute
      (World.still_modifyMind w m (fun _ ↦ rfl) fun _ ↦ rfl) (World.inward_modifyMind w m _).steady
      (World.tends_modifyMind w m (fun _ ↦ rfl) (fun _ ↦ Nat.le_refl _) fun _ _ ↦ ⟨rfl, rfl, rfl, rfl⟩)
    exact ⟨s, .single ⟨none, hdeed⟩, fun _ ↦ rfl⟩
  takeHistory m := .ofCourse fun s _ ↦ ⟨none, .of_modifyMind s m (fun _ ↦ rfl) (fun _ ↦ rfl) (fun _ ↦ rfl)
    (fun _ ↦ Nat.le_refl _) (fun _ _ ↦ ⟨rfl, rfl, rfl, rfl⟩) fun _ ↦ rfl⟩
  retire := .ofCourse fun s _ ↦ ⟨none, .of_minds s rfl rfl rfl rfl⟩

theorem HostCall.tracked {E : Engine} (hE : E.Tracked) {α : Type} {f : Machine α} (h : HostCall E f)
    (σ : Setting) : Tracked σ f :=
  h.satisfies Tracked.hospitable hE σ

/-! ### Reachable moments are valid -/

theorem sound_of_empty {w : World} (hminds : w.minds = #[]) (houtcomes : w.heap.outcomes = #[]) :
    Sound ∅ [] w := by
  have hmind : ∀ m, w.mind? m = none := fun m ↦ by simp [World.mind?, hminds]
  have hentry : ∀ m id, w.entryAt m id = none := fun m id ↦ by simp [World.entryAt, hmind]
  have hcard : ∀ m id, w.card m id = none := fun m id ↦ by simp [World.card, hentry]
  have hcell : ∀ o, w.cell? o = none := fun o ↦ by simp [World.cell?, Heap.outcome?, houtcomes]
  refine ⟨⟨fun m mind h ↦ ?_, ?_, ?_, ?_⟩, ?_, ?_, ?_, List.nodup_nil, ?_, ?_, ?_⟩
  · simp [hmind] at h
  all_goals simp [hentry, hcard, hcell]

theorem World.card_new (config : Config) (m : MindId) (id : FrameId) : (World.new config).card m id = none := by
  have hempty : ∀ w : World, w.minds = #[] → w.card m id = none := by
    intro w hminds
    simp [World.card, World.entryAt, World.mind?, hminds]
  unfold World.new
  dsimp only
  cases config.defaultMind with
  | none => exact hempty _ rfl
  | some name => exact (congrFun (congrFun (World.card_createMind _ name) m) id).trans (hempty _ rfl)

theorem valid_new (config : Config) : Moment.Valid ⟨[], .new config⟩ := by
  unfold World.new
  dsimp only
  cases config.defaultMind with
  | none => exact ⟨sound_of_empty rfl rfl, rfl, fun m hm ↦ absurd hm.symm (Option.some_ne_none m)⟩
  | some name =>
    refine ⟨((sound_of_empty rfl rfl).createMind name).still ⟨rfl, rfl, rfl⟩, rfl, fun m hm ↦ ?_⟩
    obtain rfl := Option.some.inj hm
    simp [World.createMind]

/-- A reachable moment is reached from the start by acts alone. -/
theorem Reachable.run {M : Moment} (h : Reachable M) : ∃ config, Run ⟨[], .new config⟩ M := by
  induction h with
  | start config => exact ⟨config, .refl⟩
  | act _ hact ih =>
    obtain ⟨config, hrun⟩ := ih
    exact ⟨config, hrun.tail hact⟩
  | @call s w α f n _ hcall hdone ih =>
    obtain ⟨config, hrun⟩ := ih
    obtain ⟨s', hrun', hs⟩ := hcall.tracked (Engine.tracked_ofBudget n) ⟨s.head?, 0, true, none⟩ s w
      ((valid_new config).run hrun) rfl (Nat.zero_le _)
    obtain rfl := hs hdone
    exact ⟨config, hrun.trans hrun'.run⟩

theorem Reachable.valid {M : Moment} (h : Reachable M) : M.Valid := by
  obtain ⟨config, hrun⟩ := h.run
  exact (valid_new config).run hrun

/-! ### A frame that starts another one in its first step -/

/-- A world in which a frame has been registered. -/
def World.oneFrame : World := ((World.new {}).register ⟨0⟩ "first" Core.object none default).2

/-- The frame has begun its first step. -/
def World.oneStep : World :=
  oneFrame.takeFrame ⟨0⟩ ⟨0, 0⟩ ((oneFrame.entryAt ⟨0⟩ ⟨0, 0⟩).getD default) default

theorem act_oneFrame : Act ⟨[], .new {}⟩ ⟨[], .oneFrame⟩ :=
  .register _ _ _ (by decide) fun p hp ↦ absurd hp.symm (Option.some_ne_none p)

theorem act_oneStep : Act ⟨[], .oneFrame⟩ ⟨[(⟨0⟩, ⟨0, 0⟩)], .oneStep⟩ := .begin rfl rfl rfl

theorem reachable_oneStep : Reachable ⟨[(⟨0⟩, ⟨0, 0⟩)], .oneStep⟩ :=
  ((Reachable.start {}).act act_oneFrame).act act_oneStep

/-- The frame has started a coroutine in its step. -/
def World.parentAndChild : World :=
  (oneStep.register ⟨0⟩ "child" Core.object (some ⟨0, 0⟩) default).2

theorem reachable_parentAndChild : Reachable ⟨[(⟨0⟩, ⟨0, 0⟩)], .parentAndChild⟩ := by
  refine reachable_oneStep.act (.register _ _ _ ?_ ?_)
  · decide
  · intro p hp
    rw [← Option.some.inj hp]
    rfl

end MindScript
