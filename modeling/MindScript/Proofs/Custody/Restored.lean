import MindScript.Proofs.Balance
import MindScript.Proofs.Custody.Hosts
import MindScript.Proofs.Passages

/-!
# What calls leave as they found it

A host call that returns, with a result or with an error, has left the call stack, the step under way and the running
context as they were.  The worlds that a call goes through are those between any two basic actions; in none of them is
the call stack higher than its limit.
-/

namespace MindScript

open Machine

variable {E : Engine}

/-! ### Host calls -/

theorem Engine.balanced_pausing (stop : World → Bool) (n : Nat) : (Engine.pausing stop n).Balanced := by
  have hunless : ∀ {σ : Setting} {α : Type} {f : Machine α}, (∀ w, σ.Holds w → Machine.Balanced σ.scoping f w) →
      ∀ w, σ.Holds w → Machine.Balanced σ.scoping (Machine.unless stop f) w := by
    intro σ α f hf w hw
    apply Machine.Balanced.look
    split
    · exact .unchanged rfl
    · exact hf w hw
  induction n with
  | zero => exact balanced_ofBudget 0
  | succ n ih =>
    have hle : (Engine.pausing stop n).budget ≤ (Engine.pausing stop n).budget := Nat.le_refl _
    exact ⟨fun _ id ↦ hunless ((Alike.evalNode hle id).balanced ih),
      fun _ this m args ↦ hunless ((Alike.invokeMember hle this m args).balanced ih),
      fun _ m id ↦ hunless fun _ hw ↦ ih.resumeFrame hw m id⟩

namespace Machine.Balanced

variable {σ : Setting} {w : World}

theorem initClassData (c : ClassId) (data : List ClassDatum) (i : Nat) (w : World) (hw : σ.Holds w) :
    Balanced σ.scoping (initClassData c data i) w := by
  induction data generalizing i w with
  | nil => exact unchanged rfl
  | cons d rest ih =>
    have hzero : Alike (.ofBudget 0) (.ofBudget 0) σ (zeroValue d.valueClass) (zeroValue d.valueClass) :=
      Alike.zeroValue d.valueClass
    refine (hzero.balanced (Engine.balanced_ofBudget 0) w hw).bind fun value w₁ _ hlevel ↦ ?_
    have hset : Level σ.scoping w₁ { w₁ with classes := (w₁.classes.setClassData c i value).2 } :=
      ⟨⟨rfl, rfl, Nat.le_refl _, fun _ ↦ rfl⟩, rfl, rfl⟩
    exact of_run hset rfl (ih (i + 1) _ ((hw.onward hlevel.toOnward).onward hset.toOnward))

theorem registerClass (decl : ClassDecl) (hw : σ.Holds w) : Balanced σ.scoping (registerClass decl) w :=
  (of_level (level_onClasses _ w)).bind fun c w₁ _ hlevel ↦
    look ((initClassData c _ 0 w₁ (hw.onward hlevel.toOnward)).bind fun _ _ _ _ ↦ unchanged rfl)

theorem teardown (hE : E.Balanced) (hw : σ.Holds w) : Balanced σ.scoping (teardown E) w := by
  have hstopped : Level σ.scoping w w.stopEverything := .of_inward w.inward_stopEverything
  let cleared : World := { w.stopEverything with classes := w.stopEverything.classes.clearClassData }
  have hcleared : Level σ.scoping w cleared :=
    hstopped.trans ⟨⟨rfl, rfl, Nat.le_refl _, fun _ ↦ rfl⟩, rfl, rfl⟩
  let last : Machine Unit := do
    releaseAll w.stopEverything.classes.classDataValues
    let _ ← runDestructors E
    modify fun w ↦ { w with heap := { w.heap with reaping := false } }
  have happly : Machine.teardown E w = last cleared := rfl
  refine of_run hcleared happly ((of_level (.heap _ _)).bind fun _ w₁ _ hlevel ↦ ?_)
  have hdestructors : Alike E E σ (runDestructors E) (runDestructors E) := Alike.runDestructors (Nat.le_refl _)
  refine (hdestructors.balanced hE w₁ ?_).bind fun _ w₂ _ _ ↦ of_level (.heap w₂ _)
  exact (hw.onward hcleared.toOnward).onward hlevel.toOnward

end Machine.Balanced

theorem HostCall.balanced (hE : E.Balanced) {α : Type} {f : Machine α} (h : HostCall E f) {σ : Setting} {w : World}
    (hw : σ.Holds w) : Balanced σ.scoping f w := by
  have hb : E.budget ≤ E.budget := Nat.le_refl _
  have halike {α : Type} {f : Machine α} (h : Alike E E σ f f) : Balanced σ.scoping f w := h.balanced hE w hw
  cases h with
  | new c args => exact halike (.hostNew hb c args)
  | evaluate arena root => exact halike (.hostEvaluate hb arena root)
  | invoke target member args => exact halike (.hostInvoke hb target member args)
  | start target member args m deferred => exact halike (.hostStart hb target member args m deferred)
  | update m elapsed => exact halike (.update hb m elapsed)
  | runDestructors => exact halike (.runDestructors hb)
  | notify m event payload => exact halike (.basic (.notify m event payload))
  | stop x => exact halike (.basic (.stop x))
  | stopAll m => exact halike (.basic (.stopAll m))
  | stopAllFor r => exact halike (.basic (.stopAllFor r))
  | setSuspended m suspended => exact halike (.basic (.setSuspended m suspended))
  | setUpdateInterval x seconds => exact halike (.basic (.setUpdateInterval x seconds))
  | createMind name => exact halike (.basic (.createMind name))
  | takeFailures m => exact .of_level (.of_inward (w.inward_modifyMind m _))
  | takeHistory m => exact .of_level (.of_inward (w.inward_modifyMind m _))
  | literal v => exact halike (.literal v)
  | retain l => exact halike (.basic (.retainLink l))
  | release ls => exact halike (.basic (.releaseLinks ls))
  | registerClass decl => exact .registerClass decl hw
  | defineMember c decl => exact .of_level (level_onClasses _ w)
  | teardown => exact .teardown hE hw

/-! ### Reached worlds -/

variable {owned : List Link} {w : World}

/-- The setting that the next call has. -/
theorem Reached.holds (h : Reached owned w) (pumping : Option MindId) :
    Setting.Holds ⟨w.current, 0, false, pumping⟩ w := by
  obtain ⟨σ, hsane⟩ := h.sane
  have hvalid := hsane.books.valid
  exact hvalid.holds hvalid.current.symm (Nat.zero_le _)

theorem Reached.limited (h : Reached owned w) : ∃ config, (World.new config).Limited w := by
  have hnext : ∀ {w w' : World} {α : Type} {f : Machine α} {r}, Balanced false f w → f w = (r, w') →
      (∃ config, (World.new config).Limited w) → ∃ config, (World.new config).Limited w' := by
    intro w w' α f r hf hrun ⟨config, hpast⟩
    have hlimited := hf.limited
    rw [hrun] at hlimited
    exact ⟨config, hpast.trans hlimited⟩
  have hofBudget := Engine.balanced_ofBudget
  induction h with
  | start config => exact ⟨config, .refl _⟩
  | returns n hw hcall hrun ih => exact hnext (hcall.host.balanced (hofBudget n) (hw.holds none)) hrun ih
  | fails n hw hcall hrun ih => exact hnext (hcall.host.balanced (hofBudget n) (hw.holds none)) hrun ih
  | midway stop n hw hcall hrun ih =>
    exact hnext (hcall.host.balanced (Engine.balanced_pausing stop n) (hw.holds none)) hrun ih
  | safePoint n hw hbody hrun ih => exact hnext (hbody.alike.balanced (hofBudget n) _ (hw.holds none)) hrun ih
  | @pumped _ _ _ _ n m elapsed hw _ hrun ih =>
    exact hnext ((alike_pump rfl elapsed).balanced (hofBudget n) _ (hw.holds (some m))) hrun ih
  | forget _ _ ih => exact ih

/-- The limit of the call stack is the configured one, and the call stack keeps to it. -/
theorem Reached.depth_le (h : Reached owned w) :
    w.callStack.maxDepth = w.config.maxCallDepth ∧ w.callStack.depth ≤ w.callStack.maxDepth := by
  obtain ⟨config, hlimited⟩ := h.limited
  have hnew : (World.new config).callStack = { maxDepth := config.maxCallDepth } ∧ (World.new config).config = config := by
    unfold World.new
    dsimp only
    split <;> exact ⟨rfl, rfl⟩
  constructor
  · rw [hlimited.maxDepth, hlimited.config, hnew.1, hnew.2]
  · apply hlimited.depth
    rw [hnew.1]
    exact Nat.zero_le _

/-! ### On the way -/

theorem World.Rooted.holds {w : World} (h : w.Rooted) (pumping : Option MindId) :
    Setting.Holds ⟨w.current, 0, false, pumping⟩ w :=
  ⟨rfl, Nat.zero_le _, h⟩

theorem World.Rooted.inward {w w' : World} (h : w.Rooted) (hinward : w.Inward w') : w'.Rooted :=
  ((h.holds none).onward (.of_inward hinward : Onward false w w')).rooted

theorem Machine.passing_limited : Passing fun σ w _ v ↦ σ.Holds w → w.Limited v ∧ v.Rooted where
  here _ w hw := ⟨.refl w, hw.rooted⟩
  next hf hne h hw := by
    have hlevel := (hf.balanced (Engine.balanced_ofBudget _) _ hw).level hne
    have hrest := h (hw.onward hlevel.toOnward)
    exact ⟨hlevel.limited.trans hrest.1, hrest.2⟩
  read h hw := h ⟨hw.current, Nat.le_refl _, hw.rooted⟩
  basic {σ} k α f w v scoping hf h hw := by
    have hlevel := hf.level w
    have hrest := h (hw.onward hlevel.toOnward)
    exact ⟨hlevel.limited.trans hrest.1, hrest.2⟩
  setContext h hw := by
    have hrest := h ⟨hw.current, hw.minds, hw.rooted.1, hw.rooted.2⟩
    exact ⟨⟨hrest.1.config, hrest.1.maxDepth, hrest.1.depth⟩, hrest.2⟩
  push hpush h hw := by
    have hrest := h ⟨hw.current, hw.minds, hw.rooted.1, hw.rooted.2⟩
    exact ⟨(World.Limited.push hpush).trans hrest.1, hrest.2⟩
  whenIdle _ h hw := h ⟨hw.current, hw.minds, hw.rooted⟩
  take {σ} k w v m id entry frame he _ _ h hw := by
    obtain ⟨mind, hmind, -⟩ := Option.bind_eq_some_iff.mp he
    have htaken := hw.takeFrame (Array.getElem?_eq_some_iff.mp hmind).1 id entry frame
    have hrest := h ⟨htaken.current, htaken.minds, htaken.rooted⟩
    exact ⟨⟨hrest.1.config, hrest.1.maxDepth, hrest.1.depth⟩, hrest.2⟩
  spawns {σ} w m name owner parent frame _ _ _ hw := by
    have hinward := w.inward_register m name owner parent frame
    have hlevel : Level false w _ := .of_inward hinward
    exact ⟨hlevel.limited, hw.rooted.inward hinward⟩
  wakes _ _ hw := ⟨.refl _, hw.rooted⟩
  starts {σ} w w' m id hm hpop hw := by
    have hpopped : Basic σ (popPending m) := .popPending hm
    have hlevel := hpopped.level w
    rw [hpop] at hlevel
    exact ⟨hlevel.limited, (hw.onward hlevel.toOnward).rooted⟩

/-- What the calls that are made in a world can rely on. -/
def World.setting (w : World) : Setting := ⟨w.current, w.minds.size, false, none⟩

end MindScript
