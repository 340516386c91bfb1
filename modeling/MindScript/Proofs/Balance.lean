import MindScript.Proofs.Alike.Induction
import MindScript.Proofs.Inward

/-!
# Actions that leave the running code as they found it

Contexts, invocations and steps are entered and left by hand, around code that may fail at any point.  Every action
that ends, with a result or with an error, has left the call stack and the step under way as they were and, unless it
is a single task of a step, the context of the running code with its scopes.  In between the call stack never outgrows
its limit, wherever the action may be given up.
-/

namespace MindScript

theorem Environment.pop_push (e : Environment) (h h' : Heap) : ((e.push h).1.pop h').1 = e := by
  have he : 0 < e.depth := e.depth_pos
  have hdepth : (e.push h).1.depth = e.depth + 1 := rfl
  have hextra : e.depth + 1 - max (e.depth + 1 - 1) 1 = 1 := by omega
  simp only [pop, truncate, hdepth, hextra]
  rw [if_pos (by omega)]
  rfl

theorem Environment.truncate_depth (e : Environment) (h : Heap) : (e.truncate h e.depth).1 = e := by
  have hextra : e.depth - max e.depth 1 = 0 := by omega
  simp only [truncate, hextra]
  rfl

/-- The call stack has the limit that it had, and is within it if it was. -/
structure World.Limited (w w' : World) : Prop where
  config : w'.config = w.config
  maxDepth : w'.callStack.maxDepth = w.callStack.maxDepth
  depth : w.callStack.depth ≤ w.callStack.maxDepth → w'.callStack.depth ≤ w'.callStack.maxDepth

namespace World.Limited

variable {w w' w'' : World}

theorem of_eq (hconfig : w'.config = w.config) (hstack : w'.callStack = w.callStack) : w.Limited w' := by
  refine ⟨hconfig, ?_, ?_⟩
  · rw [hstack]
  · rw [hstack]
    exact id

theorem refl (w : World) : w.Limited w := of_eq rfl rfl

theorem trans (h : w.Limited w') (h' : w'.Limited w'') : w.Limited w'' :=
  ⟨h'.config.trans h.config, h'.maxDepth.trans h.maxDepth, fun hdepth ↦ h'.depth (h.depth hdepth)⟩

/-- An invocation is entered only below the limit. -/
theorem push {i : Invocation} {s : CallStack} (h : w.callStack.push i = .ok s) :
    w.Limited { w with callStack := s } := by
  obtain ⟨hlt, rfl⟩ := CallStack.push_eq_ok_iff.mp h
  exact ⟨rfl, rfl, fun _ ↦ hlt⟩

end World.Limited

namespace Machine

/-- What an action may have done to the world besides its proper work. -/
structure Onward (scoping : Bool) (w w' : World) : Prop where
  current : w'.current = w.current
  defaultMind : w'.defaultMind = w.defaultMind
  minds : w.minds.size ≤ w'.minds.size
  context : scoping = false → w'.context = w.context

namespace Onward

variable {scoping : Bool} {w w' w'' : World}

theorem refl (w : World) : Onward scoping w w := ⟨rfl, rfl, Nat.le_refl _, fun _ ↦ rfl⟩

theorem trans (h : Onward scoping w w') (h' : Onward scoping w' w'') : Onward scoping w w'' :=
  ⟨h'.current.trans h.current, h'.defaultMind.trans h.defaultMind, Nat.le_trans h.minds h'.minds,
    fun hscoping ↦ (h'.context hscoping).trans (h.context hscoping)⟩

theorem of_inward (h : World.Inward w w') : Onward scoping w w' :=
  ⟨h.current, h.defaultMind, Nat.le_of_eq h.minds.symm, fun _ ↦ h.context⟩

theorem heap (w : World) (heap : Heap) : Onward scoping w { w with heap } :=
  of_inward (World.inward_heap w heap)

theorem scopes (hscoping : scoping = true) (w : World) {heap : Heap} {context : Context} :
    Onward scoping w { w with heap, context } :=
  ⟨rfl, rfl, Nat.le_refl _, fun h ↦ absurd (hscoping.symm.trans h) Bool.noConfusion⟩

end Onward

theorem Setting.Holds.onward {σ : Setting} {scoping : Bool} {w w' : World} (h : σ.Holds w)
    (hw : Onward scoping w w') : σ.Holds w' := by
  refine ⟨hw.current.trans h.current, Nat.le_trans h.minds hw.minds, fun m id hm ↦ ?_, fun m hm ↦ ?_⟩
  · exact Nat.lt_of_lt_of_le (h.rooted.current m id (hw.current ▸ hm)) hw.minds
  · exact Nat.lt_of_lt_of_le (h.rooted.defaultMind m (hw.defaultMind ▸ hm)) hw.minds

/-- The action has ended, and the call stack is as it was. -/
structure Level (scoping : Bool) (w w' : World) : Prop extends Onward scoping w w' where
  callStack : w'.callStack = w.callStack
  config : w'.config = w.config

namespace Level

variable {scoping : Bool} {w w' w'' : World}

theorem refl (w : World) : Level scoping w w := ⟨.refl w, rfl, rfl⟩

theorem trans (h : Level scoping w w') (h' : Level scoping w' w'') : Level scoping w w'' :=
  ⟨h.toOnward.trans h'.toOnward, h'.callStack.trans h.callStack, h'.config.trans h.config⟩

theorem of_inward (h : World.Inward w w') : Level scoping w w' := by
  refine ⟨.of_inward h, ?_, ?_⟩
  · rw [h.others]
  · rw [h.others]

theorem heap (w : World) (heap : Heap) : Level scoping w { w with heap } := of_inward (World.inward_heap w heap)

theorem scopes (hscoping : scoping = true) (w : World) {heap : Heap} {context : Context} :
    Level scoping w { w with heap, context } :=
  ⟨.scopes hscoping w, rfl, rfl⟩

theorem limited (h : Level scoping w w') : w.Limited w' := .of_eq h.config h.callStack

end Level

theorem level_onClasses {α : Type} {scoping : Bool} (act : Registry.Action α) (w : World) :
    Level scoping w (onClasses act w).2 := by
  unfold onClasses
  rcases act w.classes with ⟨_ | _, classes⟩
  · exact ⟨⟨rfl, rfl, Nat.le_refl _, fun _ ↦ rfl⟩, rfl, rfl⟩
  · exact ⟨⟨rfl, rfl, Nat.le_refl _, fun _ ↦ rfl⟩, rfl, rfl⟩

theorem level_store {scoping : Bool} (name : String) (value : Ref) (place : Place) (w : World) :
    Level scoping w (store name value place w).2 := by
  cases place with
  | binding s => exact .heap w _
  | slot owner i => exact .heap w _
  | classDatum c i => exact ⟨⟨rfl, rfl, Nat.le_refl _, fun _ ↦ rfl⟩, rfl, rfl⟩

theorem Basic.level {σ : Setting} {α : Type} {f : Machine α} (h : Basic σ f) (w : World) :
    Level σ.scoping w (f w).2 := by
  cases h with
  | retainLink l => exact .heap w _
  | releaseLinks ls => exact .heap w _
  | newValue c p => exact .heap w _
  | allocate c slots => exact .heap w _
  | disarm r => exact .heap w _
  | newScope => exact .heap w _
  | chainedScope s => exact .heap w _
  | pushScope hσ => exact .scopes hσ w
  | popScope hσ => exact .scopes hσ w
  | truncateScopes hσ depth => exact .scopes hσ w
  | define name value => exact .heap w _
  | store name value place => exact level_store name value place w
  | setItems r s => exact .heap w _
  | modifyItems r F => exact .heap w _
  | findMember c name => exact level_onClasses _ w
  | resolve c name qualifier => exact level_onClasses _ w
  | register m name owner parent frame hm hparent => exact .of_inward (w.inward_register ..)
  | deferFrame m name owner parent frame hm hparent =>
    exact .of_inward ((w.inward_register ..).trans (World.inward_modifyMind _ m _))
  | settleMind m => exact .of_inward (w.inward_settleMind m)
  | stop x => exact .of_inward (w.inward_stop x)
  | stopAll m => exact .of_inward (w.inward_stopAll m)
  | stopAllFor r => exact .of_inward (w.inward_stopAllFor r)
  | detachChildren m id => exact .of_inward (w.inward_detachChildren m id)
  | notify m event payload => exact .of_inward (w.inward_notify m event payload)
  | createMind name => exact ⟨⟨rfl, rfl, by simp [modifyGet_apply, World.createMind], fun _ ↦ rfl⟩, rfl, rfl⟩
  | setSuspended m suspended => exact .of_inward (w.inward_modifyMind m _)
  | setUpdateInterval x seconds => exact .of_inward (w.inward_modifyMind x.mind _)
  | @popReady m _ =>
    unfold Machine.popReady
    rw [modifyGet_apply]
    split
    · exact .of_inward (w.inward_modifyMind m _)
    · exact .refl w
  | @popPending m _ =>
    unfold Machine.popPending
    rw [modifyGet_apply]
    split
    · exact .of_inward (w.inward_modifyMind m _)
    · exact .refl w
  | @beginUpdate m _ elapsed => exact .of_inward (w.inward_modifyMind m _)
  | @endUpdate m _ => exact .of_inward ((w.inward_sweep m).trans (World.inward_modifyMind _ m _))
  | takeDue => exact .heap w _
  | setDraining draining => exact ⟨⟨rfl, rfl, Nat.le_refl _, fun _ ↦ rfl⟩, rfl, rfl⟩
  | writeDown run line => exact ⟨⟨rfl, rfl, Nat.le_refl _, fun _ ↦ rfl⟩, rfl, rfl⟩

/-! ### Balanced actions -/

/-- Wherever the action is given up the call stack is within its limit, and where it ends the call stack is as it was. -/
structure Balanced {α : Type} (scoping : Bool) (f : Machine α) (w : World) : Prop where
  limited : w.Limited (f w).2
  level : (f w).1 ≠ .error .exhausted → Level scoping w (f w).2

namespace Balanced

variable {scoping : Bool} {α β : Type} {f : Machine α} {w : World}

theorem of_level (h : Level scoping w (f w).2) : Balanced scoping f w := ⟨h.limited, fun _ ↦ h⟩

theorem unchanged (h : (f w).2 = w) : Balanced scoping f w := by
  apply of_level
  rw [h]
  exact .refl w

theorem raise (e : EvalError) : Balanced scoping (raise e : Machine α) w := unchanged rfl

/-- What the action comes to from another world that it has got to. -/
theorem of_run {g : Machine α} {w₁ : World} (hlevel : Level scoping w w₁) (hrun : f w = g w₁)
    (hg : Balanced scoping g w₁) : Balanced scoping f w := by
  constructor
  · rw [hrun]
    exact hlevel.limited.trans hg.limited
  · rw [hrun]
    exact fun hne ↦ hlevel.trans (hg.level hne)

theorem bind {F : α → Machine β} (hf : Balanced scoping f w)
    (hF : ∀ a w₁, f w = (.ok a, w₁) → Level scoping w w₁ → Balanced scoping (F a) w₁) :
    Balanced scoping (f >>= F) w := by
  obtain ⟨hlimited, hlevel⟩ := hf
  rcases hrun : f w with ⟨i | a, w₁⟩
  · rw [hrun] at hlimited hlevel
    constructor
    · rwa [bind_of_error hrun]
    · rw [bind_of_error hrun]
      exact fun hne ↦ hlevel fun h ↦ hne (by cases h; rfl)
  · rw [hrun] at hlimited hlevel
    have hfirst := hlevel (by simp)
    have hnext := hF a w₁ hrun hfirst
    constructor
    · rw [bind_of_ok hrun]
      exact hlimited.trans hnext.limited
    · rw [bind_of_ok hrun]
      exact fun hne ↦ hfirst.trans (hnext.level hne)

theorem look {F : World → Machine α} (h : Balanced scoping (F w) w) : Balanced scoping (get >>= F) w :=
  ⟨h.limited, h.level⟩

theorem attempt (hf : Balanced scoping f w) : Balanced scoping (attempt f) w := by
  have hworld : (Machine.attempt f w).2 = (f w).2 := by
    unfold Machine.attempt
    rcases f w with ⟨(_ | _) | _, w'⟩ <;> rfl
  constructor
  · rw [hworld]
    exact hf.limited
  · rw [hworld]
    exact fun hne ↦ hf.level fun h ↦ hne (congrArg Prod.fst (attempt_of_exhausted (Prod.ext h rfl)))

/-- What stands around an action sees every end of it except that the budget is used up. -/
theorem around {outer : Bool} {g : Machine β} {K : Except EvalError α → Machine β} {w₀ : World}
    (hrun : g w₀ = (Machine.attempt f >>= K) w) (hin : w₀.Limited w) (hf : Balanced scoping f w)
    (hK : ∀ r w₁, Level scoping w w₁ →
      w₀.Limited (K r w₁).2 ∧ ((K r w₁).1 ≠ .error .exhausted → Level outer w₀ (K r w₁).2)) :
    Balanced outer g w₀ := by
  obtain ⟨hlimited, hlevel⟩ := hf.attempt
  rcases hbody : Machine.attempt f w with ⟨i | r, w₁⟩
  · rw [hbody] at hlimited
    rw [bind_of_error hbody] at hrun
    constructor
    · rw [hrun]
      exact hin.trans hlimited
    · rw [hrun]
      cases i with
      | exhausted => exact fun hne ↦ absurd rfl hne
      | raised e => exact absurd (congrArg Prod.fst hbody) (Calm.attempt f w e)
  · rw [hbody] at hlevel
    rw [bind_of_ok hbody] at hrun
    obtain ⟨hlimited', hlevel'⟩ := hK r w₁ (hlevel (by simp))
    exact ⟨hrun ▸ hlimited', hrun ▸ hlevel'⟩

/-- A caller finds its own context again, whatever became of the other one. -/
theorem withContext {c : Context} (hf : Balanced scoping f { w with context := c }) :
    Balanced scoping (withContext c f) w := by
  refine around (w := { w with context := c }) (K := fun r ↦ do
    let after := (← get).context
    modify fun v ↦ { v with context := w.context }
    return (r, after)) rfl (.of_eq rfl rfl) hf fun r w₁ hbody ↦ ?_
  have hlevel : Level scoping w { w₁ with context := w.context } :=
    ⟨⟨hbody.current, hbody.defaultMind, hbody.minds, fun _ ↦ rfl⟩, hbody.callStack, hbody.config⟩
  exact ⟨hlevel.limited, fun _ ↦ hlevel⟩

/-- An invocation is left with the stack that it was entered with. -/
theorem invocation {i : Invocation} {s : CallStack} {F : Except EvalError α → World → Machine β}
    (hpush : w.callStack.push i = .ok s) (hf : Balanced scoping f { w with callStack := s })
    (hF : ∀ r v w₁, (F r v w₁).2 = w₁) :
    Balanced scoping ((modify fun w ↦ { w with callStack := s }) >>= fun _ ↦ Machine.attempt f >>= fun r ↦
      get >>= fun v ↦ (modify fun w ↦ { w with callStack := w.callStack.pop }) >>= fun _ ↦ F r v) w := by
  refine around (K := fun r ↦ get >>= fun v ↦ (modify fun w ↦ { w with callStack := w.callStack.pop }) >>= fun _ ↦ F r v)
    rfl (.push hpush) hf fun r w₁ hbody ↦ ?_
  have hlevel : Level scoping w { w₁ with callStack := w₁.callStack.pop } := by
    refine ⟨⟨hbody.current, hbody.defaultMind, hbody.minds, hbody.context⟩, ?_, hbody.config⟩
    show w₁.callStack.pop = w.callStack
    rw [hbody.callStack]
    exact CallStack.pop_of_push hpush
  have hafter : ((get >>= fun v ↦ (modify fun w ↦ { w with callStack := w.callStack.pop }) >>= fun _ ↦ F r v :
      Machine β) w₁).2 = { w₁ with callStack := w₁.callStack.pop } := hF r w₁ _
  rw [hafter]
  exact ⟨hlevel.limited, fun _ ↦ hlevel⟩

theorem withInvocation {i : Invocation} {held : List Ref}
    (hf : ∀ s, w.callStack.push i = .ok s → Balanced scoping f { w with callStack := s }) :
    Balanced scoping (withInvocation i held f) w := by
  apply look
  dsimp only
  cases hpush : w.callStack.push i with
  | error e => exact (of_level (.heap w _)).bind fun _ _ _ _ ↦ raise e
  | ok s =>
    refine invocation hpush (hf s hpush) fun r v w₁ ↦ ?_
    cases r <;> rfl

theorem stepInvocation {E : Engine} {m : MindId} {id : FrameId} {i : Invocation} {frame : Frame}
    {delivered : Option Ref}
    (hf : ∀ s, w.callStack.push i = .ok s → Balanced scoping (stepBody E m id frame delivered) { w with callStack := s }) :
    Balanced scoping (stepInvocation E m id i frame delivered) w := by
  apply look
  dsimp only
  cases hpush : w.callStack.push i with
  | error e => exact unchanged rfl
  | ok s => exact invocation hpush (hf s hpush) fun r v w₁ ↦ rfl

theorem inScope {f : Machine Ref} (hf : Balanced scoping f (pushScope w).2) : Balanced scoping (inScope f) w := by
  refine around (w := (pushScope w).2) (K := fun r ↦ popScope >>= fun _ ↦ Machine.ofExcept r) rfl (.of_eq rfl rfl) hf
    fun r w₁ hbody ↦ ?_
  have hpop : ((popScope >>= fun _ ↦ Machine.ofExcept r : Machine Ref) w₁).2 = (popScope w₁).2 := by
    cases r <;> rfl
  have hlevel : Level scoping w (popScope w₁).2 := by
    refine ⟨⟨hbody.current, hbody.defaultMind, hbody.minds, fun hsc ↦ ?_⟩, hbody.callStack, hbody.config⟩
    have hcontext : w₁.context = (pushScope w).2.context := hbody.context hsc
    show { w₁.context with env := (w₁.context.env.pop w₁.heap).1 } = w.context
    rw [hcontext]
    exact congrArg (fun env ↦ { w.context with env }) (Environment.pop_push _ w.heap w₁.heap)
  rw [hpop]
  exact ⟨hlevel.limited, fun _ ↦ hlevel⟩

/-- The scopes that an action opened and left open are closed before its error is handled. -/
theorem rescue {f : Machine Ref} {F : EvalError → Machine Ref} {catches : EvalError → Bool}
    (hf : Balanced scoping f w) (hF : ∀ e w₁, Level scoping w w₁ → Balanced scoping (F e) w₁) :
    Balanced scoping (rescue f catches F) w := by
  apply look
  refine around rfl (.refl w) hf fun r w₁ hbody ↦ ?_
  cases r with
  | ok value => exact ⟨hbody.limited, fun _ ↦ hbody⟩
  | error e =>
    dsimp only
    split
    · have hcut : Level scoping w (truncateScopes w.context.env.depth w₁).2 := by
        refine ⟨⟨hbody.current, hbody.defaultMind, hbody.minds, fun hsc ↦ ?_⟩, hbody.callStack, hbody.config⟩
        have hcontext : w₁.context = w.context := hbody.context hsc
        show { w₁.context with env := (w₁.context.env.truncate w₁.heap w.context.env.depth).1 } = w.context
        rw [hcontext, Environment.truncate_depth]
      have hhandler := hF e _ hcut
      exact ⟨hcut.limited.trans hhandler.limited, fun hne ↦ hcut.trans (hhandler.level hne)⟩
    · exact ⟨hbody.limited, fun _ ↦ hbody⟩

/-- An update of a Mind that is being updated already does nothing. -/
theorem whenIdle {f : Machine Nat} {m : MindId} (hf : Balanced scoping f w) : Balanced scoping (whenIdle m f) w := by
  apply look
  split
  · exact unchanged rfl
  · split
    · exact unchanged rfl
    · exact hf

/-! ### Steps -/

/-- Whatever a step does to its context, the caller finds its own again. -/
theorem runFrame {E : Engine} {m : MindId} {id : FrameId} {entry : FrameEntry} {frame : Frame}
    (hf : ∀ i s, w.callStack.push i = .ok s →
      Balanced true (stepBody E m id frame entry.delivered) { w.takeFrame m id entry frame with callStack := s }) :
    Balanced scoping (runFrame E m id entry frame) w := by
  let taken := w.takeFrame m id entry frame
  let i : Invocation := ⟨w.classes.nameOf entry.owner, entry.handle.name⟩
  have htaken : w.Limited taken := .of_eq rfl rfl
  obtain ⟨hlimited, hlevel⟩ := stepInvocation (w := taken) (hf i)
  rcases hrun : Machine.stepInvocation E m id i frame entry.delivered taken with ⟨interrupt | ⟨body, step, unused⟩, w₁⟩
  · rw [hrun] at hlimited
    have hend := runFrame_of_error (i := i) rfl hrun
    constructor
    · rw [hend]
      exact htaken.trans hlimited
    · rw [hend]
      cases interrupt with
      | exhausted => exact fun hne ↦ absurd rfl hne
      | raised e => exact absurd (congrArg Prod.fst hrun) (Calm.stepInvocation E m id i frame entry.delivered taken e)
  · rw [hrun] at hlevel
    have hbody := hlevel (by simp)
    let after : Frame := { frame with context := w₁.context, body, updateCount := frame.updateCount + 1 }
    have hinward : World.Inward (w₁.enter w.context w.current)
        (((w₁.enter w.context w.current).returnFrame m id after step).release (unused.map .object)) :=
      (World.inward_returnFrame _ m id after step).trans (World.inward_heap _ _)
    have hreturned : Level true _ _ := .of_inward hinward
    apply of_level
    rw [runFrame_of_ok (i := i) rfl hrun]
    refine ⟨⟨hinward.current, hinward.defaultMind.trans hbody.defaultMind, ?_, fun _ ↦ hinward.context⟩, ?_, ?_⟩
    · have hminds : w.minds.size ≤ w₁.minds.size := World.size_minds_takeFrame w m id entry frame ▸ hbody.minds
      exact Nat.le_trans hminds (Nat.le_of_eq hinward.minds.symm)
    · exact hreturned.callStack.trans hbody.callStack
    · exact hreturned.config.trans hbody.config

theorem resumeFrame {E : Engine} {m : MindId} {id : FrameId}
    (hf : ∀ entry frame i s, w.entryAt m id = some entry → w.callStack.push i = .ok s →
      Balanced true (stepBody E m id frame entry.delivered) { w.takeFrame m id entry frame with callStack := s }) :
    Balanced scoping (resumeFrame E m id) w := by
  rcases resumeFrame_cases m id w with hsame | ⟨entry, frame, he, hu, hframe⟩
  · apply unchanged
    rw [hsame]
  · exact of_run (.refl w) (resumeFrame_of_stored he hu hframe) (runFrame fun i s hpush ↦ hf entry frame i s he hpush)

end Balanced

/-! ### Every action -/

theorem Setting.Holds.takeFrame {σ : Setting} {w : World} (h : σ.Holds w) {m : MindId} (hm : m.index < w.minds.size)
    (id : FrameId) (entry : FrameEntry) (frame : Frame) :
    Setting.Holds { σ with current := some (m, id), scoping := true } (w.takeFrame m id entry frame) := by
  have hsize := World.size_minds_takeFrame w m id entry frame
  refine ⟨rfl, hsize ▸ h.minds, fun m' id' hcurrent ↦ ?_, fun m' hm' ↦ ?_⟩
  · obtain ⟨rfl, rfl⟩ := Prod.mk.inj (Option.some.inj hcurrent)
    exact hsize ▸ hm
  · exact hsize ▸ h.rooted.defaultMind m' hm'

end Machine

/-- Every call of the engine is balanced. -/
abbrev Engine.Balanced (E : Engine) : Prop :=
  E.Satisfies fun σ f ↦ ∀ w, σ.Holds w → Machine.Balanced σ.scoping f w

open Machine

theorem Machine.Alike.balanced {E E' : Engine} (hE : E.Balanced) {σ : Setting} {α : Type} {f g : Machine α}
    (h : Alike E E' σ f g) : ∀ w, σ.Holds w → Balanced σ.scoping f w := by
  induction h with
  | basic hbasic => exact fun w _ ↦ .of_level (hbasic.level w)
  | pure a => exact fun w _ ↦ .unchanged rfl
  | raise e => exact fun w _ ↦ .unchanged rfl
  | exhausted g _ => exact fun w _ ↦ .unchanged rfl
  | bind _ _ ihf ihF => exact fun w hw ↦ (ihf w hw).bind fun a w₁ _ hlevel ↦ ihF a w₁ (hw.onward hlevel.toOnward)
  | read _ _ _ ih => exact fun w hw ↦ .look (ih w hw w ⟨hw.current, Nat.le_refl _, hw.rooted⟩)
  | attempt _ ih => exact fun w hw ↦ (ih w hw).attempt
  | withContext c _ ih => exact fun w hw ↦ .withContext (ih _ ⟨hw.current, hw.minds, hw.rooted.1, hw.rooted.2⟩)
  | withInvocation i held _ ih =>
    exact fun w hw ↦ .withInvocation fun s _ ↦ ih _ ⟨hw.current, hw.minds, hw.rooted.1, hw.rooted.2⟩
  | inScope _ ih => exact fun w hw ↦ .inScope (ih _ ⟨hw.current, hw.minds, hw.rooted.1, hw.rooted.2⟩)
  | rescue catches _ _ ihf ihF =>
    exact fun w hw ↦ (ihf w hw).rescue fun e w₁ hlevel ↦ ihF e w₁ (hw.onward hlevel.toOnward)
  | @whenIdle σ _ _ m elapsed _ ih =>
    have hbegin : Basic { σ with pumping := some m } (beginUpdate m elapsed) := .beginUpdate rfl elapsed
    refine fun w hw ↦ .whenIdle ((Balanced.of_level (hbegin.level w)).bind fun _ w₁ _ hlevel ↦ ih w₁ ?_)
    have hbegun : { σ with pumping := some m }.Holds w := ⟨hw.current, hw.minds, hw.rooted⟩
    exact hbegun.onward hlevel.toOnward
  | eval id => exact fun w hw ↦ hE.eval _ id w hw
  | invoke this m args => exact fun w hw ↦ hE.invoke _ this m args w hw
  | spawn m name owner parent frame hm hparent hfresh _ ih =>
    have hregister : Basic _ (registerFrame m name owner parent frame) :=
      .register m name owner parent frame hm hparent hfresh
    exact fun w hw ↦ (Balanced.of_level (hregister.level w)).bind fun h w₁ _ hlevel ↦
      (hE.resume _ m h.frame w₁ (hw.onward hlevel.toOnward)).bind fun _ w₂ _ hlevel' ↦
        ih h w₂ ((hw.onward hlevel.toOnward).onward hlevel'.toOnward)
  | resumeDue id isDue _ _ _ _ _ ih ih' =>
    refine fun w hw ↦ .look ?_
    split
    · exact (hE.resume _ _ id w hw).bind fun _ w₁ _ hlevel ↦ ih w₁ (hw.onward hlevel.toOnward)
    · exact ih' w hw
  | @resumePending σ _ _ _ _ _ m hm _ _ ih ih' =>
    have hpop : Basic σ (popPending m) := .popPending hm
    refine fun w hw ↦ (Balanced.of_level (hpop.level w)).bind fun id? w₁ _ hlevel ↦ ?_
    have hw₁ := hw.onward hlevel.toOnward
    cases id? with
    | none => exact ih w₁ hw₁
    | some id => exact (hE.resume _ m id w₁ hw₁).bind fun _ w₂ _ hlevel' ↦ ih' w₂ (hw₁.onward hlevel'.toOnward)

/-- However a step goes, it leaves the running code as it found it. -/
theorem Engine.Balanced.resumeFrame {E : Engine} (hE : E.Balanced) {σ : Setting} {w : World} (hw : σ.Holds w) (m : MindId)
    (id : FrameId) : Machine.Balanced σ.scoping (Machine.resumeFrame E m id) w := by
  refine .resumeFrame fun entry frame i s he _ ↦ ?_
  obtain ⟨mind, hmind, -⟩ := Option.bind_eq_some_iff.mp he
  have htaken := hw.takeFrame (Array.getElem?_eq_some_iff.mp hmind).1 id entry frame
  have hbody : Alike E E { σ with current := some (m, id), scoping := true } (stepBody E m id frame entry.delivered)
      (stepBody E m id frame entry.delivered) := .stepBody rfl (Nat.le_refl _) rfl frame entry.delivered
  exact hbody.balanced hE _ ⟨htaken.current, htaken.minds, htaken.rooted.1, htaken.rooted.2⟩

theorem Engine.balanced_ofBudget (n : Nat) : (Engine.ofBudget n).Balanced := by
  induction n with
  | zero => exact ⟨fun _ _ _ _ ↦ .unchanged rfl, fun _ _ _ _ _ _ ↦ .unchanged rfl, fun _ _ _ _ _ ↦ .unchanged rfl⟩
  | succ n ih =>
    have hle : (Engine.ofBudget n).budget ≤ (Engine.ofBudget n).budget := Nat.le_refl _
    exact ⟨fun _ id ↦ (Alike.evalNode hle id).balanced ih, fun _ this m args ↦ (Alike.invokeMember hle this m args).balanced ih,
      fun _ m id _ hw ↦ ih.resumeFrame hw m id⟩

end MindScript
