import MindScript.Machine.Update
import MindScript.Proofs.Custody.Calls

/-!
# Custody in updates, destructors and host calls

The queue hands over the instances whose destructors are due, and each is given up when its destructor has run.
What a host passes to a call stays the host's; what it gets back is in its hand.
-/

namespace MindScript

open Machine
open World (Sane)

variable {α : Type} {σ : Footing} {A G : List Link} {w : World} {E : Engine} {m : MindId}

theorem World.Sane.takeDue (h : Sane σ A w) :
    Sane σ (w.heap.takeDue.1.map .object ++ A) { w with heap := w.heap.takeDue.2 } :=
  h.setHeap rfl (.of_objects rfl fun H hH ↦ List.append_assoc _ A H ▸ Heap.Covers.takeDue hH) (h.typed.of_stock rfl rfl)
    ⟨List.nodup_nil, fun _ hr ↦ (nomatch hr)⟩

/-! ### Before the safe point -/

/-- The Mind can be updated. -/
def World.Idle (w : World) (m : MindId) : Prop :=
  ∃ mind, w.mind? m = some mind ∧ mind.suspended = false ∧ mind.updating = false

namespace Machine

/-- What creating an instance does before the safe point. -/
def newBody (E : Engine) (c : ClassId) (args : List Ref) : Machine (Except EvalError Ref) := do
  let args ← shareArgs args
  attempt (construct E c args)

def evaluateBody (E : Engine) (arena : Arena) (root : ExprId) : Machine (Except EvalError Ref) := do
  let context ← newContext arena (← nil) Core.object
  let (result, after) ← withContext context (E.eval root)
  releaseLinks after.links
  attempt (failLoopExit result)

def invokeBody (E : Engine) (target : Ref) (member : String) (args : List Ref) : Machine (Except EvalError Ref) := do
  let args ← shareArgs args
  retain target
  let result ← attempt (callMethod E target member none args)
  blame target member result

def startBody (E : Engine) (target : Ref) (member : String) (args : List Ref) (mind : MindId) (deferred : Bool) :
    Machine (Except EvalError Handle) := do
  let args ← shareArgs args
  let result ← attempt (startMember E target member args mind deferred)
  let result ← blame target member result
  modify fun w ↦ w.settleMind mind
  return result

/-- What an update of an idle Mind does before the safe point. -/
def pump (E : Engine) (m : MindId) (elapsed : Float) : Machine Nat := do
  beginUpdate m elapsed
  let resumed ← resumePhases E m
  endUpdate m
  return resumed

theorem hostNew_eq (E : Engine) (c : ClassId) (args : List Ref) :
    hostNew E c args = newBody E c args >>= finishHostCall E := by
  simp only [hostNew, newBody, bind_assoc]

theorem hostEvaluate_eq (E : Engine) (arena : Arena) (root : ExprId) :
    hostEvaluate E arena root = evaluateBody E arena root >>= finishHostCall E := by
  simp only [hostEvaluate, evaluateBody, bind_assoc]

theorem hostInvoke_eq (E : Engine) (target : Ref) (member : String) (args : List Ref) :
    hostInvoke E target member args = invokeBody E target member args >>= finishHostCall E := by
  simp only [hostInvoke, invokeBody, bind_assoc]

theorem hostStart_eq (E : Engine) (target : Ref) (member : String) (args : List Ref) (mind : MindId) (deferred : Bool) :
    hostStart E target member args mind deferred = startBody E target member args mind deferred >>= finishHostCall E := by
  simp only [hostStart, startBody, bind_assoc, pure_bind]

/-- An update does nothing unless the Mind is idle. -/
theorem update_eq (E : Engine) (m : MindId) (elapsed : Float) :
    update E m elapsed = whenIdle m (pump E m elapsed >>= fun resumed ↦ runDestructors E >>= fun _ ↦ pure resumed) := by
  refine bind_congr fun w ↦ ?_
  cases w.mind? m with
  | none => rfl
  | some mind => simp only [pump, bind_assoc, pure_bind]

end Machine

namespace Machine.Gives

section

variable (hE : E.Careful)

include hE

/-! ### Destructors -/

theorem runDestructor {r : Ref} (h : Sane σ (.object r :: G) w) : Gives σ G (runDestructor E r) w fun _ ↦ [] := by
  refine .read ((Yields.resolve h _ _ _).attempt.bind fun found w₁ h₁ ↦ ?_)
  cases found with
  | error e => exact release (h₁.mono (.append_left _ _))
  | ok m =>
    obtain ⟨h₁, hm⟩ := h₁
    refine (retain h₁ (h₁.alive List.mem_cons_self)).bind fun _ w₂ h₂ ↦ ?_
    refine (attempt (hE.invoke r m [] h₂ hm)).bind fun result w₃ h₃ ↦ ?_
    cases result with
    | ok value => exact (release h₃).bind fun _ _ h₄ ↦ release h₄
    | error e => exact release (h₃.mono (.append_left _ _))

theorem runAll (rs : List Ref) (h : Sane σ (rs.map .object ++ G) w) : Gives σ G (runAll E rs) w fun _ ↦ [] := by
  induction rs generalizing w with
  | nil => exact .pure h
  | cons r rest ih => exact (runDestructor hE h).bind fun _ _ h₁ ↦ ih h₁

theorem drainDue (h : Sane σ G w) (n ran : Nat) : Gives σ G (drainDue E n ran) w fun _ ↦ [] := by
  induction n generalizing w ran with
  | zero => exact .exhausted h
  | succ n ih =>
    refine (Yields.onHeap (G := G) (Q := fun due w' ↦ Sane σ (due.map .object ++ G) w') h.takeDue).bind
      fun due w₁ h₁ ↦ ?_
    split
    · exact .pure (h₁.mono (.append_left _ _))
    · exact (runAll hE due h₁).bind fun _ _ h₂ ↦ ih h₂ _

theorem runDestructors (h : Sane σ G w) : Gives σ G (runDestructors E) w fun _ ↦ [] := by
  have hset : ∀ draining {w'}, Sane σ G w' → Gives σ G (setDraining draining) w' fun _ ↦ [] :=
    fun draining _ h' ↦ .modify (h'.unconcerned rfl rfl rfl rfl rfl rfl)
  refine .read ?_
  split
  · exact .pure h
  · exact (hset true h).bind fun _ _ h₁ ↦ (drainDue hE h₁ _ _).bind fun _ _ h₂ ↦
      (hset false h₂).bind fun _ _ h₃ ↦ .pure h₃

theorem afterHostCall (h : Sane σ G w) : Gives σ G (afterHostCall E) w fun _ ↦ [] := by
  refine .read ?_
  split
  · exact (runDestructors hE h).bind fun _ _ h₁ ↦ .pure h₁
  · exact .pure h

theorem finishHostCall {B : α → List Link} {r : Except EvalError α} (h : Sane σ (broughtBy B r ++ G) w) :
    Gives σ G (finishHostCall E r) w B :=
  (afterHostCall hE h).bind fun _ _ h₁ ↦ ofExcept h₁

end

/-! ### Updates -/

theorem popReady (h : Sane σ G w) (m : MindId) : Gives σ G (popReady m) w fun _ ↦ [] := by
  refine .modifyGet ?_
  split
  · exact h.modifyMind m (fun _ ↦ rfl) (fun _ ↦ rfl) (fun _ ↦ rfl) fun _ ↦ Nat.le_refl _
  · exact h

theorem popPending (h : Sane σ G w) (m : MindId) : Gives σ G (popPending m) w fun _ ↦ [] := by
  refine .modifyGet ?_
  split
  · exact h.modifyMind m (fun _ ↦ rfl) (fun _ ↦ rfl) (fun _ ↦ rfl) fun _ ↦ Nat.le_refl _
  · exact h

theorem beginUpdate (h : Sane σ G w) (m : MindId) (elapsed : Float) :
    Gives σ G (beginUpdate m elapsed) w fun _ ↦ [] :=
  .modify (h.modifyMind m (fun _ ↦ rfl) (fun _ ↦ rfl) (fun _ ↦ rfl) fun _ ↦ Nat.le_succ _)

theorem endUpdate (h : Sane σ G w) (m : MindId) : Gives σ G (endUpdate m) w fun _ ↦ [] :=
  .modify ((h.sweep m).modifyMind m (fun _ ↦ rfl) (fun _ ↦ rfl) (fun _ ↦ rfl) fun _ ↦ Nat.le_refl _)

section

variable (hE : E.Careful)

include hE

theorem drainReady (h : Sane σ G w) (m : MindId) (n resumed : Nat) :
    Gives σ G (drainReady E m n resumed) w fun _ ↦ [] := by
  induction n generalizing w resumed with
  | zero => exact .exhausted h
  | succ n ih =>
    refine (popReady h m).bind fun next w₁ h₁ ↦ ?_
    cases next with
    | none => exact .pure h₁
    | some id =>
      refine .read ?_
      split
      · exact (hE.resume m id h₁).bind fun _ _ h₂ ↦ ih h₂ _
      · exact ih h₁ _

theorem resumeDue (isDue : World → FrameId → Bool) (ids : List FrameId) (h : Sane σ G w) (m : MindId) (resumed : Nat) :
    Gives σ G (resumeDue E m isDue ids resumed) w fun _ ↦ [] := by
  induction ids generalizing w resumed with
  | nil => exact .pure h
  | cons id rest ih =>
    refine .read ?_
    split
    · exact (hE.resume m id h).bind fun _ _ h₁ ↦ (drainReady hE h₁ m _ _).bind fun _ _ h₂ ↦ ih h₂ _
    · exact ih h _

theorem drainPending (h : Sane σ G w) (m : MindId) (n resumed : Nat) :
    Gives σ G (drainPending E m n resumed) w fun _ ↦ [] := by
  induction n generalizing w resumed with
  | zero => exact .exhausted h
  | succ n ih =>
    refine (popPending h m).bind fun next w₁ h₁ ↦ ?_
    cases next with
    | none => exact .pure h₁
    | some id =>
      exact (hE.resume m id h₁).bind fun _ _ h₂ ↦ (drainReady hE h₂ m _ _).bind fun _ _ h₃ ↦ ih h₃ _

theorem resumePhases (h : Sane σ G w) (m : MindId) : Gives σ G (resumePhases E m) w fun _ ↦ [] :=
  .read ((resumeDue hE _ _ h m 0).bind fun _ _ h₁ ↦ (resumeDue hE _ _ h₁ m _).bind fun _ _ h₂ ↦
    (drainReady hE h₂ m _ _).bind fun _ _ h₃ ↦ drainPending hE h₃ m _ _)

theorem pump (h : Sane σ G w) (m : MindId) (elapsed : Float) : Gives σ G (pump E m elapsed) w fun _ ↦ [] :=
  (beginUpdate h m elapsed).bind fun _ _ h₁ ↦ (resumePhases hE h₁ m).bind fun _ _ h₂ ↦
    (endUpdate h₂ m).bind fun _ _ h₃ ↦ .pure h₃

theorem update (h : Sane σ G w) (m : MindId) (elapsed : Float) : Gives σ G (update E m elapsed) w fun _ ↦ [] := by
  rw [update_eq]
  refine .read ?_
  split
  · exact .pure h
  · split
    · exact .pure h
    · exact (pump hE h m elapsed).bind fun _ _ h₁ ↦ (runDestructors hE h₁).bind fun _ _ h₂ ↦ .pure h₂

/-! ### Host calls -/

omit hE in
theorem shareArgs {rs : List Ref} (h : Sane σ G w) (hrs : ∀ r ∈ rs, w.heap.Alive (.object r)) :
    Gives σ G (shareArgs rs) w argLinks := by
  induction rs generalizing G w with
  | nil => exact .pure h
  | cons r rest ih =>
    have hr := hrs r List.mem_cons_self
    have hrest := ih (h.retain hr) fun r' hr' ↦ Heap.alive_retain (hrs r' (List.mem_cons_of_mem r hr')) _
    exact .modified (Yields.bind hrest fun args _ h₁ ↦ .pure (h₁.mono fun l ↦ by
      simp only [argLinks, List.map_cons, List.cons_append, List.count_append, count_cons_hits]
      omega))

omit hE in
/-- The error of a call is a failure of its receiver. -/
theorem blame {B : α → List Link} {r : Except EvalError α} (h : Sane σ (broughtBy B r ++ G) w) (target : Ref)
    (member : String) : Gives σ G (blame target member r) w (broughtBy B) := by
  cases r with
  | ok a => exact .pure h
  | error e =>
    refine (releaseAll (L := e.exit.toList) h).bind fun _ w₁ h₁ ↦ .read (.pure ?_)
    have hlinks : (e.toFailure.withOrigin ⟨w₁.classNameOf target, member, w₁.describe target⟩).links = [] :=
      EvalError.links_of_isLoopExit e.isLoopExit_toFailure
    rw [broughtBy, hlinks]
    exact h₁

theorem newBody {c : ClassId} (hc : σ.Knows c) {rs : List Ref} (h : Sane σ G w) (hrs : ∀ r ∈ rs, σ.Lends G r) :
    Gives σ G (newBody E c rs) w (broughtBy fun r ↦ [.object r]) :=
  (shareArgs h fun r hr ↦ h.alive_lent (hrs r hr)).bind fun _ _ h₁ ↦ attempt (construct hE h₁ hc)

theorem evaluateBody (h : Sane σ G w) (arena : Arena) (root : ExprId) :
    Gives σ G (evaluateBody E arena root) w (broughtBy fun r ↦ [.object r]) := by
  refine (nil h).bind fun this w₁ h₁ ↦ (Yields.newContext h₁ arena Core.object).bind fun c w₂ h₂ ↦ ?_
  have hentered : Gives { σ with this := c.this } (w₂.context.links ++ G) (E.eval root) { w₂ with context := c }
      fun r ↦ [.object r] := hE.eval root (enter (A := []) h₂.1 h₂.2.1)
  refine (withContext h₂.1.rooted h₂.1.this hentered).bind fun p w₃ h₃ ↦ ?_
  refine (releaseLinks (L := p.2.links) (G := broughtBy (fun r ↦ [.object r]) p.1 ++ G) ?_).bind fun _ w₄ h₄ ↦ ?_
  · exact h₃.1.mono fun l ↦ by
      simp only [afterContext, List.count_append]
      omega
  · exact attempt (failLoopExit h₄)

theorem invokeBody {target : Ref} (h : Sane σ G w) (htarget : σ.Lends G target) (member : String)
    {rs : List Ref} (hrs : ∀ r ∈ rs, σ.Lends G r) :
    Gives σ G (invokeBody E target member rs) w (broughtBy fun r ↦ [.object r]) := by
  refine (shareArgs h fun r hr ↦ h.alive_lent (hrs r hr)).bind fun args w₁ h₁ ↦ ?_
  have hlive := h₁.alive_lent (htarget.mono fun _ hl ↦ List.mem_append_right _ hl)
  refine (retain h₁ hlive).bind fun _ w₂ h₂ ↦ ?_
  have hcall : Sane σ (argLinks args ++ (.object target :: G)) w₂ := h₂.mono (by grind)
  exact (attempt (callMethod hE hcall member none)).bind fun _ _ h₃ ↦ blame h₃ target member

theorem startMember {target : Ref} {args : ArgValues} (h : Sane σ (argLinks args ++ G) w) (htarget : σ.Lends G target)
    (member : String) (mind : MindId) (deferred : Bool) :
    Gives σ G (startMember E target member args mind deferred) w fun x ↦ [.outcome x.outcome] := by
  refine (Yields.resolveCall (G := (args.map Prod.snd).map .object ++ G) h target member none).elseRelease.bind
    fun m w₁ h₁ ↦ ?_
  have hlive := h₁.1.alive_lent (htarget.mono fun _ hl ↦ List.mem_append_right _ hl)
  refine (retain h₁.1 hlive).bind fun _ w₂ h₂ ↦ ?_
  have hcall : Sane σ (argLinks args ++ (.object target :: G)) w₂ := h₂.mono fun l ↦ by
    simp only [argLinks, List.cons_append, List.nil_append, List.count_append, count_cons_hits]
    omega
  exact spawnMember hE hcall h₁.2 (fun p hp ↦ by cases hp) deferred

theorem startBody {target : Ref} (h : Sane σ G w) (htarget : σ.Lends G target) (member : String) {rs : List Ref}
    (hrs : ∀ r ∈ rs, σ.Lends G r) (mind : MindId) (deferred : Bool) :
    Gives σ G (startBody E target member rs mind deferred) w (broughtBy fun x ↦ [.outcome x.outcome]) := by
  refine (shareArgs h fun r hr ↦ h.alive_lent (hrs r hr)).bind fun args w₁ h₁ ↦ ?_
  refine (attempt (startMember hE h₁ htarget member mind deferred)).bind fun result w₂ h₂ ↦ ?_
  refine (blame h₂ target member).bind fun result w₃ h₃ ↦ .modified (.pure ?_)
  exact h₃.settleMind mind

/-! Each call goes on with the safe point. -/

theorem hostNew {c : ClassId} (hc : σ.Knows c) {rs : List Ref} (h : Sane σ G w) (hrs : ∀ r ∈ rs, σ.Lends G r) :
    Gives σ G (hostNew E c rs) w fun r ↦ [.object r] :=
  hostNew_eq E c rs ▸ (newBody hE hc h hrs).bind fun _ _ h₁ ↦ finishHostCall hE h₁

theorem hostEvaluate (h : Sane σ G w) (arena : Arena) (root : ExprId) :
    Gives σ G (hostEvaluate E arena root) w fun r ↦ [.object r] :=
  hostEvaluate_eq E arena root ▸ (evaluateBody hE h arena root).bind fun _ _ h₁ ↦ finishHostCall hE h₁

theorem hostInvoke {target : Ref} (h : Sane σ G w) (htarget : σ.Lends G target) (member : String)
    {rs : List Ref} (hrs : ∀ r ∈ rs, σ.Lends G r) :
    Gives σ G (hostInvoke E target member rs) w fun r ↦ [.object r] :=
  hostInvoke_eq E target member rs ▸ (invokeBody hE h htarget member hrs).bind fun _ _ h₁ ↦ finishHostCall hE h₁

theorem hostStart {target : Ref} (h : Sane σ G w) (htarget : σ.Lends G target) (member : String) {rs : List Ref}
    (hrs : ∀ r ∈ rs, σ.Lends G r) (mind : MindId) (deferred : Bool) :
    Gives σ G (hostStart E target member rs mind deferred) w fun x ↦ [.outcome x.outcome] :=
  hostStart_eq E target member rs mind deferred ▸ (startBody hE h htarget member hrs mind deferred).bind
    fun _ _ h₁ ↦ finishHostCall hE h₁

end

end Machine.Gives

end MindScript
