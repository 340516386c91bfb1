import MindScript.Proofs.Calls.Bodies
import MindScript.Proofs.Continuation.Stages

/-!
# Where errors resume

An error goes down the task stack to the innermost construct that catches it.  In every stage that a body gets to, the values
and scopes there are those in which the body entered that construct, whatever has been opened, pushed or slept since.
-/

namespace MindScript

open Machine

/-! ### Unwinding -/

/-- Loops catch loop exits, and guarded bodies catch failures. -/
def Task.catches (e : EvalError) : Task → Bool
  | .loop _ _ _ => e.isLoopExit
  | .guarded _ _ _ _ => !e.isLoopExit
  | _ => false

/-- A scope has been opened inside the scopes `env` that was not there before, and nothing is bound in it but the message of an
error. -/
structure World.Tells (w : World) (errorName : String) (e : EvalError) (env : Environment) (w' : World) (scope : ScopeId)
    (message : Ref) : Prop where
  fresh : w.heap.scope? scope = none
  scopes : w'.context.env.scopes = env.scopes.push scope
  bindings : w'.heap.scope? scope = some { bindings := [(errorName, message)], parent := some env.innermost }
  text : w'.heap.payload message = .text e.message

/-- What the unwinding of an error comes to, where `P` is known of the handlers. -/
inductive Unwound (P : Knowledge) (e₀ : Environment) (w : World) (tasks : List Task) (e : EvalError) :
    Continuation × Option EvalError → World → Prop where
  /-- The innermost loop yields the value of a loop exit. -/
  | left {inner outer : List Task} {body : ExprId} {values : Stack Ref} {env : Environment} {value : Ref} {w' : World} :
      tasks = inner ++ .loop body env.depth values.height :: outer → (∀ t ∈ inner, t.catches e = false) →
      e.exit = some value → P (.loop body env.depth values.height) outer values env →
      w'.context = { w.context with env } → Unwound P e₀ w tasks e (⟨outer, values.push value⟩, none) w'
  /-- The handler of the innermost guarded body runs, once, and is told of a failure. -/
  | caught {inner outer : List Task} {errorName : String} {handler : ExprId} {values : Stack Ref} {env : Environment}
      {w' : World} {scope : ScopeId} {message : Ref} :
      tasks = inner ++ .guarded errorName handler env.depth values.height :: outer → (∀ t ∈ inner, t.catches e = false) →
      e.exit = none → P (.guarded errorName handler env.depth values.height) outer values env →
      w'.context = { w.context with env := w'.context.env } → w.Tells errorName e env w' scope message →
      Unwound P e₀ w tasks e (⟨.eval handler :: .popScope :: outer, values⟩, none) w'
  /-- Nothing catches the error. -/
  | escaped {w' : World} : (∀ t ∈ tasks, t.catches e = false) → w'.context = { w.context with env := e₀ } →
      Unwound P e₀ w tasks e ({ tasks := [] }, some e) w'

theorem Heap.size_scopes_release (h : Heap) (ls : List Link) : (h.release ls).scopes.size = h.scopes.size := by
  refine Heap.release_induction (P := fun h' ↦ h'.scopes.size = h.scopes.size) (fun h' l hh ↦ ?_) rfl ls
  rw [← hh]
  rcases Heap.unlink_cases h' l with heq | ⟨r, -, heq⟩ | ⟨s, heq⟩ | ⟨o, heq⟩ | ⟨r, o, -, -, -, -, -, heq⟩
  all_goals simp [heq, Heap.modifyObject, Heap.modifyScope, Heap.modifyOutcome]

section

variable {a : Arena} {P : Knowledge} {e₀ env : Environment} {tasks : List Task} {n : ℕ} {base : Stack Ref}
  {e : EvalError} {w w₁ w' : World} {r : Continuation × Option EvalError}

theorem World.Tells.earlier {errorName : String} {scope : ScopeId} {message : Ref}
    (h : w₁.Tells errorName e env w' scope message) (hsize : w₁.heap.scopes.size = w.heap.scopes.size) :
    w.Tells errorName e env w' scope message := by
  refine ⟨?_, h.scopes, h.bindings, h.text⟩
  have hfresh := h.fresh
  rw [Heap.scope?, Array.getElem?_eq_none_iff, hsize] at hfresh
  exact Array.getElem?_eq_none_iff.mpr hfresh

namespace Unwound

/-- A task that does not catch the error gives up no more than scopes of the running frame. -/
theorem cons {t : Task} (h : Unwound P e₀ w₁ tasks e r w') (ht : t.catches e = false)
    (hsize : w₁.heap.scopes.size = w.heap.scopes.size) (hcontext : w₁.context = { w.context with env := w₁.context.env }) :
    Unwound P e₀ w (t :: tasks) e r w' := by
  have hinner {inner : List Task} (h : ∀ t ∈ inner, t.catches e = false) : ∀ t' ∈ t :: inner, t'.catches e = false :=
    List.forall_mem_cons.mpr ⟨ht, h⟩
  cases h with
  | left htasks hskip hexit hknown hw' =>
    refine .left (congrArg (t :: ·) htasks) (hinner hskip) hexit hknown ?_
    rw [hw', hcontext]
  | caught htasks hskip hexit hknown hw' htells =>
    refine .caught (congrArg (t :: ·) htasks) (hinner hskip) hexit hknown ?_ (htells.earlier hsize)
    rw [hcontext] at hw'
    exact hw'
  | escaped hskip hw' =>
    refine .escaped (hinner hskip) ?_
    rw [hw', hcontext]

end Unwound

namespace Machine

theorem arena_unwind {values : Stack Ref} {e : EvalError} {tasks : List Task} {r : Continuation × Option EvalError}
    (hrun : unwind values e tasks w = (.ok r, w')) : w'.context.arena = w.context.arena := by
  induction tasks generalizing w with
  | nil =>
    cases hrun
    rfl
  | cons task rest ih =>
    unfold unwind at hrun
    cases task with
    | loop body depth height =>
      cases hexit : e.exit with
      | none =>
        simp only [hexit] at hrun
        exact ih hrun
      | some value =>
        simp only [hexit] at hrun
        cases hrun
        rfl
    | guarded errorName handler depth height =>
      dsimp only at hrun
      split at hrun
      · exact ih hrun
      · cases hrun
        rfl
    | popScope => exact (ih (w := (popScope w).2) hrun).trans rfl
    | await x => exact (ih (w := w.release [.outcome x.outcome]) hrun).trans rfl
    | _ => exact ih hrun

theorem size_scopes_popScope (w : World) : (popScope w).2.heap.scopes.size = w.heap.scopes.size := by
  show (w.context.env.pop w.heap).2.scopes.size = _
  unfold Environment.pop
  split
  · exact Heap.size_scopes_release _ _
  · rfl

/-- Where a handler catches an error, the scopes opened since are closed, and the values since are given up. -/
theorem exists_cut (rest : List Task) (values : Stack Ref) (vs : List Ref) (henv : w.context.env = env) :
    ∃ w₁, (∀ {α : Type} (F : Continuation → Machine α), (truncateScopes env.depth >>= fun _ ↦
        cutValues ⟨rest, values.pushAll vs⟩ values.height >>= F) w = F ⟨rest, values⟩ w₁) ∧
      w₁.context = { w.context with env } ∧ w₁.heap.scopes.size = w.heap.scopes.size := by
  refine ⟨(truncateScopes env.depth w).2.release (vs.map .object), fun F ↦ ?_, ?_, ?_⟩
  · rw [cutValues_pushAll]
    rfl
  · show { w.context with env := (w.context.env.truncate w.heap env.depth).1 } = _
    rw [henv, Environment.truncate_depth]
  · exact (Heap.size_scopes_release _ _).trans (Heap.size_scopes_release _ _)

/-- The message of an error is bound in a scope that is opened for it. -/
theorem exists_tells (errorName : String) (e : EvalError) (henv : w.context.env = env) :
    ∃ scope message w', (∀ {α : Type} (F : Machine α), (pushScope >>= fun _ ↦ string e.message >>= fun message ↦
        define errorName message >>= fun _ ↦ F) w = F w') ∧
      w'.context = { w.context with env := (env.push w.heap).1 } ∧ w.Tells errorName e env w' scope message := by
  subst henv
  let told := (string e.message (pushScope w).2).2
  let message : Ref := ⟨(pushScope w).2.heap.objects.size⟩
  let scope : ScopeId := ⟨(w.heap.retain (.scope w.context.env.innermost)).scopes.size⟩
  have hfresh : w.heap.scope? scope = none :=
    Array.getElem?_eq_none (Nat.le_of_eq (by simp [scope, Heap.retain, Heap.modifyScope]))
  have hscope : told.heap.scope? scope = some { parent := some w.context.env.innermost } := Array.getElem?_push_size
  have hmessage : told.heap.object? message = some { classId := Core.string, payload := .text e.message } :=
    Heap.object?_newObject_self _ _
  -- Nothing was bound in the new scope, so that nothing is given up.
  have hheap : (define errorName message told).2.heap = (told.heap.define scope errorName message).2 := by
    show (told.heap.define scope errorName message).2.release
      (((told.heap.scope? scope).bind fun s ↦ s.bindings.lookup errorName).toList.map .object) = _
    rw [hscope]
    rfl
  refine ⟨scope, message, (define errorName message told).2, fun F ↦ rfl, rfl, hfresh, rfl, ?_, ?_⟩
  · rw [hheap]
    simp [Heap.define, Heap.scope?_modifyScope, hscope]
  · have hpayload : (define errorName message told).2.heap.payload message = told.heap.payload message := by
      rw [hheap]
      rfl
    rw [hpayload, Heap.payload, Heap.object, hmessage]
    rfl

/-- Unwinding stops at the innermost handler that catches the error, with the values and scopes outside. -/
theorem exists_unwound (hready : Ready a P e₀ tasks n base w.context.env) (vs : List Ref) (e : EvalError) :
    ∃ r w', unwind (base.pushAll vs) e tasks w = (.ok r, w') ∧ Unwound P e₀ w tasks e r w' ∧
      (r.2 = none → r.1.InOrder a P e₀ w'.context.env) := by
  generalize henv : w.context.env = env at hready
  induction hready generalizing vs w with
  | done =>
    refine ⟨({ tasks := [] }, some e), w.release (((Stack.empty.pushAll vs).toList).map .object), rfl, ?_, fun h ↦ by cases h⟩
    refine .escaped (List.forall_mem_nil _) ?_
    rw [← henv]
    rfl
  | @value t rest _ k base env htakes _ ih =>
    cases htakes with
    | await x =>
      obtain ⟨r, w', hrun, hunwound, hgoes⟩ := ih (w := w.release [.outcome x.outcome]) vs henv
      exact ⟨r, w', hrun, hunwound.cons rfl (Heap.size_scopes_release _ _) rfl, hgoes⟩
    | _ =>
      obtain ⟨r, w', hrun, hunwound, hgoes⟩ := ih vs henv
      exact ⟨r, w', hrun, hunwound.cons rfl rfl rfl, hgoes⟩
  | discard _ ih =>
    obtain ⟨r, w', hrun, hunwound, hgoes⟩ := ih vs henv
    exact ⟨r, w', hrun, hunwound.cons rfl rfl rfl, hgoes⟩
  | @popScope rest _ base env env' hpop _ ih =>
    have hscopes : (popScope w).2.context.env = env := (hpop w.heap) ▸ henv ▸ rfl
    obtain ⟨r, w', hrun, hunwound, hgoes⟩ := ih vs hscopes
    exact ⟨r, w', hrun, hunwound.cons rfl (size_scopes_popScope w) rfl, hgoes⟩
  | @handler t rest base us env hnotes hknown hrest ih =>
    cases hnotes with
    | loop body =>
      cases hexit : e.exit with
      | none =>
        obtain ⟨r, w', hrun, hunwound, hgoes⟩ := ih (us ++ vs) henv
        rw [Stack.pushAll_append] at hrun
        refine ⟨r, w', ?_, hunwound.cons (by simp [Task.catches, EvalError.isLoopExit, hexit]) rfl rfl, hgoes⟩
        rw [unwind, hexit]
        exact hrun
      | some value =>
        obtain ⟨w₁, hcut, hcontext, -⟩ := exists_cut rest (base.pushAll us) vs henv
        refine ⟨(⟨rest, (base.pushAll us).push value⟩, none), w₁, ?_, ?_, fun _ ↦ ?_⟩
        · rw [unwind, hexit]
          exact hcut _
        · exact .left (List.nil_append _).symm (List.forall_mem_nil _) hexit hknown hcontext
        · have henv₁ : w₁.context.env = env := by rw [hcontext]
          exact ⟨_, base, us ++ [value], List.length_append, by simp, henv₁ ▸ hrest⟩
    | guarded errorName handler =>
      cases hexit : e.exit with
      | some value =>
        obtain ⟨r, w', hrun, hunwound, hgoes⟩ := ih (us ++ vs) henv
        rw [Stack.pushAll_append] at hrun
        refine ⟨r, w', ?_, hunwound.cons (by simp [Task.catches, EvalError.isLoopExit, hexit]) rfl rfl, hgoes⟩
        rw [unwind, EvalError.isLoopExit, hexit]
        exact hrun
      | none =>
        obtain ⟨w₁, hcut, hcontext, hsize⟩ := exists_cut rest (base.pushAll us) vs henv
        have henv₁ : w₁.context.env = env := by rw [hcontext]
        obtain ⟨scope, message, w', htold, hcontext', htells⟩ := exists_tells errorName e henv₁
        have henv' : w'.context.env = (env.push w₁.heap).1 := by rw [hcontext']
        refine ⟨(⟨.eval handler :: .popScope :: rest, base.pushAll us⟩, none), w', ?_, ?_, fun _ ↦ ?_⟩
        · rw [unwind, EvalError.isLoopExit, hexit]
          exact (hcut _).trans (htold _)
        · refine .caught (List.nil_append _).symm (List.forall_mem_nil _) hexit hknown ?_ (htells.earlier hsize)
          rw [hcontext', hcontext]
        · refine ⟨_, base, us, rfl, rfl, .eval handler (.popScope (fun h ↦ ?_) hrest)⟩
          rw [henv']
          exact Environment.pop_push env w₁.heap h

end Machine

end

/-- Actions do without no Mind that there was. -/
theorem Machine.Alike.rooted {E : Engine} {α : Type} {f : Machine α} {r : α} {w w' : World}
    (h : Alike E E ⟨w.current, 0, true, none⟩ f f) (hE : E.Balanced) (hw : w.Rooted) (hrun : f w = (.ok r, w')) :
    w'.Rooted := by
  have hholds : Setting.Holds ⟨w.current, 0, true, none⟩ w := ⟨rfl, Nat.zero_le _, hw⟩
  have hlevel := (h.balanced hE w hholds).level (by rw [hrun]; simp)
  rw [hrun] at hlevel
  exact (hholds.onward hlevel.toOnward).rooted

/-- A run of tasks goes on over the same arena. -/
theorem Machine.arena_runTasks {E : Engine} {a : Arena} {k k' : Continuation} {w w' : World} (hE : E.Balanced)
    (hw : w.Rooted) {n : ℕ} {step : Except EvalError Step} (hrun : runTasks E a n k w = (.ok (k', step), w')) :
    w'.context.arena = w.context.arena := by
  induction n generalizing k w with
  | zero => cases hrun
  | succ n ih =>
    obtain ⟨tasks, values⟩ := k
    cases tasks with
    | nil =>
      have hends : Alike E E ⟨w.current, 0, false, none⟩ (runTasks E a (n + 1) ⟨[], values⟩)
          (runTasks E a (n + 1) ⟨[], values⟩) :=
        (Alike.popValue _).bind fun _ ↦ (Alike.releaseAll _).bind fun _ ↦ .pure _
      rw [hends.context_eq hE hw hrun]
    | cons task rest =>
      obtain ⟨⟨k₁, progress⟩, w₁, htask, hrun⟩ := exists_of_bind_eq_ok hrun
      have hw₁ := (Alike.runTask rfl a _ task).rooted hE hw htask
      have ha₁ := arena_runTask hE hw htask
      cases progress with
      | running => exact (ih hw₁ hrun).trans ha₁
      | suspend wake =>
        cases hrun
        exact ha₁
      | failed e =>
        obtain ⟨⟨k₂, e?⟩, w₂, hunwind, hrun⟩ := exists_of_bind_eq_ok hrun
        have ha₂ := (arena_unwind hunwind).trans ha₁
        cases e? with
        | some e' =>
          cases hrun
          exact ha₂
        | none => exact (ih ((Alike.unwind rfl k₁.values e k₁.tasks).rooted hE hw₁ hunwind) hrun).trans ha₂

/-! ### Stages of a body -/

/-- The next task of a stage fails, run by whatever engine in whatever world, and leaves a continuation and a world behind. -/
inductive Stage.Fails (a : Arena) : Stage → Continuation → EvalError → World → Prop where
  | intro {E : Engine} {w w' : World} {task : Task} {rest : List Task} {values : Stack Ref} {k : Continuation}
      {e : EvalError} : E.Balanced → w.Rooted → w.context.arena = a →
      runTask E a ⟨rest, values⟩ task w = (.ok (k, .failed e), w') →
      Fails a ⟨⟨task :: rest, values⟩, w.context.env⟩ k e w'

/-- A body goes from one stage to the next with a task, run by whatever engine in whatever world: the task ends well, or the
body sleeps with it, or the error of the task is caught. -/
inductive Stage.Goes (a : Arena) : Stage → Stage → Prop where
  | runs {E : Engine} {w w' : World} {task : Task} {rest : List Task} {values : Stack Ref} {k : Continuation} :
      E.Balanced → w.Rooted → w.context.arena = a → runTask E a ⟨rest, values⟩ task w = (.ok (k, .running), w') →
      Goes a ⟨⟨task :: rest, values⟩, w.context.env⟩ ⟨k, w'.context.env⟩
  | sleeps {E : Engine} {w w' : World} {task : Task} {rest : List Task} {values : Stack Ref} {k : Continuation}
      {wake : Wake} : E.Balanced → w.Rooted → w.context.arena = a →
      runTask E a ⟨rest, values⟩ task w = (.ok (k, .suspend wake), w') →
      Goes a ⟨⟨task :: rest, values⟩, w.context.env⟩ ⟨k, w'.context.env⟩
  | recovers {s : Stage} {k k' : Continuation} {e : EvalError} {w w' : World} : s.Fails a k e w →
      unwind k.values e k.tasks w = (.ok (k', none), w') → Goes a s ⟨k', w'.context.env⟩

/-- The stages that a body gets to that starts in the scopes `e₀`, each with the stages before it, the last one first.  Between
a stage in which the body sleeps and the next one any time may pass. -/
inductive Unfolds (a : Arena) (body : ExprId) (e₀ : Environment) : List Stage → Stage → Prop where
  | start : Unfolds a body e₀ [] ⟨.new body, e₀⟩
  | next {past : List Stage} {s s' : Stage} : Unfolds a body e₀ past s → s.Goes a s' → Unfolds a body e₀ (s :: past) s'

/-- Where a run of the rest of a body comes to rest: in a later stage, at the end of the body, or with an error that a task
has failed with and that nothing on the task stack catches. -/
inductive Rests (a : Arena) (body : ExprId) (e₀ : Environment) : Continuation → Except EvalError Step → Environment → Prop where
  | asleep {past : List Stage} {k : Continuation} {env : Environment} {wake : Wake} : Unfolds a body e₀ past ⟨k, env⟩ →
      Rests a body e₀ k (.ok (.suspend wake)) env
  | done {past : List Stage} {values : Stack Ref} {env : Environment} {value : Ref} :
      Unfolds a body e₀ past ⟨⟨[], values⟩, env⟩ → Rests a body e₀ { tasks := [] } (.ok (.done value)) env
  | failed {past : List Stage} {s : Stage} {k : Continuation} {e : EvalError} {w : World} : Unfolds a body e₀ past s →
      s.Fails a k e w → (∀ t ∈ k.tasks, t.catches e = false) → Rests a body e₀ { tasks := [] } (.error e) e₀

/-- The task was left behind by a construct that a past stage entered, with these values and scopes and these tasks below, and
has stayed on the stack since. -/
def Entered (a : Arena) (past : List Stage) : Knowledge := fun t outer values env ↦
  ∃ id later earlier, past = later ++ ⟨⟨.eval id :: outer, values⟩, env⟩ :: earlier ∧
    Stage.Enters a ⟨⟨.eval id :: outer, values⟩, env⟩ t ∧ ∀ s ∈ later, t :: outer <:+ s.rest.tasks

section

variable {a : Arena} {body : ExprId} {e₀ : Environment} {past : List Stage} {E : Engine} {w w₁ w' : World} {task : Task}
  {rest : List Task} {values : Stack Ref} {e : EvalError} {k k' : Continuation}

theorem Entered.later {s : Stage} {t : Task} {outer : List Task} {env : Environment} (h : Entered a past t outer values env)
    (hs : t :: outer <:+ s.rest.tasks) : Entered a (s :: past) t outer values env := by
  obtain ⟨id, later, earlier, rfl, henters, hstays⟩ := h
  exact ⟨id, s :: later, earlier, rfl, henters, List.forall_mem_cons.mpr ⟨hs, hstays⟩⟩

theorem Stage.Enters.entered {t : Task} {env : Environment} (h : Stage.Enters a ⟨⟨task :: rest, values⟩, env⟩ t) :
    Entered a (⟨⟨task :: rest, values⟩, env⟩ :: past) t rest values env := by
  obtain ⟨id, rfl⟩ : ∃ id, task = .eval id := by
    cases h with
    | loop _ _ => exact ⟨_, rfl⟩
    | guarded _ _ => exact ⟨_, rfl⟩
  exact ⟨id, [], past, rfl, h, List.forall_mem_nil _⟩

namespace Unfolds

theorem lands {s : Continuation × Progress} (hE : E.Balanced) (hclosed : a.Closed) (hw : w.Rooted)
    (hready : (⟨task :: rest, values⟩ : Continuation).InOrder a (Entered a past) e₀ w.context.env)
    (hrun : runTask E a ⟨rest, values⟩ task w = (.ok s, w')) :
    Lands a (Entered a (⟨⟨task :: rest, values⟩, w.context.env⟩ :: past)) e₀ rest w'.context.env s := by
  obtain ⟨n, base, vs, hn, rfl, hready⟩ := hready.mono fun t outer _ _ hsuffix hentered ↦
    Entered.later (s := ⟨⟨task :: rest, values⟩, w.context.env⟩) hentered hsuffix
  exact lands_runTask hE hclosed hw hready hn (fun t henters ↦ henters.entered) hrun

/-- In each stage the tasks fit the values, and the handlers among them are those of constructs that were entered. -/
theorem inOrder {s : Stage} (h : Unfolds a body e₀ past s) (hclosed : a.Closed) :
    s.rest.InOrder a (Entered a past) e₀ s.env := by
  induction h with
  | start => exact Continuation.inOrder_new body
  | next _ hgoes ih =>
    cases hgoes with
    | runs hE hw _ hrun => exact lands hE hclosed hw ih hrun
    | sleeps hE hw _ hrun => exact lands hE hclosed hw ih hrun
    | recovers hfails hunwind =>
      cases hfails with
      | intro hE hw _ hrun =>
        obtain ⟨htasks, n, base, vs, hvalues, hready⟩ := lands hE hclosed hw ih hrun
        obtain ⟨r, w', hunwind', -, hinOrder⟩ := exists_unwound hready vs _
        rw [htasks, hvalues] at hunwind
        cases hunwind'.symm.trans hunwind
        exact hinOrder rfl

/-- An error that a task fails with is unwound to the innermost construct that catches it. -/
theorem unwound {s : Stage} (h : Unfolds a body e₀ past s) (hclosed : a.Closed) (hfails : s.Fails a k e w) :
    (∃ task, s.rest.tasks = task :: k.tasks) ∧
      ∃ r w', unwind k.values e k.tasks w = (.ok r, w') ∧ Unwound (Entered a (s :: past)) e₀ w k.tasks e r w' := by
  cases hfails with
  | intro hE hw _ hrun =>
    obtain ⟨htasks, n, base, vs, hvalues, hready⟩ := lands hE hclosed hw (h.inOrder hclosed) hrun
    obtain ⟨r, w', hunwind, hunwound, -⟩ := exists_unwound hready vs e
    rw [htasks, hvalues]
    exact ⟨⟨_, rfl⟩, r, w', hunwind, hunwound⟩

/-- A run of the rest of a body goes from stage to stage. -/
theorem rests (h : Unfolds a body e₀ past ⟨k, w.context.env⟩) (hclosed : a.Closed) (hE : E.Balanced)
    (hw : w.Rooted) (ha : w.context.arena = a) {n : ℕ} {step : Except EvalError Step}
    (hrun : runTasks E a n k w = (.ok (k', step), w')) : Rests a body e₀ k' step w'.context.env := by
  induction n generalizing past k w with
  | zero => cases hrun
  | succ n ih =>
    obtain ⟨tasks, values⟩ := k
    cases tasks with
    | nil =>
      have hends : Alike E E ⟨w.current, 0, false, none⟩ (runTasks E a (n + 1) ⟨[], values⟩)
          (runTasks E a (n + 1) ⟨[], values⟩) :=
        (Alike.popValue _).bind fun _ ↦ (Alike.releaseAll _).bind fun _ ↦ .pure _
      rw [hends.context_eq hE hw hrun]
      obtain ⟨⟨v, k₁⟩, w₁, -, hrun⟩ := exists_of_bind_eq_ok hrun
      cases hrun
      exact .done h
    | cons task rest =>
      obtain ⟨⟨k₁, progress⟩, w₁, htask, hrun⟩ := exists_of_bind_eq_ok hrun
      have hw₁ := (Alike.runTask rfl a _ task).rooted hE hw htask
      have ha₁ := (arena_runTask hE hw htask).trans ha
      cases progress with
      | running => exact ih (h.next (.runs hE hw ha htask)) hw₁ ha₁ hrun
      | suspend wake =>
        cases hrun
        exact .asleep (h.next (.sleeps hE hw ha htask))
      | failed e =>
        obtain ⟨⟨k₂, e?⟩, w₂, hunwind, hrun⟩ := exists_of_bind_eq_ok hrun
        have hfails : Stage.Fails a ⟨⟨task :: rest, values⟩, w.context.env⟩ k₁ e w₁ := .intro hE hw ha htask
        cases e? with
        | some e' =>
          cases hrun
          obtain ⟨-, r, w₃, hunwind', hunwound⟩ := h.unwound hclosed hfails
          cases hunwind'.symm.trans hunwind
          cases hunwound with
          | escaped hskip hcontext =>
            rw [hcontext]
            exact .failed h hfails hskip
        | none =>
          exact ih (h.next (.recovers hfails hunwind))
            ((Alike.unwind rfl k₁.values e k₁.tasks).rooted hE hw₁ hunwind) ((arena_unwind hunwind).trans ha₁) hrun

end Unfolds

end

end MindScript
