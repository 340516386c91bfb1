import MindScript.Machine.Continue
import MindScript.Proofs.Custody.Eval
import MindScript.Proofs.Custody.Members

/-!
# Custody in resumable evaluation

A continuation holds its values, and the handles that it awaits.  A task takes its operands from the values, and what
it comes to is put there; unwinding gives up the values above the construct that handles the error.
-/

namespace MindScript

open Machine
open World (Sane)

variable {α : Type} {σ : Footing} {A G : List Link} {w : World} {E : Engine} {k : Continuation} {value : Ref} {l : Link}

/-! ### The links of a continuation -/

namespace Continuation

theorem count_links (k : Continuation) (l : Link) :
    k.links.count l = (k.tasks.flatMap Task.links).count l + (k.values.items.map Link.object).count l := by
  rw [links, Stack.toList, List.map_reverse, List.count_append, List.count_reverse, List.count_flatMap, List.count_flatMap,
    List.map_reverse, List.sum_reverse]

theorem count_links_push (k : Continuation) (value : Ref) (l : Link) :
    (k.push value).links.count l = Link.hits (.object value) l + k.links.count l := by
  simp only [count_links, push, Stack.items_push, List.map_cons, count_cons_hits]
  omega

theorem count_links_todo (k : Continuation) (tasks : List Task) (l : Link) :
    (k.todo tasks).links.count l = (tasks.flatMap Task.links).count l + k.links.count l := by
  simp only [count_links, todo, List.flatMap_append, List.count_append]
  omega

theorem count_links_drop (k : Continuation) (n : Nat) (l : Link) :
    ((k.values.topmost n).map Link.object).count l + { k with values := k.values.drop n }.links.count l =
      k.links.count l := by
  have hsplit := congrArg (fun xs ↦ (xs.map Link.object).count l) (List.take_append_drop n k.values.items)
  simp only [List.map_append, List.count_append] at hsplit
  simp only [count_links, Stack.topmost, Stack.items_drop, List.map_reverse, List.count_reverse]
  omega

theorem count_links_pop (k : Continuation) (l : Link) :
    (k.values.top?.toList.map Link.object).count l + { k with values := k.values.pop }.links.count l =
      k.links.count l := by
  have hdrop := k.count_links_drop 1 l
  rw [← hdrop, Stack.pop, Stack.topmost, Stack.top?]
  cases k.values.items <;> rfl

theorem count_links_cons {task : Task} {rest : List Task} (h : k.tasks = task :: rest) (l : Link) :
    task.links.count l + { k with tasks := rest }.links.count l = k.links.count l := by
  simp only [count_links, h, List.flatMap_cons, List.count_append]
  omega

end Continuation

open Continuation (count_links_push count_links_todo count_links_drop count_links_pop count_links_cons)

/-- The links that a task may end with. -/
def Progress.links : Progress → List Link
  | .running => []
  | .suspend wake => wake.links
  | .failed e => e.links

namespace Machine

/-- What is in hand after a task. -/
def afterTask (p : Continuation × Progress) : List Link := p.1.links ++ p.2.links

namespace Gives

/-! ### The value stack -/

theorem popValue (h : Sane σ (k.links ++ G) w) : Gives σ G (popValue k) w fun p ↦ .object p.1 :: p.2.links := by
  unfold Machine.popValue
  split
  · next value hvalue =>
    refine .pure (h.mono fun l ↦ ?_)
    have hpop := k.count_links_pop l
    rw [hvalue] at hpop
    simp only [Option.toList_some, List.map_cons, List.map_nil, count_cons_hits, List.count_nil] at hpop
    simp only [List.cons_append, count_cons_hits, List.count_append]
    omega
  · exact (nil h).bind fun _ _ h₁ ↦ .pure h₁

theorem within_popValues (k : Continuation) (n : Nat) :
    Within ((popValues k n).1.map .object ++ (popValues k n).2.links) k.links := fun l ↦ by
  rw [List.count_append]
  exact Nat.le_of_eq (k.count_links_drop n l)

theorem within_popArgs (k : Continuation) (args : List CallArg) :
    Within (argLinks (popArgs k args).1 ++ (popArgs k args).2.links) k.links := fun l ↦ by
  have hvalues := within_popValues k args.length l
  have hsub := List.Sublist.count_le l ((map_snd_zip_sublist (args.map CallArg.name)
    (Machine.popValues k args.length).1).map Link.object)
  simp only [List.count_append] at hvalues
  simp only [Machine.popArgs, argLinks, List.count_append]
  omega

theorem cutValues (h : Sane σ (k.links ++ G) w) (height : Nat) :
    Gives σ G (cutValues k height) w Continuation.links := by
  have hcut : Sane σ ((k.values.topmost (k.height - height)).map .object ++
      ({ k with values := k.values.drop (k.height - height) }.links ++ G)) w := h.mono fun l ↦ by
    have hdrop := k.count_links_drop (k.height - height) l
    simp only [List.count_append]
    omega
  exact (releaseAll hcut).bind fun _ _ h₁ ↦ .pure h₁

/-! ### Tasks -/

/-- Tasks that hold nothing are pushed. -/
theorem todo (h : Sane σ (k.links ++ G) w) {tasks : List Task} (htasks : ∀ t ∈ tasks, t.links = []) :
    Gives σ G (pure (k.todo tasks, .running)) w afterTask := by
  refine .pure (h.mono fun l ↦ ?_)
  have hnone : tasks.flatMap Task.links = [] := List.flatMap_eq_nil_iff.mpr htasks
  simp only [afterTask, Progress.links, count_links_todo, hnone, List.count_append, List.count_nil]
  omega

theorem push (h : Sane σ (.object value :: (k.links ++ G)) w) :
    Gives σ G (pure (k.push value, .running)) w afterTask := by
  refine .pure (h.mono fun l ↦ ?_)
  simp only [afterTask, Progress.links, count_links_push, List.count_append, count_cons_hits, List.count_nil]
  omega

theorem failed {e : EvalError} (h : Sane σ (e.links ++ (k.links ++ G)) w) :
    Gives σ G (pure (k, .failed e)) w afterTask := by
  refine .pure (h.mono fun l ↦ ?_)
  simp only [afterTask, Progress.links, List.count_append]
  omega

theorem yieldValue {f : Machine Ref} (hf : Gives σ (k.links ++ G) f w fun r ↦ [.object r]) :
    Gives σ G (yieldValue k f) w afterTask := by
  refine (attempt hf).bind fun result w₁ h₁ ↦ ?_
  cases result with
  | ok value => exact push h₁
  | error e => exact failed h₁

/-- A handle that is awaited stays with the task that waits. -/
theorem awaitFrame {x : Handle} (h : Sane σ (.outcome x.outcome :: (k.links ++ G)) w) :
    Gives σ G (awaitFrame k x) w afterTask := by
  have hlive := h.alive (l := .outcome x.outcome) List.mem_cons_self
  have hrelease : ∀ {value w'}, Sane σ (.object value :: .outcome x.outcome :: (k.links ++ G)) w' →
      Gives σ G (do Machine.releaseLinks [.outcome x.outcome]; return (k.push value, .running)) w' afterTask :=
    fun {value} _ h' ↦ (releaseLinks (L := [.outcome x.outcome]) (G := .object value :: (k.links ++ G)) (h'.mono (by grind))).bind
      fun _ _ h₁ ↦ push h₁
  refine .read ?_
  split
  · exact (shareOrNil h fun _ hvalue ↦ h.alive_result hlive hvalue).bind fun _ _ h₁ ↦ hrelease h₁
  · exact (nil h).bind fun _ _ h₁ ↦ hrelease h₁
  · refine (releaseLinks (L := [.outcome x.outcome]) h).bind fun _ w₁ h₁ ↦ failed ?_
    have hlinks : ((w.heap.outcome x.outcome).error.getD (.custom "awaited coroutine failed")).links = [] := by
      cases herror : (w.heap.outcome x.outcome).error with
      | none => rfl
      | some e => exact EvalError.links_of_isLoopExit (h.exit_of_error herror)
    rw [hlinks]
    exact h₁
  all_goals
    refine (retainLink h hlive).bind fun _ w₁ h₁ ↦ .pure (h₁.mono fun l ↦ ?_)
    simp only [afterTask, Progress.links, Wake.links, count_links_todo, Task.links, List.flatMap_cons, List.flatMap_nil,
      List.count_append, count_cons_hits, List.count_nil]
    omega

theorem awaitInvoked {f : Machine Invoked} (hf : Gives σ (k.links ++ G) f w Invoked.links) :
    Gives σ G (awaitInvoked k f) w afterTask := by
  refine (attempt hf).bind fun result w₁ h₁ ↦ ?_
  match result with
  | .ok (.done value) => exact push h₁
  | .ok (.running x) => exact awaitFrame h₁
  | .error e => exact failed h₁

theorem nextClause (h : Sane σ (k.links ++ G) w) (arena : Arena) (clauses : Span) (next : Nat)
    (otherwise : Option ExprId) : Gives σ G (nextClause arena k clauses next otherwise) w afterTask := by
  unfold Machine.nextClause
  split
  · exact todo h (by simp [Task.links])
  · exact todo h (by simp [Task.links])
  · exact (nil h).bind fun _ _ h₁ ↦ push h₁

theorem links_of_mem_blockTasks {items : List ExprId} {t : Task} (ht : t ∈ blockTasks items) : t.links = [] := by
  induction items with
  | nil => cases ht
  | cons e rest ih =>
    cases rest with
    | nil =>
      obtain rfl := List.mem_singleton.mp ht
      rfl
    | cons e' rest =>
      simp only [blockTasks, List.mem_cons] at ht ih
      rcases ht with rfl | rfl | ht
      · rfl
      · rfl
      · exact ih ht

theorem links_of_mem_argTasks {args : List CallArg} {t : Task} (ht : t ∈ argTasks args) : t.links = [] := by
  obtain ⟨arg, -, rfl⟩ := List.mem_map.mp ht
  rfl

theorem links_of_mem_receiverTasks {receiver : Option ExprId} {t : Task} (ht : t ∈ receiverTasks receiver) :
    t.links = [] := by
  obtain ⟨e, -, rfl⟩ := List.mem_map.mp ht
  rfl

/-- The operands of a call hold nothing yet. -/
theorem links_of_mem_callTasks {receiver : Option ExprId} {args : List CallArg} {op : Apply} {t : Task}
    (ht : t ∈ receiverTasks receiver ++ argTasks args ++ [.apply op]) : t.links = [] := by
  simp only [List.mem_append, List.mem_singleton] at ht
  rcases ht with (ht | ht) | rfl
  · exact links_of_mem_receiverTasks ht
  · exact links_of_mem_argTasks ht
  · rfl

section

variable (hE : E.Careful)

include hE

theorem decompose (h : Sane σ (k.links ++ G) w) (arena : Arena) (id : ExprId) :
    Gives σ G (decompose E arena k id) w afterTask := by
  unfold Machine.decompose
  split
  · exact todo h (by simp [Task.links])
  · exact todo h (by simp [Task.links])
  · split
    · exact todo h (by simp [Task.links])
    · exact todo h (by simp [Task.links])
  · exact todo h (by simp [Task.links])
  · exact todo h fun t ht ↦ links_of_mem_callTasks ht
  · exact todo h fun t ht ↦ links_of_mem_callTasks ht
  · refine todo h fun t ht ↦ ?_
    rcases List.mem_cons.mp ht with rfl | ht
    · rfl
    · exact @links_of_mem_callTasks none _ _ _ ht
  · exact todo h fun t ht ↦ @links_of_mem_callTasks none _ _ _ ht
  · refine todo h fun t ht ↦ ?_
    rcases List.mem_append.mp ht with ht | ht
    · obtain ⟨e, -, rfl⟩ := List.mem_map.mp ht
      rfl
    · obtain rfl := List.mem_singleton.mp ht
      rfl
  · exact nextClause h ..
  · split
    · exact (nil h).bind fun _ _ h₁ ↦ push h₁
    · refine (pushScope h).bind fun _ _ h₁ ↦ todo h₁ fun t ht ↦ ?_
      rcases List.mem_append.mp ht with ht | ht
      · exact links_of_mem_blockTasks ht
      · obtain rfl := List.mem_singleton.mp ht
        rfl
  · exact .read (todo h (by simp [Task.links]))
  · exact todo h (by simp [Task.links])
  · exact .read (todo h (by simp [Task.links]))
  · exact awaitInvoked ((spawnGroup hE h ..).map fun _ _ h₁ ↦ h₁)
  · exact yieldValue (hE.eval id h)

omit hE in
theorem popReceiver (h : Sane σ (k.links ++ G) w) (hasReceiver : Bool) :
    Gives σ G (popReceiver k hasReceiver) w fun p ↦ .object p.1 :: p.2.links := by
  unfold Machine.popReceiver
  split
  · exact popValue h
  · exact .read ((share h (h.this ▸ h.alive_this)).bind fun _ _ h₁ ↦ .pure h₁)

/-- An operation takes its operands from the values. -/
theorem applyOp (h : Sane σ (k.links ++ G) w) (arena : Arena) (op : Apply) :
    Gives σ G (applyOp E arena k op) w afterTask := by
  have hargs : ∀ args : List CallArg, Sane σ (argLinks (Machine.popArgs k args).1 ++
      ((Machine.popArgs k args).2.links ++ G)) w := fun args ↦ h.mono fun l ↦ by
    have hpop := within_popArgs k args l
    simp only [List.count_append] at hpop ⊢
    omega
  -- The arguments stay in hand while the receiver is taken.
  have hcall : ∀ args : List CallArg, Sane σ ((Machine.popArgs k args).2.links ++
      (argLinks (Machine.popArgs k args).1 ++ G)) w := fun args ↦ (hargs args).mono fun l ↦ by
    simp only [List.count_append]
    omega
  unfold Machine.applyOp
  cases op with
  | bind name =>
    refine (popValue h).bind fun p w₁ h₁ ↦ ?_
    have h₁ : Sane σ (.object p.1 :: (p.2.links ++ G)) w₁ := h₁
    refine (retain h₁ (h₁.alive List.mem_cons_self)).bind fun _ _ h₂ ↦ ?_
    exact (define h₂ name).bind fun _ _ h₃ ↦ push h₃
  | assign name => exact (popValue h).bind fun _ _ h₁ ↦ yieldValue (assignName h₁ name)
  | binary op =>
    refine (popValue h).bind fun right w₁ h₁ ↦ ?_
    have h₁ : Sane σ (right.2.links ++ (.object right.1 :: G)) w₁ := h₁.mono fun l ↦ by
      simp only [List.cons_append, List.count_append, count_cons_hits]
      omega
    refine (popValue h₁).bind fun left w₂ h₂ ↦ ?_
    have hcall : Sane σ (argLinks [(none, right.1)] ++ (.object left.1 :: (left.2.links ++ G))) w₂ := h₂.mono fun l ↦ by
      simp only [argLinks, List.map_cons, List.map_nil, List.cons_append, List.nil_append, List.count_append,
        count_cons_hits]
      omega
    exact yieldValue (callMethod hE hcall _ _)
  | unary op =>
    refine (popValue h).bind fun p w₁ h₁ ↦ ?_
    have hcall : Sane σ (argLinks [] ++ (.object p.1 :: (p.2.links ++ G))) w₁ := h₁
    exact yieldValue (callMethod hE hcall _ _)
  | method hasReceiver name args qualifier =>
    refine (popReceiver (hcall (arena.argsAt args)) hasReceiver).bind fun p w₁ h₁ ↦ ?_
    have hready : Sane σ (argLinks (Machine.popArgs k (arena.argsAt args)).1 ++ (.object p.1 :: (p.2.links ++ G))) w₁ :=
      h₁.mono fun l ↦ by
        simp only [List.cons_append, List.count_append, count_cons_hits]
        omega
    exact yieldValue (callMethod hE hready name qualifier)
  | coroutine hasReceiver name args qualifier =>
    refine (popReceiver (hcall (arena.argsAt args)) hasReceiver).bind fun p w₁ h₁ ↦ ?_
    have hready : Sane σ (argLinks (Machine.popArgs k (arena.argsAt args)).1 ++ (.object p.1 :: (p.2.links ++ G))) w₁ :=
      h₁.mono fun l ↦ by
        simp only [List.cons_append, List.count_append, count_cons_hits]
        omega
    exact awaitInvoked (callCoroutine hE hready name qualifier)
  | invoke args =>
    refine (popValue (hcall (arena.argsAt args))).bind fun p w₁ h₁ ↦ ?_
    have hcallee : Sane σ (argLinks (Machine.popArgs k (arena.argsAt args)).1 ++ (p.2.links ++ (.object p.1 :: G))) w₁ :=
      h₁.mono fun l ↦ by
        simp only [List.cons_append, List.count_append, count_cons_hits]
        omega
    refine (awaitInvoked (callClosure hE hcallee (hcallee.alive (by simp)))).bind fun result w₂ h₂ ↦ ?_
    exact (release (G := afterTask result ++ G) (h₂.mono (by grind))).bind fun _ _ h₃ ↦ .pure h₃
  | instantiate className args => exact yieldValue (instantiate hE (hargs _) className)
  | list itemClass length =>
    have hitems : Sane σ ((Machine.popValues k length).1.map .object ++ ((Machine.popValues k length).2.links ++ G)) w :=
      h.mono fun l ↦ by
        have hpop := within_popValues k length l
        simp only [List.count_append] at hpop ⊢
        omega
    exact yieldValue (listNamed hitems)
  | loopExit => exact (popValue h).bind fun _ _ h₁ ↦ failed h₁

omit hE in
theorem popTruth (h : Sane σ (k.links ++ G) w) : Gives σ G (popTruth k) w fun p ↦
    broughtBy (fun _ ↦ []) p.1 ++ p.2.links := by
  refine (popValue h).bind fun p w₁ h₁ ↦ ?_
  have h₁ : Sane σ ([p.1].map .object ++ (p.2.links ++ G)) w₁ := h₁
  have hlook : Gives σ ([p.1].map .object ++ (p.2.links ++ G)) (expectBool p.1) w₁ fun _ ↦ [] :=
    .of_looks h₁ (.expectBool p.1) fun _ _ ↦ h₁
  refine (attempt (thenRelease hlook)).bind fun r _ h₂ ↦ .pure ?_
  rw [List.append_assoc]
  exact h₂

/-- Every task takes what it holds over. -/
theorem runTask {task : Task} (h : Sane σ (task.links ++ (k.links ++ G)) w) (arena : Arena) :
    Gives σ G (runTask E arena k task) w afterTask := by
  have hk : Sane σ (k.links ++ G) w := h.mono (.append_left _ _)
  have htruth : ∀ {P : Except EvalError Bool × Continuation → Machine (Continuation × Progress)},
      (∀ e k', P (.error e, k') = pure (k', .failed e)) →
      (∀ b k' w', Sane σ (k'.links ++ G) w' → Gives σ G (P (.ok b, k')) w' afterTask) →
      Gives σ G (Machine.popTruth k >>= P) w afterTask := by
    intro P herror hok
    refine (popTruth hk).bind fun p w₁ h₁ ↦ ?_
    obtain ⟨r, k'⟩ := p
    cases r with
    | error e =>
      rw [herror]
      exact failed (by simpa [broughtBy] using h₁)
    | ok b => exact hok b k' w₁ h₁
  unfold Machine.runTask
  cases task with
  | eval id =>
    dsimp only
    split
    · exact decompose hE hk arena id
    · exact yieldValue (hE.eval id hk)
  | discard =>
    refine (releaseAll (L := k.values.top?.toList) (G := { k with values := k.values.pop }.links ++ G)
      (hk.mono fun l ↦ ?_)).bind fun _ _ h₁ ↦ .pure ?_
    · have hpop := k.count_links_pop l
      simp only [List.count_append]
      omega
    · simpa [afterTask, Progress.links] using h₁
  | popScope => exact (popScope hk).bind fun _ _ h₁ ↦ .pure (by simpa [afterTask, Progress.links] using h₁)
  | apply op => exact applyOp hE hk arena op
  | shortCircuit op right =>
    refine htruth (fun _ _ ↦ rfl) fun decided k' w' h' ↦ ?_
    dsimp only
    split
    · exact (boolean h' _).bind fun _ _ h₁ ↦ push h₁
    · exact todo h' (by simp [Task.links])
  | checkBool => exact htruth (fun _ _ ↦ rfl) fun b k' w' h' ↦ (boolean h' _).bind fun _ _ h₁ ↦ push h₁
  | cond clauses next otherwise =>
    refine htruth (fun _ _ ↦ rfl) fun b k' w' h' ↦ ?_
    cases b with
    | true =>
      refine todo h' fun t ht ↦ ?_
      obtain ⟨c, -, rfl⟩ := List.mem_map.mp ht
      rfl
    | false => exact nextClause h' ..
  | loop body depth height => exact (cutValues hk height).bind fun _ _ h₁ ↦ todo h₁ (by simp [Task.links])
  | guarded errorName handler depth height => exact .pure (by simpa [afterTask, Progress.links] using hk)
  | await x => exact awaitFrame h

end

/-! ### Unwinding -/

/-- What is in hand after unwinding. -/
def afterUnwinding (p : Continuation × Option EvalError) : List Link := p.1.links ++ p.2.toList.flatMap EvalError.links

/-- The values above the construct that handles an error are given up, and so are the handles awaited there. -/
theorem unwind {values : Stack Ref} {e : EvalError} (tasks : List Task)
    (h : Sane σ (e.links ++ (Continuation.links { tasks, values } ++ G)) w) :
    Gives σ G (unwind values e tasks) w afterUnwinding := by
  induction tasks generalizing w with
  | nil =>
    refine (releaseAll (L := values.toList) (G := e.links ++ G) (h.mono fun l ↦ ?_)).bind fun _ _ h₁ ↦ .pure ?_
    · simp only [Continuation.links, List.reverse_nil, List.flatMap_nil, List.nil_append, List.count_append]
      omega
    · simpa [afterUnwinding, Continuation.links, Stack.toList, Stack.empty] using h₁
  | cons task rest ih =>
    have htask : Sane σ (task.links ++ (e.links ++ (Continuation.links { tasks := rest, values } ++ G))) w :=
      h.mono fun l ↦ by
        have hcons := count_links_cons (k := { tasks := task :: rest, values }) rfl l
        simp only [List.count_append]
        simp only at hcons
        omega
    have hrest : Sane σ (e.links ++ (Continuation.links { tasks := rest, values } ++ G)) w :=
      htask.mono (.append_left _ _)
    unfold Machine.unwind
    cases task with
    | popScope => exact (popScope hrest).bind fun _ _ h₁ ↦ ih h₁
    | loop body depth height =>
      dsimp only
      cases hexit : e.exit with
      | none => exact ih hrest
      | some value =>
        have hvalue : Sane σ (Continuation.links { tasks := rest, values } ++ (.object value :: G)) w :=
          hrest.mono fun l ↦ by
            simp only [EvalError.links, hexit, Option.toList_some, List.map_cons, List.map_nil, List.count_append,
              count_cons_hits, List.count_nil]
            omega
        refine (truncateScopes hvalue depth).bind fun _ _ h₁ ↦ (cutValues h₁ height).bind fun k' _ h₂ ↦ .pure ?_
        exact h₂.mono fun l ↦ by
          simp only [afterUnwinding, Option.toList_none, List.flatMap_nil, List.append_nil, count_links_push,
            List.count_append, count_cons_hits]
          omega
    | guarded errorName handler depth height =>
      dsimp only
      split
      · exact ih hrest
      · next hexit =>
        have hnone : e.links = [] := EvalError.links_of_isLoopExit (by simpa using hexit)
        rw [hnone] at hrest
        refine (truncateScopes hrest depth).bind fun _ _ h₁ ↦ (cutValues h₁ height).bind fun k' _ h₂ ↦ ?_
        refine (pushScope h₂).bind fun _ _ h₃ ↦ (string h₃ e.message).bind fun _ _ h₄ ↦ ?_
        refine (define h₄ errorName).bind fun _ _ h₅ ↦ .pure (h₅.mono fun l ↦ ?_)
        simp only [afterUnwinding, Option.toList_none, List.flatMap_nil, List.append_nil, count_links_todo, Task.links,
          List.flatMap_cons, List.nil_append, List.count_append, List.count_nil, List.append_eq]
        omega
    | await x => exact (releaseLinks htask).bind fun _ _ h₁ ↦ ih h₁
    | eval id => exact ih hrest
    | discard => exact ih hrest
    | apply op => exact ih hrest
    | shortCircuit op right => exact ih hrest
    | checkBool => exact ih hrest
    | cond clauses next otherwise => exact ih hrest

/-! ### Running -/

/-- What is in hand after a run: the rest of the body, and what its step came to. -/
def afterRun (p : Continuation × Except EvalError Step) : List Link := p.1.links ++ broughtBy Step.links p.2

variable (hE : E.Careful)

include hE

theorem runTasks (arena : Arena) (n : Nat) (h : Sane σ (k.links ++ G) w) :
    Gives σ G (runTasks E arena n k) w afterRun := by
  induction n generalizing k w with
  | zero => exact .exhausted (h.mono (.append_left _ _))
  | succ n ih =>
    unfold Machine.runTasks
    split
    · refine (popValue h).bind fun p w₁ h₁ ↦ ?_
      have hvalues : Sane σ (p.2.values.toList.map .object ++ (.object p.1 :: G)) w₁ := h₁.mono fun l ↦ by
        have hcount := p.2.count_links l
        simp only [Stack.toList, List.map_reverse, List.cons_append, List.count_append, List.count_reverse, count_cons_hits]
        omega
      refine (releaseAll hvalues).bind fun _ _ h₂ ↦ .pure ?_
      simpa [afterRun, broughtBy, Step.links, Continuation.links, Stack.toList, Stack.empty] using h₂
    · next task rest htasks =>
      have htask : Sane σ (task.links ++ ({ k with tasks := rest }.links ++ G)) w := h.mono fun l ↦ by
        have hcons := count_links_cons htasks l
        simp only [List.count_append]
        omega
      refine (runTask hE htask arena).bind fun p w₁ h₁ ↦ ?_
      obtain ⟨k', progress⟩ := p
      cases progress with
      | running => exact ih (by simpa [afterTask, Progress.links] using h₁)
      | suspend wake => exact .pure h₁
      | failed e =>
        have h₁ : Sane σ (afterTask (k', .failed e) ++ G) w₁ := h₁
        have hfailed : Sane σ (e.links ++ (Continuation.links { tasks := k'.tasks, values := k'.values } ++ G)) w₁ :=
          h₁.mono fun l ↦ by
            simp only [afterTask, Progress.links, List.count_append]
            omega
        refine (unwind k'.tasks hfailed).bind fun q w₂ h₂ ↦ ?_
        obtain ⟨k'', left⟩ := q
        cases left with
        | none => exact ih (by simpa [afterUnwinding] using h₂)
        | some e' => exact .pure (by simpa [afterUnwinding, afterRun, broughtBy] using h₂)

theorem runContinuation (h : Sane σ (k.links ++ G) w) : Gives σ G (runContinuation E k) w afterRun :=
  .read (runTasks hE _ _ h)

end Gives

end Machine

end MindScript
