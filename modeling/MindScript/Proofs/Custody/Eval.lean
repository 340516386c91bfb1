import MindScript.Machine.Eval
import MindScript.Proofs.Custody.Calls

/-!
# Custody in immediate evaluation

A node is evaluated with the operands that were evaluated before it in hand.  Each of them is taken over by what
follows, or given up.
-/

namespace MindScript

open Machine
open World (Sane)

variable {σ : Footing} {A G : List Link} {w : World} {E : Engine}

namespace Machine.Gives

/-! ### Scopes -/

theorem pushScope (h : Sane σ G w) : Gives σ G pushScope w fun _ ↦ [] := .of_ok rfl h.pushScope

theorem popScope (h : Sane σ G w) : Gives σ G popScope w fun _ ↦ [] := .of_ok rfl h.popScope

theorem truncateScopes (h : Sane σ G w) (depth : Nat) : Gives σ G (truncateScopes depth) w fun _ ↦ [] :=
  .of_ok rfl (h.truncateScopes depth)

/-- An action in a scope of its own starts with the hand as it is. -/
theorem inScope [Part G A] {f : Machine Ref} (h : Sane σ A w)
    (hf : ∀ w', Sane σ A w' → Gives σ G f w' fun r ↦ [.object r]) : Gives σ G (inScope f) w fun r ↦ [.object r] := by
  refine (pushScope h).bind fun _ w₁ h₁ ↦ ?_
  refine (attempt (hf w₁ h₁)).bind fun result w₂ h₂ ↦ ?_
  exact (popScope h₂).bind (fun _ w₃ h₃ ↦ ofExcept h₃)

theorem rescue {f : Machine Ref} {catches : EvalError → Bool} {handler : EvalError → Machine Ref}
    (hf : Gives σ G f w fun r ↦ [.object r])
    (hhandler : ∀ e w', catches e = true → Sane σ (e.links ++ G) w' → Gives σ G (handler e) w' fun r ↦ [.object r]) :
    Gives σ G (rescue f catches handler) w fun r ↦ [.object r] := by
  refine .read ((attempt hf).bind fun result w₁ h₁ ↦ ?_)
  cases result with
  | ok value => exact .pure h₁
  | error e =>
    dsimp only
    split
    · next hcatch => exact (truncateScopes h₁ _).bind (fun _ w₂ h₂ ↦ hhandler e w₂ hcatch h₂)
    · exact .raise h₁

section

variable (hE : E.Careful)

include hE

/-! ### Operands -/

theorem evalArgs {done : ArgValues} (args : List CallArg) (h : Sane σ (argLinks done ++ G) w) :
    Gives σ G (evalArgs E done args) w argLinks := by
  induction args generalizing done w with
  | nil => exact .pure (h.mono fun l ↦ by simp [argLinks])
  | cons arg rest ih =>
    have hdone : Sane σ ((done.reverse.map Prod.snd).map .object ++ G) w := h.mono fun l ↦ by simp [argLinks]
    refine (Yields.elseRelease (hE.eval arg.value hdone)).bind fun value w₁ h₁ ↦ ih (h₁.mono fun l ↦ ?_)
    simp [argLinks, count_cons_hits]

theorem evalList {done : List Ref} (items : List ExprId) (h : Sane σ (done.map .object ++ G) w) :
    Gives σ G (evalList E done items) w fun rs ↦ rs.map .object := by
  induction items generalizing done w with
  | nil => exact .pure (h.mono (by grind [List.map_reverse]))
  | cons e rest ih =>
    have hdone : Sane σ (done.reverse.map .object ++ G) w := h.mono (by grind [List.map_reverse])
    exact (Yields.elseRelease (hE.eval e hdone)).bind fun value w₁ h₁ ↦ ih (h₁.mono (by grind [List.map_reverse]))

theorem evalReceiver (h : Sane σ G w) (receiver : Option ExprId) :
    Gives σ G (evalReceiver E receiver) w fun r ↦ [.object r] := by
  cases receiver with
  | some e => exact hE.eval e h
  | none => exact .read (share h (h.this ▸ h.alive_this))

theorem evalTruth (h : Sane σ G w) (operand : ExprId) : Gives σ G (evalTruth E operand) w fun r ↦ [.object r] := by
  refine (hE.eval operand h).bind fun r w₁ h₁ ↦ ?_
  refine Yields.lookElse (L := [r]) h₁ (.expectBool r) fun b _ ↦ ?_
  exact thenRelease (L := [r]) (boolean h₁ b)

/-! ### Kinds of nodes -/

theorem evalShortCircuit (h : Sane σ G w) (op : BinaryOp) (left right : ExprId) :
    Gives σ G (evalShortCircuit E op left right) w fun r ↦ [.object r] := by
  refine (hE.eval left h).bind fun l w₁ h₁ ↦ ?_
  refine Yields.lookElse (L := [l]) h₁ (.expectBool l) fun decided _ ↦ ?_
  split
  · exact thenRelease (L := [l]) (boolean h₁ decided)
  · exact thenRelease (L := [l]) (evalTruth hE h₁ right)

theorem evalMethodCall (h : Sane σ G w) (receiver : Option ExprId) (method : String) (args : List CallArg)
    (qualifier : Option String) :
    Gives σ G (evalMethodCall E receiver method args qualifier) w fun r ↦ [.object r] := by
  refine (evalReceiver hE h receiver).bind fun target w₁ h₁ ↦ ?_
  have hargs : Gives σ ([target].map .object ++ G) (Machine.evalArgs E [] args) w₁ argLinks := evalArgs hE args h₁
  exact hargs.elseRelease.bind fun values w₂ h₂ ↦ callMethod hE h₂ method qualifier

theorem evalInvoke (h : Sane σ G w) (callee : ExprId) (args : List CallArg) :
    Gives σ G (evalInvoke E callee args) w fun r ↦ [.object r] := by
  refine (hE.eval callee h).bind fun target w₁ h₁ ↦ ?_
  have hargs : Gives σ ([target].map .object ++ G) (Machine.evalArgs E [] args) w₁ argLinks := evalArgs hE args h₁
  refine hargs.elseRelease.bind fun values w₂ h₂ ↦ ?_
  exact thenRelease (L := [target]) (invokeClosureNow hE h₂ (h₂.alive (by simp)))

theorem evalClauses (h : Sane σ G w) (otherwise : Option ExprId) (clauses : List Clause) :
    Gives σ G (evalClauses E otherwise clauses) w fun r ↦ [.object r] := by
  induction clauses generalizing w with
  | nil =>
    cases otherwise with
    | some e => exact hE.eval e h
    | none => exact nil h
  | cons clause rest ih =>
    refine (hE.eval clause.test h).bind fun test w₁ h₁ ↦ ?_
    refine Yields.lookElse (L := [test]) h₁ (.expectBool test) fun holds _ ↦ ?_
    cases holds with
    | true => exact thenRelease (L := [test]) (hE.eval clause.body h₁)
    | false => exact (release h₁).bind fun _ _ h₂ ↦ ih h₂

theorem evalSequence {last : Ref} (items : List ExprId) (h : Sane σ (.object last :: G) w) :
    Gives σ G (evalSequence E last items) w fun r ↦ [.object r] := by
  induction items generalizing last w with
  | nil => exact .pure h
  | cons e rest ih =>
    have heval : Gives σ ([last].map .object ++ G) (E.eval e) w fun r ↦ [.object r] := hE.eval e h
    refine heval.elseRelease.bind fun value w₁ h₁ ↦ ?_
    exact (release (G := .object value :: G) (h₁.mono (by grind))).bind fun _ _ h₂ ↦ ih h₂

theorem evalBlock (h : Sane σ G w) (items : List ExprId) : Gives σ G (evalBlock E items) w fun r ↦ [.object r] := by
  unfold Machine.evalBlock
  split
  · exact nil h
  · exact inScope h (fun w' h' ↦ (nil h').bind fun _ _ h₁ ↦ evalSequence hE items h₁)

theorem evalRounds (h : Sane σ G w) (body : ExprId) (n : Nat) :
    Gives σ G (evalRounds E body n) w fun r ↦ [.object r] := by
  induction n generalizing w with
  | zero => exact .exhausted h
  | succ n ih => exact (hE.eval body h).bind fun value _ h₁ ↦ (release h₁).bind fun _ _ h₂ ↦ ih h₂

theorem evalLoop (h : Sane σ G w) (body : ExprId) : Gives σ G (evalLoop E body) w fun r ↦ [.object r] := by
  refine rescue (evalRounds hE h body E.budget) fun e w₁ _ h₁ ↦ ?_
  cases hexit : e.exit with
  | some value => exact .pure (by simpa [EvalError.links, hexit] using h₁)
  | none => exact .raise h₁

theorem evalGuarded (h : Sane σ G w) (body : ExprId) (errorName : String) (handler : ExprId) :
    Gives σ G (evalGuarded E body errorName handler) w fun r ↦ [.object r] := by
  refine rescue (hE.eval body h) fun e w₁ hcatch h₁ ↦ ?_
  rw [EvalError.links_of_isLoopExit (by simpa using hcatch)] at h₁
  refine inScope h₁ (fun w₂ h₂ ↦ (string h₂ e.message).bind fun message w₃ h₃ ↦ ?_)
  exact (define h₃ errorName).bind fun _ _ h₄ ↦ hE.eval handler h₄

omit hE in
/-- A closure takes a reference to the running scope and one to the receiver. -/
theorem makeClosure (h : Sane σ G w) (params : Span) (body : ExprId) (kind : CallableKind) :
    Gives σ G (makeClosure params body kind) w fun r ↦ [.object r] := by
  have hthis : w.heap.Alive (.object w.context.this) := h.this ▸ h.alive_this
  refine .read ?_
  refine (Yields.modify (G := G) (F := fun w ↦ w.retain _) (Q := fun _ w₁ ↦
    Sane σ (.scope w.context.env.innermost :: G) w₁ ∧ w₁.heap.Alive (.object w.context.this))
    ⟨h.retain h.alive_innermost, Heap.alive_retain hthis _⟩).bind fun _ w₁ h₁ ↦ ?_
  refine (retain h₁.1 h₁.2).bind fun _ w₂ h₂ ↦ ?_
  have hlinks : Sane σ ([.scope w.context.env.innermost, .object w.context.this] ++ G) w₂ := h₂.mono (by grind)
  exact (newValue hlinks (by decide) (by simp)).mono fun _ _ h₃ ↦ h₃.1

theorem evalBranch (h : Sane σ G w) (body : ExprId) : Gives σ G (evalBranch E body) w fun r ↦ [.object r] := by
  refine (spawnBranch hE h body).bind fun x w₁ h₁ ↦ ?_
  refine (handleValue (G := .outcome x.outcome :: G) h₁ (h₁.alive List.mem_cons_self)).bind fun value w₂ h₂ ↦ ?_
  refine (releaseLinks (L := [.outcome x.outcome]) (G := .object value :: G) (h₂.mono (by grind))).bind fun _ _ h₃ ↦ .pure h₃

omit hE in
/-- A value that is bound is handed over once more. -/
theorem bindName {value : Ref} (h : Sane σ (.object value :: G) w) (name : String) :
    Gives σ G (do Machine.retain value; Machine.define name value; return value) w fun r ↦ [.object r] := by
  refine (retain h (h.alive List.mem_cons_self)).bind fun _ w₁ h₁ ↦ ?_
  exact (define h₁ name).bind fun _ _ h₂ ↦ .pure h₂

omit hE in
theorem assignName {value : Ref} (h : Sane σ (.object value :: G) w) (name : String) :
    Gives σ G (do
      Machine.retain value
      elseRelease (Machine.assignVariable name value) [value]
      return value) w fun r ↦ [.object r] := by
  refine (retain h (h.alive List.mem_cons_self)).bind fun _ w₁ h₁ ↦ ?_
  have hassign : Gives σ ([value].map .object ++ G) (Machine.assignVariable name value) w₁ fun _ ↦ [] :=
    assignVariable h₁ name
  exact hassign.elseRelease.bind fun _ _ h₂ ↦ .pure h₂

theorem evalNode (h : Sane σ G w) (id : ExprId) : Gives σ G (evalNode E id) w fun r ↦ [.object r] := by
  refine .read ?_
  dsimp only
  generalize w.context.arena.node id = node
  cases node with
  | nil => exact nil h
  | bool b => exact boolean h b
  | int i => exact integer h i
  | real bits => exact real h _
  | str text => exact string h text
  | sym name => exact symbol h name
  | this => exact evalReceiver hE h none
  | ident name => exact lookupVariable h name
  | bind name init => exact (hE.eval init h).bind fun value _ h₁ ↦ bindName h₁ name
  | assign name value => exact (hE.eval value h).bind fun value _ h₁ ↦ assignName h₁ name
  | binary op left right =>
    dsimp only
    split
    · exact evalShortCircuit hE h op left right
    · refine (hE.eval left h).bind fun l w₁ h₁ ↦ ?_
      have hright : Gives σ ([l].map .object ++ G) (E.eval right) w₁ fun r ↦ [.object r] := hE.eval right h₁
      refine hright.elseRelease.bind fun r w₂ h₂ ↦ callMethod hE (h₂.mono fun _ ↦ ?_) _ _
      exact Nat.le_refl _
  | unary op operand =>
    exact (hE.eval operand h).bind fun r _ h₁ ↦ callMethod hE (h₁ : Sane σ (argLinks [] ++ (.object r :: G)) _) _ _
  | methodCall receiver method args qualifier => exact evalMethodCall hE h receiver method _ qualifier
  | coroutineCall receiver coroutine args qualifier => exact .raiseKind h _
  | invoke callee args => exact evalInvoke hE h callee _
  | instantiate className args =>
    exact (evalArgs hE _ (h : Sane σ (argLinks [] ++ G) w)).bind fun values _ h₁ ↦ instantiate hE h₁ className
  | conditional clauses otherwise => exact evalClauses hE h otherwise _
  | block items => exact evalBlock hE h _
  | loop body => exact evalLoop hE h body
  | loopExit value =>
    cases value with
    | some e => exact (hE.eval e h).bind fun _ _ h₁ ↦ .raise h₁
    | none => exact (nil h).bind fun _ _ h₁ ↦ .raise h₁
  | guarded body errorName handler => exact evalGuarded hE h body errorName handler
  | closure params body kind => exact makeClosure h params body kind
  | list itemClass items => exact (evalList hE _ (h : Sane σ (([] : List Ref).map .object ++ G) w)).bind fun _ _ h₁ ↦ listNamed h₁
  | branch body => exact evalBranch hE h body
  | concurrent policy branches => exact .raiseKind h _

end

end Machine.Gives

end MindScript
