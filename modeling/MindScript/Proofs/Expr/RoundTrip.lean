import MindScript.Proofs.Expr.Builds

/-!
# Trees are read as they were built

A tree that is built in an arena is read back from the position of its root, whatever else the arena holds and whatever is
added to it afterwards.  Each node stores positions of nodes before it only.
-/

namespace MindScript

open Arena

namespace Arena

/-! ### Held lists -/

section

variable {a b : Arena} {read : ExprId → Option Tree}

def HoldsArg (a : Arena) (arg : CallArg) (p : Option String × Tree) : Prop := arg.name = p.1 ∧ a.Holds arg.value p.2

def HoldsClause (a : Arena) (c : Clause) (p : Tree × Tree) : Prop := a.Holds c.test p.1 ∧ a.Holds c.body p.2

def HoldsParam (a : Arena) (p : Param) (q : String × Option String × Option Tree) : Prop :=
  p.name = q.1 ∧ p.className = q.2.1 ∧ Option.Rel a.Holds p.default q.2.2

theorem Holds.mono_option {id : Option ExprId} {t : Option Tree} (h : Option.Rel a.Holds id t) (hab : a.Keeps b) :
    Option.Rel b.Holds id t := by
  cases h with
  | some h => exact .some (h.mono hab)
  | none => exact .none

variable (hread : ∀ id t, a.Holds id t → read id = some t)

include hread

theorem mapM_option {id : Option ExprId} {t : Option Tree} (h : Option.Rel a.Holds id t) : id.mapM read = some t := by
  cases h with
  | some h => exact congrArg (Option.map some) (hread _ _ h)
  | none => rfl

theorem mapM_holds {ids : List ExprId} {ts : List Tree} (h : List.Forall₂ a.Holds ids ts) : ids.mapM read = some ts :=
  mapM_eq_some_iff.mpr (h.imp hread)

theorem mapM_positional {ids : List ExprId} {ts : List Tree} (h : List.Forall₂ a.Holds ids ts) :
    (ids.map fun value ↦ ⟨none, value⟩).mapM (expand.readPositional read) = some ts :=
  mapM_eq_some_iff.mpr (List.forall₂_map_left_iff.mpr (h.imp hread))

theorem mapM_args {args : List CallArg} {ts : List (Option String × Tree)} (h : List.Forall₂ a.HoldsArg args ts) :
    args.mapM (expand.readArg read) = some ts :=
  mapM_eq_some_iff.mpr (h.imp fun arg p ⟨hname, hvalue⟩ ↦ by simp [expand.readArg, hread _ _ hvalue, hname])

theorem mapM_clauses {clauses : List Clause} {ts : List (Tree × Tree)} (h : List.Forall₂ a.HoldsClause clauses ts) :
    clauses.mapM (expand.readClause read) = some ts :=
  mapM_eq_some_iff.mpr (h.imp fun c p ⟨htest, hbody⟩ ↦ by simp [expand.readClause, hread _ _ htest, hread _ _ hbody])

theorem mapM_params {params : List Param} {ts : List (String × Option String × Option Tree)}
    (h : List.Forall₂ a.HoldsParam params ts) : params.mapM (expand.readParam read) = some ts :=
  mapM_eq_some_iff.mpr (h.imp fun p q ⟨hname, hclass, hdefault⟩ ↦ by
    simp [expand.readParam, mapM_option hread hdefault, hname, hclass])

end

/-! ### Nodes with lists -/

namespace Builds

variable {a : Arena} {receiver otherwise : Option ExprId} {ids : List ExprId} {t? : Option Tree} {ts : List Tree}

theorem listed {γ : Type} {table : Arena → Array γ} {f : Builder Span} {cost : Table → ℕ} {xs : List γ} {n : Span → Node} {t : Tree}
    (hf : Builds a f cost fun b s ↦ ∀ c, b.Keeps c → slice? (table c) s = some xs)
    (h : ∀ c s read, slice? (table c) s = some xs → (∀ id t, a.Holds id t → read id = some t) →
      c.expand read (n s) = some t) :
    Builds a (f >>= fun s ↦ Builder.node (n s)) (fun τ ↦ cost τ + Table.nodes.tally 1 τ) fun b id ↦ b.Holds id t :=
  hf.bind fun s _ hab hs ↦ .node fun c read hbc hread ↦
    h c s read (hs c hbc) fun id t hholds ↦ hread id t (hholds.mono hab)

theorem params_tally {params : List Param} {qs : List (String × Option String × Option Tree)}
    (hparams : List.Forall₂ a.HoldsParam params qs) (hshort : qs.length ≤ maxList) :
    Builds a (Builder.params params) (Table.params.tally qs.length) fun b s ↦
      ∀ c, b.Keeps c → slice? c.params s = some params := by
  rw [← hparams.length_eq] at hshort ⊢
  exact Builds.params hshort

theorem callNamed {args : List CallArg} {ps : List (Option String × Tree)} {method : String} (hshort : ps.length ≤ maxList)
    (hreceiver : Option.Rel a.Holds receiver t?) (hargs : List.Forall₂ a.HoldsArg args ps) :
    Builds a (Builder.callNamed receiver method args) (fun τ ↦ Table.args.tally ps.length τ + Table.nodes.tally 1 τ)
      fun b id ↦ b.Holds id (.methodCall t? method ps) := by
  rw [← hargs.length_eq] at hshort ⊢
  exact (argSpan hshort).listed fun c s read hs hread ↦ by
    simp [expand, hs, mapM_option hread hreceiver, mapM_args hread hargs]

theorem call {method className : String} (hshort : ts.length ≤ maxList) (hreceiver : Option.Rel a.Holds receiver t?)
    (hargs : List.Forall₂ a.Holds ids ts) :
    Builds a (Builder.call receiver method ids (some className))
      (fun τ ↦ Table.args.tally ts.length τ + Table.nodes.tally 1 τ)
      fun b id ↦ b.Holds id (.qualifiedCall t? className method ts) := by
  rw [← hargs.length_eq] at hshort ⊢
  exact (positional hshort).listed fun c s read hs hread ↦ by
    simp [expand, hs, mapM_option hread hreceiver, mapM_positional hread hargs]

theorem coroutine {name : String} {qualifier : Option String} (hshort : ts.length ≤ maxList)
    (hreceiver : Option.Rel a.Holds receiver t?) (hargs : List.Forall₂ a.Holds ids ts) :
    Builds a (Builder.coroutine receiver name ids qualifier)
      (fun τ ↦ Table.args.tally ts.length τ + Table.nodes.tally 1 τ)
      fun b id ↦ b.Holds id (.coroutineCall t? name ts qualifier) := by
  rw [← hargs.length_eq] at hshort ⊢
  exact (positional hshort).listed fun c s read hs hread ↦ by
    simp [expand, hs, mapM_option hread hreceiver, mapM_positional hread hargs]

theorem invoke {callee : ExprId} {t : Tree} (hshort : ts.length ≤ maxList) (hcallee : a.Holds callee t)
    (hargs : List.Forall₂ a.Holds ids ts) :
    Builds a (Builder.invoke callee ids) (fun τ ↦ Table.args.tally ts.length τ + Table.nodes.tally 1 τ)
      fun b id ↦ b.Holds id (.invoke t ts) := by
  rw [← hargs.length_eq] at hshort ⊢
  exact (positional hshort).listed fun c s read hs hread ↦ by
    simp [expand, hs, hread _ _ hcallee, mapM_positional hread hargs]

theorem instantiate {className : String} (hshort : ts.length ≤ maxList) (hargs : List.Forall₂ a.Holds ids ts) :
    Builds a (Builder.instantiate className ids) (fun τ ↦ Table.args.tally ts.length τ + Table.nodes.tally 1 τ)
      fun b id ↦ b.Holds id (.instantiate className ts) := by
  rw [← hargs.length_eq] at hshort ⊢
  exact (positional hshort).listed fun c s read hs hread ↦ by simp [expand, hs, mapM_positional hread hargs]

theorem conditional {clauses : List Clause} {ps : List (Tree × Tree)} (hshort : ps.length ≤ maxList)
    (hclauses : List.Forall₂ a.HoldsClause clauses ps) (hotherwise : Option.Rel a.Holds otherwise t?) :
    Builds a (Builder.conditional clauses otherwise)
      (fun τ ↦ Table.clauses.tally ps.length τ + Table.nodes.tally 1 τ)
      fun b id ↦ b.Holds id (.conditional ps t?) := by
  rw [← hclauses.length_eq] at hshort ⊢
  exact (clauseSpan hshort).listed fun c s read hs hread ↦ by
    simp [expand, hs, mapM_clauses hread hclauses, mapM_option hread hotherwise]

theorem block (hshort : ts.length ≤ maxList) (hitems : List.Forall₂ a.Holds ids ts) :
    Builds a (Builder.block ids) (fun τ ↦ Table.lists.tally ts.length τ + Table.nodes.tally 1 τ)
      fun b id ↦ b.Holds id (.block ts) := by
  rw [← hitems.length_eq] at hshort ⊢
  exact (listSpan hshort).listed fun c s read hs hread ↦ by simp [expand, hs, mapM_holds hread hitems]

theorem list {itemClass : String} (hshort : ts.length ≤ maxList) (hitems : List.Forall₂ a.Holds ids ts) :
    Builds a (Builder.list itemClass ids) (fun τ ↦ Table.lists.tally ts.length τ + Table.nodes.tally 1 τ)
      fun b id ↦ b.Holds id (.list itemClass ts) := by
  rw [← hitems.length_eq] at hshort ⊢
  exact (listSpan hshort).listed fun c s read hs hread ↦ by simp [expand, hs, mapM_holds hread hitems]

theorem concurrent {policy : Policy} (hshort : ts.length ≤ maxList) (hbranches : List.Forall₂ a.Holds ids ts) :
    Builds a (Builder.concurrent policy ids) (fun τ ↦ Table.lists.tally ts.length τ + Table.nodes.tally 1 τ)
      fun b id ↦ b.Holds id (.concurrent policy ts) := by
  rw [← hbranches.length_eq] at hshort ⊢
  exact (listSpan hshort).listed fun c s read hs hread ↦ by simp [expand, hs, mapM_holds hread hbranches]

end Builds

end Arena

namespace Tree

variable {t : Tree} {ts ts' : List Tree} {τ : Table} {a b : Arena}

@[simp] theorem taken_nil : taken [] τ = 0 := rfl

@[simp] theorem taken_cons : taken (t :: ts) τ = t.own τ + taken ts τ := rfl

@[simp] theorem taken_append : taken (ts ++ ts') τ = taken ts τ + taken ts' τ := by
  induction ts with
  | nil => exact (Nat.zero_add _).symm
  | cons t ts ih => rw [List.cons_append, taken_cons, taken_cons, ih, Nat.add_assoc]

theorem entries_eq : t.entries τ = t.own τ + taken t.inner τ := rfl

mutual

theorem builds (t : Tree) (a : Arena) (h : t.Short) : Builds a t.build t.entries fun b id ↦ b.Holds id t := by
  obtain ⟨hroot, hinner⟩ := List.forall_mem_cons.mp h
  cases t with
  | nil | bool _ | int _ | real _ | str _ | sym _ | this | ident _ =>
    refine .of_cost (fun τ ↦ ?_) (.node fun _ _ _ _ ↦ rfl)
    simp [entries_eq, own, list?, inner]
  | bind _ t | assign _ t | unary _ t | loop t | branch t =>
    refine .of_cost (fun τ ↦ ?_) ((builds t a hinner).bind fun id b _ hid ↦ .node fun c read _ hread ↦ ?_)
    · simp [entries_eq, own, list?, inner]
      omega
    · simp [expand, hread _ _ hid]
  | binary _ left right | guarded left _ right =>
    obtain ⟨hleft, hright⟩ := List.forall_mem_append.mp hinner
    refine .of_cost (fun τ ↦ ?_) ((builds left a hleft).bind fun l b _ hl ↦ (builds right b hright).bind fun r c hbc hr ↦
      .node fun d read _ hread ↦ ?_)
    · simp [entries_eq, own, list?, inner]
      omega
    · simp [expand, hread _ _ (hl.mono hbc), hread _ _ hr]
  | methodCall receiver method args =>
    obtain ⟨hreceiver, hargs⟩ := List.forall_mem_append.mp hinner
    refine .of_cost (fun τ ↦ ?_) ((buildsOption receiver a hreceiver).bind fun r b _ hr ↦
      (buildsArgs args b hargs).bind fun items c hbc hitems ↦
        .callNamed (hroot _ _ rfl) (Holds.mono_option hr hbc) hitems)
    simp [entries_eq, own, list?, inner]
    omega
  | qualifiedCall receiver className method args =>
    obtain ⟨hreceiver, hargs⟩ := List.forall_mem_append.mp hinner
    refine .of_cost (fun τ ↦ ?_) ((buildsOption receiver a hreceiver).bind fun r b _ hr ↦
      (buildsAll args b hargs).bind fun ids c hbc hids ↦ .call (hroot _ _ rfl) (Holds.mono_option hr hbc) hids)
    simp [entries_eq, own, list?, inner]
    omega
  | coroutineCall receiver name args qualifier =>
    obtain ⟨hreceiver, hargs⟩ := List.forall_mem_append.mp hinner
    refine .of_cost (fun τ ↦ ?_) ((buildsOption receiver a hreceiver).bind fun r b _ hr ↦
      (buildsAll args b hargs).bind fun ids c hbc hids ↦ .coroutine (hroot _ _ rfl) (Holds.mono_option hr hbc) hids)
    simp [entries_eq, own, list?, inner]
    omega
  | invoke callee args =>
    obtain ⟨hcallee, hargs⟩ := List.forall_mem_append.mp hinner
    refine .of_cost (fun τ ↦ ?_) ((builds callee a hcallee).bind fun r b _ hr ↦
      (buildsAll args b hargs).bind fun ids c hbc hids ↦ .invoke (hroot _ _ rfl) (hr.mono hbc) hids)
    simp [entries_eq, own, list?, inner]
    omega
  | instantiate className args =>
    refine .of_cost (fun τ ↦ ?_) ((buildsAll args a hinner).bind fun ids b _ hids ↦ .instantiate (hroot _ _ rfl) hids)
    simp [entries_eq, own, list?, inner]
    omega
  | conditional clauses otherwise =>
    obtain ⟨hclauses, hotherwise⟩ := List.forall_mem_append.mp hinner
    refine .of_cost (fun τ ↦ ?_) ((buildsClauses clauses a hclauses).bind fun items b _ hitems ↦
      (buildsOption otherwise b hotherwise).bind fun r c hbc hr ↦
        .conditional (hroot _ _ rfl) (hitems.imp fun _ _ h ↦ ⟨h.1.mono hbc, h.2.mono hbc⟩) hr)
    simp [entries_eq, own, list?, inner]
    omega
  | block items =>
    refine .of_cost (fun τ ↦ ?_) ((buildsAll items a hinner).bind fun ids b _ hids ↦ .block (hroot _ _ rfl) hids)
    simp [entries_eq, own, list?, inner]
    omega
  | list itemClass items =>
    refine .of_cost (fun τ ↦ ?_) ((buildsAll items a hinner).bind fun ids b _ hids ↦ .list (hroot _ _ rfl) hids)
    simp [entries_eq, own, list?, inner]
    omega
  | concurrent policy branches =>
    refine .of_cost (fun τ ↦ ?_) ((buildsAll branches a hinner).bind fun ids b _ hids ↦ .concurrent (hroot _ _ rfl) hids)
    simp [entries_eq, own, list?, inner]
    omega
  | loopExit value =>
    refine .of_cost (fun τ ↦ ?_) ((buildsOption value a hinner).bind fun id b _ hid ↦ .node fun c read _ hread ↦ ?_)
    · simp [entries_eq, own, list?, inner]
      omega
    · simp [expand, mapM_option hread hid]
  | closure params body kind =>
    obtain ⟨hparams, hbody⟩ := List.forall_mem_append.mp hinner
    refine .of_cost (fun τ ↦ ?_) ((buildsParams params a hparams).bind fun ps b _ hps ↦
      (Builds.params_tally hps (hroot _ _ rfl)).bind fun s c hbc hs ↦
        (builds body c hbody).bind fun id d hcd hid ↦ .node fun e read hde hread ↦ ?_)
    · simp [entries_eq, own, list?, inner]
      omega
    · have hps' : List.Forall₂ d.HoldsParam ps params :=
        hps.imp fun _ _ h ↦ ⟨h.1, h.2.1, Holds.mono_option h.2.2 (hbc.trans hcd)⟩
      simp [expand, hs e (hcd.trans hde), mapM_params hread hps', hread _ _ hid]

theorem buildsOption (t : Option Tree) (a : Arena) (h : ∀ s ∈ innerOption t, s.Fits) :
    Builds a (buildOption t) (taken (innerOption t)) fun b id ↦ Option.Rel b.Holds id t := by
  cases t with
  | none => exact .of_cost (fun τ ↦ rfl) (.pure .none)
  | some t => exact .of_cost (fun τ ↦ rfl) ((builds t a h).bind fun id b _ hid ↦ .pure (.some hid))

theorem buildsAll (ts : List Tree) (a : Arena) (h : ∀ s ∈ innerAll ts, s.Fits) :
    Builds a (buildAll ts) (taken (innerAll ts)) fun b ids ↦ List.Forall₂ b.Holds ids ts := by
  cases ts with
  | nil => exact .of_cost (fun τ ↦ rfl) (.pure .nil)
  | cons t ts =>
    obtain ⟨ht, hts⟩ := List.forall_mem_append.mp h
    refine .of_cost (fun τ ↦ ?_) ((builds t a ht).bind fun id b _ hid ↦ (buildsAll ts b hts).bind fun ids c hbc hids ↦
      .pure (.cons (hid.mono hbc) hids))
    simp [entries_eq, innerAll]
    omega

theorem buildsArgs (ts : List (Option String × Tree)) (a : Arena) (h : ∀ s ∈ innerArgs ts, s.Fits) :
    Builds a (buildArgs ts) (taken (innerArgs ts)) fun b args ↦ List.Forall₂ b.HoldsArg args ts := by
  match ts with
  | [] => exact .of_cost (fun τ ↦ rfl) (.pure .nil)
  | (name, t) :: ts =>
    obtain ⟨ht, hts⟩ := List.forall_mem_append.mp h
    refine .of_cost (fun τ ↦ ?_) ((builds t a ht).bind fun id b _ hid ↦ (buildsArgs ts b hts).bind fun args c hbc hargs ↦
      .pure (.cons ⟨rfl, hid.mono hbc⟩ hargs))
    simp [entries_eq, innerArgs]
    omega

theorem buildsClauses (ts : List (Tree × Tree)) (a : Arena) (h : ∀ s ∈ innerClauses ts, s.Fits) :
    Builds a (buildClauses ts) (taken (innerClauses ts)) fun b clauses ↦ List.Forall₂ b.HoldsClause clauses ts := by
  match ts with
  | [] => exact .of_cost (fun τ ↦ rfl) (.pure .nil)
  | (test, body) :: ts =>
    obtain ⟨hboth, hts⟩ := List.forall_mem_append.mp h
    obtain ⟨htest, hbody⟩ := List.forall_mem_append.mp hboth
    refine .of_cost (fun τ ↦ ?_) ((builds test a htest).bind fun id b _ hid ↦ (builds body b hbody).bind fun id' c hbc hid' ↦
      (buildsClauses ts c hts).bind fun clauses d hcd hclauses ↦
      .pure (.cons ⟨(hid.mono hbc).mono hcd, hid'.mono hcd⟩ hclauses))
    simp [entries_eq, innerClauses]
    omega

theorem buildsParams (ts : List (String × Option String × Option Tree)) (a : Arena) (h : ∀ s ∈ innerParams ts, s.Fits) :
    Builds a (buildParams ts) (taken (innerParams ts)) fun b params ↦ List.Forall₂ b.HoldsParam params ts := by
  match ts with
  | [] => exact .of_cost (fun τ ↦ rfl) (.pure .nil)
  | (name, className, default) :: ts =>
    obtain ⟨hdefault, hts⟩ := List.forall_mem_append.mp h
    refine .of_cost (fun τ ↦ ?_) ((buildsOption default a hdefault).bind fun id b _ hid ↦
      (buildsParams ts b hts).bind fun params c hbc hparams ↦ .pure (.cons ⟨rfl, rfl, Holds.mono_option hid hbc⟩ hparams))
    simp [innerParams]

end

/-- A tree with no list longer than a span can be is built where the tables have room for it, and takes the entries counted.  It
is read back from the position of its root, whatever the arena held before and whatever is added to it afterwards.  The child
positions that its nodes store stand before the nodes. -/
theorem read_build (t : Tree) (a : Arena) (hshort : t.Short) (hroom : ∀ τ, a.count τ + t.entries τ ≤ maxTable) :
    ∃ root b, t.build a = .ok (root, b) ∧ a.Extends b ∧ (∀ τ, b.count τ = a.count τ + t.entries τ) ∧
      ∀ c, b.Extends c → c.read root = some t ∧ ∀ id, a.size ≤ id.index → id.index < b.size →
        ∃ children, c.children? (c.node id) = some children ∧ ∀ child ∈ children, child.index < id.index := by
  obtain ⟨root, b, hbuild, hadds, hholds⟩ := builds t a hshort hroom
  refine ⟨root, b, hbuild, hadds.grows, hadds.count, fun c hbc ↦ ⟨?_, fun id hle hlt ↦ ?_⟩⟩
  · exact hholds.reads c _ hbc.keeps (Nat.lt_succ_self _)
  · exact hadds.orders id c hle hlt hbc.keeps

/-- A call with an argument of each kind: a literal, and a closure under a name, with a default and a list in it. -/
def callWithClosure : Tree :=
  .methodCall (some .this) "at" [(none, .int 1), (some "otherwise",
    .closure [("x", none, some .nil), ("y", some "Integer", none)] (.list "Integer" [.ident "x", .ident "y"]) .method)]

theorem read_build_callWithClosure : callWithClosure.Short ∧
    (∀ τ, ({} : Arena).count τ + callWithClosure.entries τ ≤ maxTable) ∧
    ∃ root b, callWithClosure.build {} = .ok (root, b) ∧ b.read root = some callWithClosure := by
  have hshort : callWithClosure.Short := by
    intro s hs τ n hlist
    simp only [subtrees, callWithClosure, inner, innerOption, innerArgs, innerParams, innerAll, List.cons_append,
      List.nil_append, List.append_nil, List.mem_cons, List.not_mem_nil, or_false] at hs
    rcases hs with rfl | rfl | rfl | rfl | rfl | rfl | rfl | rfl <;> cases hlist <;> decide
  have hroom (τ : Table) : ({} : Arena).count τ + callWithClosure.entries τ ≤ maxTable := by
    cases τ <;> decide
  obtain ⟨root, b, hbuild, -, -, hread⟩ := read_build callWithClosure {} hshort hroom
  exact ⟨hshort, hroom, root, b, hbuild, (hread b .refl).1⟩

end Tree

end MindScript
