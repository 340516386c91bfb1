import Mathlib.Data.List.Forall2
import MindScript.Proofs.Expr.Tree

/-!
# Steps of a builder

An arena only grows, so that what has been stored stays where it is.  A node is stored after its children, and its tree is read
from then on, whatever else is added.
-/

namespace MindScript

namespace Arena

/-! ### Arenas that grow -/

/-- Nodes and lists are added to an arena, in any number. -/
inductive Extends (a : Arena) : Arena → Prop where
  | refl : Extends a a
  | alloc {b c : Arena} {n : Node} {id : ExprId} : Extends a b → b.alloc n = .ok (id, c) → Extends a c
  | list {b c : Arena} {ids : List ExprId} {s : Span} : Extends a b → b.pushList ids = .ok (s, c) → Extends a c
  | args {b c : Arena} {args : List CallArg} {s : Span} : Extends a b → b.pushArgs args = .ok (s, c) → Extends a c
  | params {b c : Arena} {params : List Param} {s : Span} : Extends a b → b.pushParams params = .ok (s, c) → Extends a c
  | clauses {b c : Arena} {clauses : List Clause} {s : Span} :
      Extends a b → b.pushClauses clauses = .ok (s, c) → Extends a c

theorem Extends.trans {a b c : Arena} (h : a.Extends b) (h' : b.Extends c) : a.Extends c := by
  induction h' with
  | refl => exact h
  | alloc _ hop ih => exact ih.alloc hop
  | list _ hop ih => exact ih.list hop
  | args _ hop ih => exact ih.args hop
  | params _ hop ih => exact ih.params hop
  | clauses _ hop ih => exact ih.clauses hop

/-- Each table of the one arena begins with that of the other. -/
structure Keeps (a b : Arena) : Prop where
  nodes : a.nodes.toList <+: b.nodes.toList
  lists : a.lists.toList <+: b.lists.toList
  args : a.args.toList <+: b.args.toList
  params : a.params.toList <+: b.params.toList
  clauses : a.clauses.toList <+: b.clauses.toList

section

variable {α : Type} {table after : Array α} {items : List α} {tableName listName : String} {s : Span} {a b c : Arena}

/-- What appending a list comes to. -/
theorem append_eq_ok (h : append table items tableName listName = .ok (s, after)) :
    after.toList = table.toList ++ items ∧ slice? after s = some items := by
  have hslice := slice_append h
  have hafter : after.toList = table.toList ++ items ∧ s.start + s.length ≤ after.size := by
    unfold append at h
    split at h
    · rename_i hitems
      cases h
      rw [List.isEmpty_iff.mp hitems, List.append_nil]
      exact ⟨rfl, Nat.zero_le _⟩
    · split at h
      · cases h
      · split at h
        · cases h
        · cases h
          have htoList : (table ++ items).toList = table.toList ++ items := by simp
          exact ⟨htoList, by simp [← Array.length_toList, htoList]⟩
  exact ⟨hafter.1, by rw [slice?, hslice, if_pos hafter.2]⟩

theorem exists_append (hroom : table.size + items.length ≤ maxTable) (hshort : items.length ≤ maxList) :
    ∃ s after, append table items tableName listName = .ok (s, after) := by
  unfold append
  cases items with
  | nil => exact ⟨_, _, rfl⟩
  | cons x xs =>
    have hsize : ¬ maxTable ≤ table.size := fun h ↦ by
      rw [List.length_cons] at hroom
      omega
    exact ⟨_, _, by rw [if_neg (by simp), if_neg hsize, if_neg (Nat.not_lt.mpr hshort)]⟩

theorem exists_of_push {β γ : Type} {x : Except Overflow β} {f : β → Except Overflow γ} {z : γ} (h : (x >>= f) = .ok z) :
    ∃ y, x = .ok y ∧ f y = .ok z := by
  cases x with
  | error e => cases h
  | ok y => exact ⟨y, rfl, h⟩

theorem slice?_mono (h : table.toList <+: after.toList) (hs : slice? table s = some items) :
    slice? after s = some items := by
  obtain ⟨rest, hrest⟩ := h
  obtain rfl : after = table ++ rest.toArray := by
    apply Array.toList_inj.mp
    simp [hrest]
  unfold slice? at hs ⊢
  split at hs
  · rename_i hle
    cases hs
    rw [if_pos (by simp; omega), slice, slice]
    simp [Array.extract_append, Nat.sub_eq_zero_of_le hle]
  · cases hs

namespace Keeps

theorem refl (a : Arena) : a.Keeps a :=
  ⟨List.prefix_refl _, List.prefix_refl _, List.prefix_refl _, List.prefix_refl _, List.prefix_refl _⟩

theorem trans (h : a.Keeps b) (h' : b.Keeps c) : a.Keeps c :=
  ⟨h.nodes.trans h'.nodes, h.lists.trans h'.lists, h.args.trans h'.args, h.params.trans h'.params,
    h.clauses.trans h'.clauses⟩

theorem size_le (h : a.Keeps b) : a.size ≤ b.size := by
  simpa [size] using h.nodes.length_le

theorem node_eq (h : a.Keeps b) {id : ExprId} (hid : id.index < a.size) : b.node id = a.node id := by
  have hget := List.prefix_iff_getElem?.mp h.nodes id.index (by simpa [size] using hid)
  have hid' := Nat.lt_of_lt_of_le hid h.size_le
  simp only [size] at hid hid'
  simp_all [node]

end Keeps

/-- A step of a builder adds to one table. -/
theorem Extends.keeps (h : a.Extends b) : a.Keeps b := by
  induction h with
  | refl => exact .refl a
  | alloc _ hop ih =>
    refine ih.trans ?_
    unfold Arena.alloc at hop
    split at hop
    · cases hop
      exact { Keeps.refl _ with nodes := by simp }
    · cases hop
  | list _ hop ih =>
    obtain ⟨_, happend, hop⟩ := exists_of_push hop
    cases hop
    exact ih.trans { Keeps.refl _ with lists := ⟨_, (append_eq_ok happend).1.symm⟩ }
  | args _ hop ih =>
    obtain ⟨_, happend, hop⟩ := exists_of_push hop
    cases hop
    exact ih.trans { Keeps.refl _ with args := ⟨_, (append_eq_ok happend).1.symm⟩ }
  | params _ hop ih =>
    obtain ⟨_, happend, hop⟩ := exists_of_push hop
    cases hop
    exact ih.trans { Keeps.refl _ with params := ⟨_, (append_eq_ok happend).1.symm⟩ }
  | clauses _ hop ih =>
    obtain ⟨_, happend, hop⟩ := exists_of_push hop
    cases hop
    exact ih.trans { Keeps.refl _ with clauses := ⟨_, (append_eq_ok happend).1.symm⟩ }

end

/-! ### Held trees -/

/-- The tree with its root at a position is read in the arena and in all that it grows to. -/
structure Holds (a : Arena) (id : ExprId) (t : Tree) : Prop where
  lt : id.index < a.size
  reads : ∀ b n, a.Keeps b → id.index < n → b.readTo n id = some t

/-- Each node from the one arena to the other stores positions of nodes before it, also when more is added. -/
def Orders (a b : Arena) : Prop :=
  ∀ id c, a.size ≤ id.index → id.index < b.size → b.Keeps c →
    ∃ children, c.children? (c.node id) = some children ∧ ∀ child ∈ children, child.index < id.index

section

variable {a b c : Arena} {id : ExprId} {t : Tree}

theorem Holds.mono (h : a.Holds id t) (hab : a.Keeps b) : b.Holds id t :=
  ⟨Nat.lt_of_lt_of_le h.lt hab.size_le, fun c n hbc ↦ h.reads c n (hab.trans hbc)⟩

theorem Orders.trans (h : a.Orders b) (h' : b.Orders c) (hbc : b.Keeps c) : a.Orders c := by
  intro id d hle hlt hcd
  rcases Nat.lt_or_ge id.index b.size with hb | hb
  · exact h id d hle hb (hbc.trans hcd)
  · exact h' id d hb hlt hcd

end

theorem mapM_eq_some_iff {α β : Type} {f : α → Option β} {xs : List α} {ys : List β} :
    xs.mapM f = some ys ↔ List.Forall₂ (fun x y ↦ f x = some y) xs ys := by
  induction xs generalizing ys with
  | nil => simp [List.mapM_nil, List.forall₂_nil_left_iff, eq_comm]
  | cons x xs ih =>
    simp only [List.mapM_cons, Option.bind_eq_bind, Option.bind_eq_some_iff, Option.pure_def, Option.some_inj, ih,
      List.forall₂_cons_left_iff]
    grind

theorem isSome_of_mapM {α β : Type} {f : α → Option β} {xs : List α} {ys : List β} (h : xs.mapM f = some ys) :
    ∀ x ∈ xs, (f x).isSome := by
  have hall := mapM_eq_some_iff.mp h
  clear h
  induction hall with
  | nil => exact List.forall_mem_nil _
  | cons hx _ ih => exact List.forall_mem_cons.mpr ⟨Option.isSome_of_mem hx, ih⟩

theorem isSome_of_option_mapM {α β : Type} {f : α → Option β} {x : Option α} {y : Option β} (h : x.mapM f = some y) :
    ∀ e ∈ x.toList, (f e).isSome := by
  cases x with
  | none => exact List.forall_mem_nil _
  | some e =>
    have hsome : (f e).map some = some y := h
    obtain ⟨b, hb, -⟩ := Option.map_eq_some_iff.mp hsome
    simp [hb]

section

variable {a : Arena} {read : ExprId → Option Tree} {s : Span} {n : Node} {t : Tree}

theorem expand.isSome_of_readArg {arg : CallArg} (h : (readArg read arg).isSome) : (read arg.value).isSome := by
  cases hread : read arg.value with
  | none => simp [readArg, hread] at h
  | some t => rfl

theorem expand.isSome_of_readPositional {arg : CallArg} (h : (readPositional read arg).isSome) :
    (read arg.value).isSome := by
  unfold readPositional at h
  split at h
  · exact h
  · cases h

theorem expand.isSome_of_readClause {c : Clause} (h : (readClause read c).isSome) :
    ∀ e ∈ [c.test, c.body], (read e).isSome := by
  cases htest : read c.test with
  | none => simp [readClause, htest] at h
  | some test =>
    cases hbody : read c.body with
    | none => simp [readClause, htest, hbody] at h
    | some body => simp [htest, hbody]

theorem expand.isSome_of_readParam {p : Param} (h : (readParam read p).isSome) : ∀ e ∈ p.default, (read e).isSome := by
  cases hread : p.default.mapM read with
  | none => simp [readParam, hread] at h
  | some t => simpa using isSome_of_option_mapM hread

/-- The entries of a list are read one by one. -/
theorem exists_of_slice {α β γ : Type} {table : Array α} {f : α → Option β} {F : List β → Option γ} {r : γ}
    (h : (slice? table s >>= fun xs ↦ xs.mapM f >>= F) = some r) :
    ∃ xs ys, slice? table s = some xs ∧ (∀ x ∈ xs, (f x).isSome) ∧ F ys = some r := by
  obtain ⟨xs, hslice, h⟩ := Option.bind_eq_some_iff.mp h
  obtain ⟨ys, hread, h⟩ := Option.bind_eq_some_iff.mp h
  exact ⟨xs, ys, hslice, isSome_of_mapM hread, h⟩

theorem expand.forall_positional {args : List CallArg} (h : ∀ arg ∈ args, (readPositional read arg).isSome) :
    ∀ e ∈ args.map CallArg.value, (read e).isSome :=
  List.forall_mem_map.mpr fun arg harg ↦ isSome_of_readPositional (h arg harg)

/-- A node is told only from the trees of its children. -/
theorem exists_children_of_expand (h : a.expand read n = some t) :
    ∃ children, a.children? n = some children ∧ ∀ child ∈ children, (read child).isSome := by
  cases n with
  | nil | bool _ | int _ | real _ | str _ | sym _ | this | ident _ => exact ⟨[], rfl, List.forall_mem_nil _⟩
  | bind _ e | assign _ e | unary _ e | loop e | branch e =>
    obtain ⟨r, hr, -⟩ := Option.bind_eq_some_iff.mp h
    exact ⟨[e], rfl, by simp [hr]⟩
  | binary _ l r | guarded l _ r =>
    obtain ⟨_, hl, h⟩ := Option.bind_eq_some_iff.mp h
    obtain ⟨_, hr, -⟩ := Option.bind_eq_some_iff.mp h
    exact ⟨[l, r], rfl, by simp [hl, hr]⟩
  | methodCall receiver method args qualifier =>
    cases qualifier with
    | none =>
      obtain ⟨_, hreceiver, h⟩ := Option.bind_eq_some_iff.mp h
      obtain ⟨xs, _, hslice, hread, -⟩ := exists_of_slice h
      refine ⟨receiver.toList ++ xs.map CallArg.value, by simp [children?, hslice], List.forall_mem_append.mpr ⟨?_, ?_⟩⟩
      · exact isSome_of_option_mapM hreceiver
      · exact List.forall_mem_map.mpr fun arg harg ↦ expand.isSome_of_readArg (hread arg harg)
    | some className =>
      obtain ⟨_, hreceiver, h⟩ := Option.bind_eq_some_iff.mp h
      obtain ⟨xs, _, hslice, hread, -⟩ := exists_of_slice h
      refine ⟨receiver.toList ++ xs.map CallArg.value, by simp [children?, hslice], List.forall_mem_append.mpr ⟨?_, ?_⟩⟩
      · exact isSome_of_option_mapM hreceiver
      · exact expand.forall_positional hread
  | coroutineCall receiver _ args _ =>
    obtain ⟨_, hreceiver, h⟩ := Option.bind_eq_some_iff.mp h
    obtain ⟨xs, _, hslice, hread, -⟩ := exists_of_slice h
    refine ⟨receiver.toList ++ xs.map CallArg.value, by simp [children?, hslice], List.forall_mem_append.mpr ⟨?_, ?_⟩⟩
    · exact isSome_of_option_mapM hreceiver
    · exact expand.forall_positional hread
  | invoke callee args =>
    obtain ⟨_, hcallee, h⟩ := Option.bind_eq_some_iff.mp h
    obtain ⟨xs, _, hslice, hread, -⟩ := exists_of_slice h
    refine ⟨callee :: xs.map CallArg.value, by simp [children?, hslice], List.forall_mem_cons.mpr ⟨?_, ?_⟩⟩
    · exact Option.isSome_of_mem hcallee
    · exact expand.forall_positional hread
  | instantiate _ args =>
    obtain ⟨xs, _, hslice, hread, -⟩ := exists_of_slice h
    exact ⟨xs.map CallArg.value, by simp [children?, hslice], expand.forall_positional hread⟩
  | conditional clauses otherwise =>
    obtain ⟨xs, _, hslice, hread, h⟩ := exists_of_slice h
    obtain ⟨_, hotherwise, -⟩ := Option.bind_eq_some_iff.mp h
    refine ⟨(xs.flatMap fun c ↦ [c.test, c.body]) ++ otherwise.toList, by simp [children?, hslice],
      List.forall_mem_append.mpr ⟨?_, ?_⟩⟩
    · exact List.forall_mem_flatMap.mpr fun c hc ↦ expand.isSome_of_readClause (hread c hc)
    · exact isSome_of_option_mapM hotherwise
  | block items | list _ items | concurrent _ items =>
    obtain ⟨xs, _, hslice, hread, -⟩ := exists_of_slice h
    exact ⟨xs, hslice, hread⟩
  | loopExit value =>
    obtain ⟨_, hvalue, -⟩ := Option.bind_eq_some_iff.mp h
    exact ⟨value.toList, rfl, isSome_of_option_mapM hvalue⟩
  | closure params body _ =>
    obtain ⟨xs, _, hslice, hread, h⟩ := exists_of_slice h
    obtain ⟨_, hbody, -⟩ := Option.bind_eq_some_iff.mp h
    refine ⟨xs.filterMap Param.default ++ [body], by simp [children?, hslice], List.forall_mem_append.mpr ⟨?_, ?_⟩⟩
    · intro e he
      obtain ⟨p, hp, hdefault⟩ := List.mem_filterMap.mp he
      exact expand.isSome_of_readParam (hread p hp) e hdefault
    · exact List.forall_mem_singleton.mpr (Option.isSome_of_mem hbody)

end

/-! ### Steps of a builder -/

/-- What a builder adds to an arena: so many entries to each table, and nodes in order. -/
structure Adds (a b : Arena) (cost : Table → ℕ) : Prop where
  grows : a.Extends b
  count : ∀ τ, b.count τ = a.count τ + cost τ
  orders : a.Orders b

/-- Where the tables have room for it, the builder ends well, and its result is as told. -/
def Builds {α : Type} (a : Arena) (f : Builder α) (cost : Table → ℕ) (P : Arena → α → Prop) : Prop :=
  (∀ τ, a.count τ + cost τ ≤ maxTable) → ∃ x b, f a = .ok (x, b) ∧ a.Adds b cost ∧ P b x

section

variable {α β : Type} {a b c : Arena} {cost cost' : Table → ℕ} {P : Arena → α → Prop} {Q : Arena → β → Prop}

theorem Orders.of_size_eq (h : b.size = a.size) : a.Orders b := fun _ _ hle hlt ↦
  absurd (Nat.lt_of_lt_of_le hlt (h ▸ hle)) (Nat.lt_irrefl _)

theorem Adds.trans (h : a.Adds b cost) (h' : b.Adds c cost') : a.Adds c fun τ ↦ cost τ + cost' τ :=
  ⟨h.grows.trans h'.grows, fun τ ↦ by rw [h'.count, h.count, Nat.add_assoc], h.orders.trans h'.orders h'.grows.keeps⟩

namespace Builds

theorem pure {x : α} (h : P a x) : Builds a (pure x) (fun _ ↦ 0) P := fun _ ↦
  ⟨x, a, rfl, ⟨.refl, fun _ ↦ rfl, .of_size_eq rfl⟩, h⟩

theorem bind {f : Builder α} {F : α → Builder β} (h : Builds a f cost P)
    (hF : ∀ x b, a.Keeps b → P b x → Builds b (F x) cost' Q) : Builds a (f >>= F) (fun τ ↦ cost τ + cost' τ) Q := by
  intro hroom
  obtain ⟨x, b, hf, hadds, hx⟩ := h fun τ ↦ Nat.le_trans (Nat.add_le_add_left (Nat.le_add_right ..) _) (hroom τ)
  obtain ⟨y, c, hrun, hadds', hy⟩ := hF x b hadds.grows.keeps hx fun τ ↦ by
    rw [hadds.count, Nat.add_assoc]
    exact hroom τ
  refine ⟨y, c, ?_, hadds.trans hadds', hy⟩
  rw [← hrun]
  exact congrArg (fun r : Except Overflow (α × Arena) ↦ r >>= fun r ↦ F r.1 r.2) hf

theorem of_cost {f : Builder α} (hcost : ∀ τ, cost τ = cost' τ) (h : Builds a f cost P) : Builds a f cost' P :=
  funext hcost ▸ h

/-- A node whose children are held is stored, and the tree of the node is held from then on. -/
theorem node {n : Node} {t : Tree}
    (h : ∀ b read, a.Keeps b → (∀ id t, a.Holds id t → read id = some t) → b.expand read n = some t) :
    Builds a (Builder.node n) (Table.nodes.tally 1) fun b id ↦ b.Holds id t := by
  intro hroom
  have hsize : a.nodes.size < maxTable := hroom .nodes
  let b : Arena := { a with nodes := a.nodes.push n, durational := a.durational.push (a.maySuspend n) }
  have hrun : a.alloc n = .ok (⟨a.nodes.size⟩, b) := if_pos hsize
  have hkeeps : a.Keeps b := (Extends.refl.alloc hrun).keeps
  have hb : b.size = a.size + 1 := Array.size_push ..
  have hnode {c : Arena} (hbc : b.Keeps c) : c.node ⟨a.size⟩ = n := by
    have hat : b.node ⟨a.size⟩ = n := by simp [Arena.node, b, size]
    exact (hbc.node_eq (show a.size < b.size by omega)).trans hat
  refine ⟨⟨a.size⟩, b, hrun, ⟨Extends.refl.alloc hrun, fun τ ↦ ?_, fun id c hle hlt hbc ↦ ?_⟩, ?_, fun c k hbc hk ↦ ?_⟩
  · cases τ <;> simp [count, b, Table.tally]
  · obtain rfl : id = ⟨a.size⟩ := congrArg ExprId.mk (show id.index = a.size by omega)
    -- Among the positions before the node are all that its tree is read from.
    let before (id : ExprId) : Option Tree := if id.index < a.size then c.readTo (id.index + 1) id else none
    obtain ⟨children, hchildren, hsome⟩ := exists_children_of_expand (h c before (hkeeps.trans hbc) fun id t hholds ↦
      (if_pos hholds.lt).trans (hholds.reads c _ (hkeeps.trans hbc) (Nat.lt_succ_self _)))
    refine ⟨children, (hnode hbc).symm ▸ hchildren, fun child hchild ↦ Decidable.byContradiction fun hnot ↦ ?_⟩
    have hbefore := hsome child hchild
    simp [before, hnot] at hbefore
  · show a.size < b.size
    omega
  · obtain ⟨k, rfl⟩ : ∃ k', k = k' + 1 := ⟨k - 1, by simp at hk; omega⟩
    have hc := hbc.size_le
    rw [readTo, if_pos (show a.size < c.size by omega), hnode hbc]
    exact h c _ (hkeeps.trans hbc) fun id t hholds ↦
      hholds.reads c k (hkeeps.trans hbc) (Nat.lt_of_lt_of_le hholds.lt (Nat.le_of_lt_succ hk))

/-- A list is stored, and its span names it from then on. -/
theorem listSpan {ids : List ExprId} (hshort : ids.length ≤ maxList) :
    Builds a (Builder.listSpan ids) (Table.lists.tally ids.length) fun b s ↦
      ∀ c, b.Keeps c → slice? c.lists s = some ids := by
  intro hroom
  obtain ⟨s, lists, happend⟩ := exists_append (hroom .lists) hshort
  have hrun : a.pushList ids = .ok (s, { a with lists }) := by
    rw [pushList, happend]
    rfl
  obtain ⟨htoList, hslice⟩ := append_eq_ok happend
  refine ⟨s, _, hrun, ⟨Extends.refl.list hrun, fun τ ↦ ?_, .of_size_eq rfl⟩, fun c hc ↦ slice?_mono hc.lists hslice⟩
  cases τ <;> simp [count, Table.tally, ← Array.length_toList, htoList]

theorem argSpan {items : List CallArg} (hshort : items.length ≤ maxList) :
    Builds a (Builder.argSpan items) (Table.args.tally items.length) fun b s ↦
      ∀ c, b.Keeps c → slice? c.args s = some items := by
  intro hroom
  obtain ⟨s, args, happend⟩ := exists_append (hroom .args) hshort
  have hrun : a.pushArgs items = .ok (s, { a with args }) := by
    rw [pushArgs, happend]
    rfl
  obtain ⟨htoList, hslice⟩ := append_eq_ok happend
  refine ⟨s, _, hrun, ⟨Extends.refl.args hrun, fun τ ↦ ?_, .of_size_eq rfl⟩, fun c hc ↦ slice?_mono hc.args hslice⟩
  cases τ <;> simp [count, Table.tally, ← Array.length_toList, htoList]

theorem params {items : List Param} (hshort : items.length ≤ maxList) :
    Builds a (Builder.params items) (Table.params.tally items.length) fun b s ↦
      ∀ c, b.Keeps c → slice? c.params s = some items := by
  intro hroom
  obtain ⟨s, params, happend⟩ := exists_append (hroom .params) hshort
  have hrun : a.pushParams items = .ok (s, { a with params }) := by
    rw [pushParams, happend]
    rfl
  obtain ⟨htoList, hslice⟩ := append_eq_ok happend
  refine ⟨s, _, hrun, ⟨Extends.refl.params hrun, fun τ ↦ ?_, .of_size_eq rfl⟩, fun c hc ↦ slice?_mono hc.params hslice⟩
  cases τ <;> simp [count, Table.tally, ← Array.length_toList, htoList]

theorem clauseSpan {items : List Clause} (hshort : items.length ≤ maxList) :
    Builds a (Builder.clauseSpan items) (Table.clauses.tally items.length) fun b s ↦
      ∀ c, b.Keeps c → slice? c.clauses s = some items := by
  intro hroom
  obtain ⟨s, clauses, happend⟩ := exists_append (hroom .clauses) hshort
  have hrun : a.pushClauses items = .ok (s, { a with clauses }) := by
    rw [pushClauses, happend]
    rfl
  obtain ⟨htoList, hslice⟩ := append_eq_ok happend
  refine ⟨s, _, hrun, ⟨Extends.refl.clauses hrun, fun τ ↦ ?_, .of_size_eq rfl⟩, fun c hc ↦ slice?_mono hc.clauses hslice⟩
  cases τ <;> simp [count, Table.tally, ← Array.length_toList, htoList]

theorem positional {ids : List ExprId} (hshort : ids.length ≤ maxList) :
    Builds a (Builder.positional ids) (Table.args.tally ids.length) fun b s ↦
      ∀ c, b.Keeps c → slice? c.args s = some (ids.map fun value ↦ ⟨none, value⟩) := by
  have hmap : (ids.map fun value ↦ (⟨none, value⟩ : CallArg)).length = ids.length := List.length_map ..
  rw [← hmap] at hshort ⊢
  exact argSpan hshort

end Builds

end

end Arena

end MindScript
