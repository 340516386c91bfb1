import Mathlib.Logic.Relation
import MindScript.Proofs.Expr.Builds

/-!
# What a flag tells

An arena flags a node from the flags that its children have by then.  Nodes may be shared, so that what stands below a
node is a graph and not a tree; the flag still says whether a node that suspends can be reached in it.
-/

namespace MindScript

namespace Node

/-- Evaluating the node may suspend by itself, whatever its children are. -/
def suspends : Node → Bool
  | coroutineCall _ _ _ _ | concurrent _ _ | invoke _ _ => true
  | _ => false

/-- What stands below the node runs in a frame of its own. -/
def isApart : Node → Bool
  | closure _ _ _ | branch _ => true
  | _ => false

end Node

namespace Arena

/-- An arena is filled from the empty one, each node after its children, which may have been given to others before. -/
inductive Built : Arena → Prop where
  | empty : Built {}
  | node {a b : Arena} {n : Node} {id : ExprId} {children : List ExprId} : Built a → a.children? n = some children →
      (∀ child ∈ children, child.index < a.size) → a.alloc n = .ok (id, b) → Built b
  | list {a b : Arena} {ids : List ExprId} {s : Span} : Built a → a.pushList ids = .ok (s, b) → Built b
  | args {a b : Arena} {args : List CallArg} {s : Span} : Built a → a.pushArgs args = .ok (s, b) → Built b
  | params {a b : Arena} {params : List Param} {s : Span} : Built a → a.pushParams params = .ok (s, b) → Built b
  | clauses {a b : Arena} {clauses : List Clause} {s : Span} : Built a → a.pushClauses clauses = .ok (s, b) → Built b

/-- One node is a child of another and runs in its frame. -/
def Leads (a : Arena) (id child : ExprId) : Prop :=
  (a.node id).isApart = false ∧ ∃ children, a.children? (a.node id) = some children ∧ child ∈ children

/-- A node that suspends by itself can be reached from another without a frame of its own between them. -/
def Reaches (a : Arena) (id : ExprId) : Prop := ∃ k, Relation.ReflTransGen a.Leads id k ∧ (a.node k).suspends = true

section

variable {α : Type} {a b : Arena} {n : Node} {id : ExprId} {children : List ExprId}

/-- A search ends at once or goes on from a child. -/
theorem reaches_iff : a.Reaches id ↔ (a.node id).suspends = true ∨ ∃ child, a.Leads id child ∧ a.Reaches child := by
  constructor
  · rintro ⟨k, hpath, hk⟩
    rcases Relation.ReflTransGen.cases_head hpath with rfl | ⟨child, hchild, hpath⟩
    · exact .inl hk
    · exact .inr ⟨child, hchild, k, hpath, hk⟩
  · rintro (hself | ⟨child, hchild, k, hpath, hk⟩)
    · exact ⟨id, .refl, hself⟩
    · exact ⟨k, .head hchild hpath, hk⟩

/-! ### The flag of a new node -/

theorem slice_of_slice? {table : Array α} {s : Span} {items : List α} (h : slice? table s = some items) :
    slice table s = items := by
  unfold slice? at h
  split at h
  · exact Option.some.inj h
  · cases h

/-- The flag of a node is read off its kind and the flags of its children. -/
theorem maySuspend_iff (h : a.children? n = some children) :
    a.maySuspend n = true ↔ n.suspends = true ∨ n.isApart = false ∧ ∃ child ∈ children, a.isDurational child = true := by
  cases n with
  | nil | bool _ | int _ | real _ | str _ | sym _ | this | ident _ | bind _ _ | assign _ _ | unary _ _ | loop _
  | branch _ | binary _ _ _ | guarded _ _ _ =>
    cases h
    simp [maySuspend, Node.suspends, Node.isApart]
  | coroutineCall _ _ _ _ | concurrent _ _ | invoke _ _ | closure _ _ _ => simp [maySuspend, Node.suspends, Node.isApart]
  | methodCall receiver _ args _ =>
    obtain ⟨xs, hslice, ⟨⟩⟩ := Option.bind_eq_some_iff.mp h
    cases receiver <;> simp [maySuspend, Node.suspends, Node.isApart, argsAt, slice_of_slice? hslice]
  | instantiate _ args =>
    obtain ⟨xs, hslice, ⟨⟩⟩ := Option.bind_eq_some_iff.mp h
    simp [maySuspend, Node.suspends, Node.isApart, argsAt, slice_of_slice? hslice]
  | conditional clauses otherwise =>
    obtain ⟨xs, hslice, ⟨⟩⟩ := Option.bind_eq_some_iff.mp h
    cases otherwise <;> simp [maySuspend, Node.suspends, Node.isApart, clausesAt, slice_of_slice? hslice]
    all_goals grind
  | block items | list _ items => simp [maySuspend, Node.suspends, Node.isApart, listAt, slice_of_slice? h]
  | loopExit value =>
    cases h
    cases value <;> simp [maySuspend, Node.suspends, Node.isApart]

/-! ### What every step keeps -/

/-- A node has the same children in an arena that has grown. -/
theorem Keeps.children?_eq (h : a.Keeps b) (hn : a.children? n = some children) : b.children? n = some children := by
  cases n with
  | nil | bool _ | int _ | real _ | str _ | sym _ | this | ident _ | bind _ _ | assign _ _ | unary _ _ | loop _
  | branch _ | binary _ _ _ | guarded _ _ _ | loopExit _ => exact hn
  | methodCall _ _ _ _ | coroutineCall _ _ _ _ | invoke _ _ | instantiate _ _ =>
    obtain ⟨xs, hslice, hxs⟩ := Option.bind_eq_some_iff.mp hn
    exact Option.bind_eq_some_iff.mpr ⟨xs, slice?_mono h.args hslice, hxs⟩
  | conditional _ _ =>
    obtain ⟨xs, hslice, hxs⟩ := Option.bind_eq_some_iff.mp hn
    exact Option.bind_eq_some_iff.mpr ⟨xs, slice?_mono h.clauses hslice, hxs⟩
  | closure _ _ _ =>
    obtain ⟨xs, hslice, hxs⟩ := Option.bind_eq_some_iff.mp hn
    exact Option.bind_eq_some_iff.mpr ⟨xs, slice?_mono h.params hslice, hxs⟩
  | block _ | list _ _ | concurrent _ _ => exact slice?_mono h.lists hn

/-- A node stands after its children, and its flag is the one that its kind and their flags make. -/
structure Flagged (a : Arena) (id : ExprId) (children : List ExprId) : Prop where
  stored : a.children? (a.node id) = some children
  before : ∀ child ∈ children, child.index < id.index
  flag : a.isDurational id = true ↔
    (a.node id).suspends = true ∨ (a.node id).isApart = false ∧ ∃ child ∈ children, a.isDurational child = true

/-- Every node has its flag, and every flag is right. -/
structure Marked (a : Arena) : Prop where
  size : a.durational.size = a.size
  flagged : ∀ id : ExprId, id.index < a.size → ∃ children, a.Flagged id children

/-- A flag is never changed, so that one that was right stays right. -/
theorem Flagged.mono (h : a.Flagged id children) (hid : id.index < a.size) (hab : a.Keeps b)
    (hflags : ∀ k : ExprId, k.index < a.size → b.isDurational k = a.isDurational k) : b.Flagged id children := by
  have hnode := hab.node_eq hid
  refine ⟨by rw [hnode]; exact hab.children?_eq h.stored, h.before, ?_⟩
  rw [hnode, hflags id hid, h.flag]
  refine or_congr_right (and_congr_right fun _ ↦ exists_congr fun child ↦ and_congr_right fun hchild ↦ ?_)
  rw [hflags child (Nat.lt_trans (h.before child hchild) hid)]

/-- A step that stores a list leaves all nodes and flags as they were. -/
theorem Marked.keep (h : a.Marked) (hab : a.Keeps b) (hnodes : b.nodes = a.nodes) (hflags : b.durational = a.durational) :
    b.Marked := by
  have hsize : b.size = a.size := congrArg Array.size hnodes
  refine ⟨by rw [hflags, hsize, h.size], fun id hid ↦ ?_⟩
  obtain ⟨children, hchildren⟩ := h.flagged id (hsize ▸ hid)
  exact ⟨children, hchildren.mono (hsize ▸ hid) hab fun k _ ↦ by rw [isDurational, isDurational, hflags]⟩

/-- A node that is stored after its children gets the right flag. -/
theorem Marked.alloc (h : a.Marked) (hn : a.children? n = some children) (hbefore : ∀ child ∈ children, child.index < a.size)
    (hop : a.alloc n = .ok (id, b)) : b.Marked := by
  have hab : a.Keeps b := (Extends.refl.alloc hop).keeps
  unfold Arena.alloc at hop
  split at hop
  case isFalse => cases hop
  cases hop
  have hflags (k : ExprId) (hk : k.index < a.size) :
      isDurational { a with nodes := a.nodes.push n, durational := a.durational.push (a.maySuspend n) } k
        = a.isDurational k := by
    have hk' : k.index < a.durational.size := h.size ▸ hk
    simp [isDurational, Array.getD, hk', Array.getElem_push_lt hk', Nat.lt_succ_of_lt hk']
  have hsize : a.durational.size = a.nodes.size := h.size
  refine ⟨by simp [Arena.size, hsize], fun k hk ↦ ?_⟩
  rcases Nat.lt_succ_iff_lt_or_eq.mp (by simpa [Arena.size] using hk : k.index < a.nodes.size + 1) with hlt | heq
  · obtain ⟨ks, hks⟩ := h.flagged k hlt
    exact ⟨ks, hks.mono hlt hab hflags⟩
  · have hnode : node { a with nodes := a.nodes.push n, durational := a.durational.push (a.maySuspend n) } k = n := by
      simp [node, heq]
    have hflag : isDurational { a with nodes := a.nodes.push n, durational := a.durational.push (a.maySuspend n) } k
        = a.maySuspend n := by
      simp [isDurational, heq, ← hsize]
    refine ⟨children, by rw [hnode]; exact hab.children?_eq hn, fun child hchild ↦ heq ▸ hbefore child hchild, ?_⟩
    rw [hnode, hflag, maySuspend_iff hn]
    refine or_congr_right (and_congr_right fun _ ↦ exists_congr fun child ↦ and_congr_right fun hchild ↦ ?_)
    rw [hflags child (hbefore child hchild)]

theorem Built.marked (h : a.Built) : a.Marked := by
  induction h with
  | empty => exact ⟨rfl, fun _ hid ↦ absurd hid (Nat.not_lt_zero _)⟩
  | node _ hn hbefore hop ih => exact ih.alloc hn hbefore hop
  | list _ hop ih =>
    have hab := (Extends.refl.list hop).keeps
    obtain ⟨_, -, hop⟩ := exists_of_push hop
    cases hop
    exact ih.keep hab rfl rfl
  | args _ hop ih =>
    have hab := (Extends.refl.args hop).keeps
    obtain ⟨_, -, hop⟩ := exists_of_push hop
    cases hop
    exact ih.keep hab rfl rfl
  | params _ hop ih =>
    have hab := (Extends.refl.params hop).keeps
    obtain ⟨_, -, hop⟩ := exists_of_push hop
    cases hop
    exact ih.keep hab rfl rfl
  | clauses _ hop ih =>
    have hab := (Extends.refl.clauses hop).keeps
    obtain ⟨_, -, hop⟩ := exists_of_push hop
    cases hop
    exact ih.keep hab rfl rfl

/-- A node is flagged exactly where a node that suspends by itself can be reached from it. -/
theorem isDurational_iff_reaches (h : a.Built) (hid : id.index < a.size) : a.isDurational id = true ↔ a.Reaches id := by
  have hmarked := h.marked
  -- Children stand before their parents, so that the induction is on positions, however often a node is shared.
  induction hindex : id.index using Nat.strongRecOn generalizing id with
  | ind index ih =>
    subst hindex
    obtain ⟨children, hchildren⟩ := hmarked.flagged id hid
    have hbelow : ∀ child ∈ children, (a.isDurational child = true ↔ a.Reaches child) := fun child hchild ↦
      ih child.index (hchildren.before child hchild) (Nat.lt_trans (hchildren.before child hchild) hid) rfl
    rw [hchildren.flag, reaches_iff]
    refine or_congr_right ⟨?_, ?_⟩
    · rintro ⟨hframe, child, hchild, hflag⟩
      exact ⟨child, ⟨hframe, children, hchildren.stored, hchild⟩, (hbelow child hchild).mp hflag⟩
    · rintro ⟨child, ⟨hframe, ks, hks, hchild⟩, hreaches⟩
      obtain rfl : children = ks := Option.some.inj (hchildren.stored.symm.trans hks)
      exact ⟨hframe, child, hchild, (hbelow child hchild).mpr hreaches⟩

/-- A node that suspends, given twice to one sum; and a closure with that sum in a comparison. -/
def sharing : Arena where
  nodes := #[.this, .invoke ⟨0⟩ .empty, .binary .add ⟨1⟩ ⟨1⟩, .closure .empty ⟨2⟩ .method, .binary .eq ⟨0⟩ ⟨3⟩]
  durational := #[false, true, true, false, false]

theorem built_sharing : sharing.Built := by
  have hthis : Built { nodes := #[.this], durational := #[false] } := Built.empty.node rfl (by decide) rfl
  have hinvoke : Built { nodes := #[.this, .invoke ⟨0⟩ .empty], durational := #[false, true] } :=
    hthis.node (n := .invoke ⟨0⟩ .empty) rfl (by decide) rfl
  have hsum : Built { nodes := #[.this, .invoke ⟨0⟩ .empty, .binary .add ⟨1⟩ ⟨1⟩], durational := #[false, true, true] } :=
    hinvoke.node (n := .binary .add ⟨1⟩ ⟨1⟩) rfl (by decide) rfl
  exact (hsum.node (n := .closure .empty ⟨2⟩ .method) rfl (by decide) rfl).node (n := .binary .eq ⟨0⟩ ⟨3⟩) rfl
    (by decide) rfl

theorem isDurational_iff_reaches_sharing :
    sharing.Built ∧ (sharing.isDurational ⟨2⟩ = true ∧ sharing.Reaches ⟨2⟩) ∧
      (sharing.isDurational ⟨4⟩ = false ∧ ¬ sharing.Reaches ⟨4⟩) :=
  ⟨built_sharing, ⟨rfl, (isDurational_iff_reaches built_sharing (by decide)).mp rfl⟩,
    rfl, fun h ↦ absurd ((isDurational_iff_reaches built_sharing (by decide)).mpr h) (by decide)⟩

end

end Arena

end MindScript
