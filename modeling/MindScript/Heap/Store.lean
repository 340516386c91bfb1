import MindScript.Heap.Object
import MindScript.Stack

/-!
# The heap

Cells are counted.  When the last reference to a cell is given up the cell is freed: its count is zero from
then on, and it gives up its own links, first to last, each completely before the next.  What a freed cell
holds is left as it is, since nobody refers to it any more.  An instance whose destructor is due is not
freed: it moves to the queue of due destructors, which then holds the one reference to it.  Giving up
references never runs any script.
-/

namespace MindScript

structure Heap where
  objects : Array Object := #[]
  scopes : Array Scope := #[]
  outcomes : Array Outcome := #[]
  /-- Instances whose destructor is due, in the order in which they were given up. -/
  due : Array Ref := #[]
  /-- Whether there still is an interpreter to run destructors. -/
  reaping : Bool := true
  deriving Inhabited

namespace Heap

def object? (h : Heap) (r : Ref) : Option Object := h.objects[r.index]?

def object (h : Heap) (r : Ref) : Object := (h.object? r).getD default

def payload (h : Heap) (r : Ref) : Payload := (h.object r).payload

def classOf (h : Heap) (r : Ref) : ClassId := (h.object r).classId

def scope? (h : Heap) (s : ScopeId) : Option Scope := h.scopes[s.index]?

def outcome? (h : Heap) (o : OutcomeId) : Option Outcome := h.outcomes[o.index]?

def outcome (h : Heap) (o : OutcomeId) : Outcome := (h.outcome? o).getD default

/-- Number of references to an instance; zero once it is freed. -/
def refCount (h : Heap) (r : Ref) : Nat := ((h.object? r).map Object.count).getD 0

/-! ### New cells

A new cell has one reference, which belongs to the caller; the links it holds were the caller's. -/

def newObject (h : Heap) (o : Object) : Ref × Heap :=
  (⟨h.objects.size⟩, { h with objects := h.objects.push o })

def newScope (h : Heap) (parent : Option ScopeId) : ScopeId × Heap :=
  (⟨h.scopes.size⟩, { h with scopes := h.scopes.push { parent } })

def newOutcome (h : Heap) (status : FrameStatus) : OutcomeId × Heap :=
  (⟨h.outcomes.size⟩, { h with outcomes := h.outcomes.push { status } })

@[simp] theorem object?_newObject_self (h : Heap) (o : Object) :
    (h.newObject o).2.object? (h.newObject o).1 = some o := by
  simp [newObject, object?]

theorem object?_newObject_of_ne {h : Heap} {o : Object} {r : Ref} (hr : r ≠ (h.newObject o).1) :
    (h.newObject o).2.object? r = h.object? r := by
  have hi : r.index ≠ h.objects.size := fun e ↦ hr (by cases r; simp_all [newObject])
  simp [newObject, object?, Array.getElem?_push, hi]

/-! ### Changes in place -/

def modifyObject (h : Heap) (r : Ref) (f : Object → Object) : Heap :=
  { h with objects := h.objects.modify r.index f }

def modifyScope (h : Heap) (s : ScopeId) (f : Scope → Scope) : Heap :=
  { h with scopes := h.scopes.modify s.index f }

def modifyOutcome (h : Heap) (o : OutcomeId) (f : Outcome → Outcome) : Heap :=
  { h with outcomes := h.outcomes.modify o.index f }

def setPayload (h : Heap) (r : Ref) (p : Payload) : Heap :=
  h.modifyObject r fun o ↦ { o with payload := p }

theorem object?_modifyObject (h : Heap) (r s : Ref) (f : Object → Object) :
    (h.modifyObject r f).object? s = if r = s then (h.object? s).map f else h.object? s := by
  obtain ⟨i⟩ := r
  obtain ⟨j⟩ := s
  simp only [modifyObject, object?, Array.getElem?_modify, Ref.mk.injEq]

theorem scope?_modifyScope (h : Heap) (s t : ScopeId) (f : Scope → Scope) :
    (h.modifyScope s f).scope? t = if s = t then (h.scope? t).map f else h.scope? t := by
  obtain ⟨i⟩ := s
  obtain ⟨j⟩ := t
  simp only [modifyScope, scope?, Array.getElem?_modify, ScopeId.mk.injEq]

theorem outcome?_modifyOutcome (h : Heap) (o p : OutcomeId) (f : Outcome → Outcome) :
    (h.modifyOutcome o f).outcome? p = if o = p then (h.outcome? p).map f else h.outcome? p := by
  obtain ⟨i⟩ := o
  obtain ⟨j⟩ := p
  simp only [modifyOutcome, outcome?, Array.getElem?_modify, OutcomeId.mk.injEq]

/-- Change the items of a list; anything else stays as it is. -/
def modifyItems (h : Heap) (r : Ref) (f : Sequence → Sequence) : Heap :=
  h.modifyObject r fun o ↦
    match o.payload with
    | .list s => { o with payload := .list (f s) }
    | _ => o

/-! ### Counting -/

/-- Take one more reference. -/
def retain (h : Heap) : Link → Heap
  | .object r => h.modifyObject r fun o ↦ { o with count := o.count + 1 }
  | .scope s => h.modifyScope s fun o ↦ { o with count := o.count + 1 }
  | .outcome c => h.modifyOutcome c fun o ↦ { o with count := o.count + 1 }

/-- Give up one reference.  If that frees the cell, the links it held are handed back. -/
def unlink (h : Heap) : Link → Option (List Link) × Heap
  | .object r =>
    match h.object? r with
    | none => (none, h)
    | some o =>
      if o.count = 0 then (none, h)
      else if o.count = 1 && o.armed && !o.destructed && h.reaping then
        let h := h.modifyObject r fun o ↦ { o with destructed := true }
        (none, { h with due := h.due.push r })
      else
        (if o.count = 1 then some o.links else none,
          h.modifyObject r fun o ↦ { o with count := o.count - 1 })
  | .scope s =>
    match h.scope? s with
    | none => (none, h)
    | some o =>
      if o.count = 0 then (none, h)
      else
        (if o.count = 1 then some o.links else none,
          h.modifyScope s fun o ↦ { o with count := o.count - 1 })
  | .outcome c =>
    match h.outcome? c with
    | none => (none, h)
    | some o =>
      if o.count = 0 then (none, h)
      else
        (if o.count = 1 then some o.links else none,
          h.modifyOutcome c fun o ↦ { o with count := o.count - 1 })

/-- Give up links in turn until one of them frees a cell; what is then left to do starts with the links
of that cell. -/
def unlinkUntilFreed (h : Heap) : List Link → List Link × Heap
  | [] => ([], h)
  | l :: rest =>
    match h.unlink l with
    | (none, h) => unlinkUntilFreed h rest
    | (some links, h) => (links ++ rest, h)

/-- Give up links with room for the given number of freed cells. -/
def releaseWithin : Nat → Heap → List Link → Heap
  | 0, h, _ => h
  | n + 1, h, links =>
    match h.unlinkUntilFreed links with
    | ([], h) => h
    | (rest, h) => releaseWithin n h rest

/-- Give up references, first to last, each with all that hangs on it. -/
def release (h : Heap) (links : List Link) : Heap :=
  releaseWithin (h.objects.size + h.scopes.size + h.outcomes.size + 1) h links

/-- Take the due instances, leaving the queue empty.  The references now belong to the caller. -/
def takeDue (h : Heap) : List Ref × Heap := (h.due.toList, { h with due := #[] })

/-! ### Local bindings -/

/-- The value bound to a name by a scope or the nearest of the scopes around it.  A scope is younger
than its parent, so the walk is no longer than the scope's position. -/
def lookupWithin (h : Heap) (name : String) : Nat → ScopeId → Option Ref
  | 0, _ => none
  | n + 1, s =>
    match h.scope? s with
    | none => none
    | some scope =>
      match scope.bindings.lookup name with
      | some value => some value
      | none => scope.parent.bind (h.lookupWithin name n)

def lookup (h : Heap) (s : ScopeId) (name : String) : Option Ref :=
  h.lookupWithin name (s.index + 1) s

/-- The nearest scope that binds a name. -/
def binderWithin (h : Heap) (name : String) : Nat → ScopeId → Option ScopeId
  | 0, _ => none
  | n + 1, s =>
    match h.scope? s with
    | none => none
    | some scope =>
      if (scope.bindings.lookup name).isSome then some s
      else scope.parent.bind (h.binderWithin name n)

def binder (h : Heap) (s : ScopeId) (name : String) : Option ScopeId :=
  h.binderWithin name (s.index + 1) s

/-- The value of a name is what the nearest scope that binds it binds it to. -/
theorem lookupWithin_eq (h : Heap) (name : String) (n : Nat) (s : ScopeId) :
    h.lookupWithin name n s = (h.binderWithin name n s).bind fun b ↦
      (h.scope? b).bind fun scope ↦ scope.bindings.lookup name := by
  induction n generalizing s with
  | zero => rfl
  | succ n ih =>
    unfold lookupWithin binderWithin
    cases hs : h.scope? s with
    | none => rfl
    | some scope =>
      cases hl : scope.bindings.lookup name with
      | some value => simp [hl, hs]
      | none =>
        cases hp : scope.parent with
        | none => simp [hl, hp]
        | some parent => simp [hl, hp, ih]

theorem lookup_eq (h : Heap) (s : ScopeId) (name : String) :
    h.lookup s name = (h.binder s name).bind fun b ↦
      (h.scope? b).bind fun scope ↦ scope.bindings.lookup name :=
  h.lookupWithin_eq name _ s

/-- A scope that binds a name is there. -/
theorem exists_of_binder {h : Heap} {name : String} {s b : ScopeId} (hb : h.binder s name = some b) :
    ∃ scope value, h.scope? b = some scope ∧ scope.bindings.lookup name = some value := by
  suffices hwithin : ∀ n s, h.binderWithin name n s = some b →
      ∃ scope value, h.scope? b = some scope ∧ scope.bindings.lookup name = some value from hwithin _ s hb
  intro n
  induction n with
  | zero => exact fun s hb ↦ by cases hb
  | succ n ih =>
    intro s hb
    unfold binderWithin at hb
    cases hscope : h.scope? s with
    | none =>
      rw [hscope] at hb
      cases hb
    | some scope =>
      rw [hscope] at hb
      dsimp only at hb
      split at hb
      · next hvalue =>
        obtain ⟨value, hvalue⟩ := Option.isSome_iff_exists.mp hvalue
        exact Option.some.inj hb ▸ ⟨scope, value, hscope, hvalue⟩
      · obtain ⟨parent, -, hb⟩ := Option.bind_eq_some_iff.mp hb
        exact ih parent hb

/-- Bind a name in the scope itself; a value that it was bound to there is handed back. -/
def define (h : Heap) (s : ScopeId) (name : String) (value : Ref) : Option Ref × Heap :=
  let previous := (h.scope? s).bind fun scope ↦ scope.bindings.lookup name
  (previous, h.modifyScope s fun scope ↦
    { scope with bindings := (name, value) :: scope.bindings.filter fun b ↦ b.1 != name })

/-- Assign to the nearest binding of a name and hand the replaced value back; without a binding nothing
changes. -/
def assign (h : Heap) (s : ScopeId) (name : String) (value : Ref) : Option Ref × Heap :=
  match h.binder s name with
  | none => (none, h)
  | some owner => h.define owner name value

theorem assign_of_none {h : Heap} {s : ScopeId} {name : String} (hb : h.binder s name = none) (value : Ref) :
    h.assign s name value = (none, h) := by
  rw [assign, hb]

/-- The replaced value is handed back. -/
theorem assign_of_some {h : Heap} {s b : ScopeId} {name : String} (hb : h.binder s name = some b) (value : Ref) :
    h.assign s name value = h.define b name value ∧ ∃ previous, (h.define b name value).1 = some previous := by
  obtain ⟨scope, previous, hscope, hprevious⟩ := exists_of_binder hb
  exact ⟨by rw [assign, hb], previous, by simp [define, hscope, hprevious]⟩

end Heap

/-- The scopes of one frame, the innermost one on top.  The lowest one, the frame's root, is never
popped. -/
@[ext]
structure Environment where
  scopes : Stack ScopeId
  /-- There is a root scope, which is never closed. -/
  depth_pos : 0 < scopes.height
  deriving DecidableEq, Repr

namespace Environment

instance : Inhabited Environment := ⟨⟨.ofList [default], Nat.one_pos⟩⟩

/-- The links of a frame's scopes, root first. -/
def links (e : Environment) : List Link := e.scopes.toList.map .scope

def depth (e : Environment) : Nat := e.scopes.height

/-- The innermost scope. -/
def innermost (e : Environment) : ScopeId := e.scopes.top?.getD default

/-- A frame with an empty root scope. -/
def new (h : Heap) : Environment × Heap :=
  let (s, h) := h.newScope none
  (⟨.ofList [s], Nat.one_pos⟩, h)

/-- A frame whose root scope lies inside another scope. -/
def chained (h : Heap) (parent : ScopeId) : Environment × Heap :=
  let (s, h) := (h.retain (.scope parent)).newScope (some parent)
  (⟨.ofList [s], Nat.one_pos⟩, h)

/-- Open a scope inside the innermost one. -/
def push (e : Environment) (h : Heap) : Environment × Heap :=
  let (s, h) := (h.retain (.scope e.innermost)).newScope (some e.innermost)
  (⟨e.scopes.push s, Nat.succ_pos _⟩, h)

/-- Close scopes, outer ones first, until at most the given number remains, and at least one. -/
def truncate (e : Environment) (h : Heap) (depth : Nat) : Environment × Heap :=
  let extra := e.depth - max depth 1
  have hextra : 0 < (e.scopes.drop extra).height := by
    have := e.depth_pos
    simp only [Stack.height_drop, extra, Environment.depth]
    omega
  (⟨e.scopes.drop extra, hextra⟩, h.release ((e.scopes.topmost extra).map .scope))

/-- Close the innermost scope unless it is the root. -/
def pop (e : Environment) (h : Heap) : Environment × Heap :=
  if 1 < e.depth then e.truncate h (e.depth - 1) else (e, h)

end Environment

end MindScript
