import MindScript.Error

/-!
# Sequences with live cursors

The items of a list value.  A cursor is a position in a sequence that may change between visits:
insertions and removals before the position move it, so that no item is skipped or visited twice.
-/

namespace MindScript

structure Sequence where
  itemClass : ClassId
  items : Array Ref := #[]
  /-- Position of the next item to visit, for every cursor opened so far. -/
  cursors : Array Nat := #[]
  deriving Inhabited

namespace Sequence

def size (s : Sequence) : Nat := s.items.size

def outOfRange (s : Sequence) (index : Int64) : EvalError :=
  .ofKind (.indexOutOfRange index s.size)

/-- The index as a position below a bound. -/
def position? (index : Int64) (bound : Nat) : Option Nat :=
  if 0 ≤ index.toInt ∧ index.toInt < bound then some index.toInt.toNat else none

theorem position?_eq_some_iff {index : Int64} {bound i : Nat} :
    position? index bound = some i ↔ index.toInt = i ∧ i < bound := by
  by_cases h : 0 ≤ index.toInt ∧ index.toInt < bound
  · simp only [position?, if_pos h, Option.some.injEq]
    omega
  · simp only [position?, if_neg h, reduceCtorEq, false_iff]
    omega

/-- The item at an index. -/
def get (s : Sequence) (index : Int64) : Except EvalError Ref :=
  match (position? index s.size).bind fun i ↦ s.items[i]? with
  | some item => .ok item
  | none => .error (s.outOfRange index)

def push (s : Sequence) (item : Ref) : Sequence := { s with items := s.items.push item }

@[simp] theorem toList_items_push (s : Sequence) (item : Ref) :
    (s.push item).items.toList = s.items.toList ++ [item] := by
  simp [push]

/-- Replace the item at an index; out of range nothing changes. -/
def set (s : Sequence) (index : Int64) (item : Ref) : Sequence :=
  match position? index s.size with
  | none => s
  | some i => { s with items := s.items.setIfInBounds i item }

/-- Insert before an index; the index just past the end appends. -/
def insert (s : Sequence) (index : Int64) (item : Ref) : Except EvalError Sequence :=
  match position? index (s.size + 1) with
  | none => .error (s.outOfRange index)
  | some i => .ok { s with
      items := s.items.insertIdxIfInBounds i item
      cursors := s.cursors.map fun p ↦ if i < p then p + 1 else p }

/-- Remove the item at an index and hand it back. -/
def remove (s : Sequence) (index : Int64) : Except EvalError (Ref × Sequence) :=
  match position? index s.size with
  | none => .error (s.outOfRange index)
  | some i =>
    match s.items[i]? with
    | none => .error (s.outOfRange index)
    | some removed => .ok (removed, { s with
        items := s.items.eraseIdxIfInBounds i
        cursors := s.cursors.map fun p ↦ if i < p then p - 1 else p })

/-- Remove all items and hand them back. -/
def clear (s : Sequence) : List Ref × Sequence :=
  (s.items.toList, { s with items := #[], cursors := s.cursors.map fun _ ↦ 0 })

/-- Open a cursor at the first item. -/
def openCursor (s : Sequence) : Nat × Sequence :=
  (s.cursors.size, { s with cursors := s.cursors.push 0 })

/-- Step a cursor past the next item and hand that item out, unless it is at the end. -/
def advance (s : Sequence) (cursor : Nat) : Option Ref × Sequence :=
  let p := s.cursors.getD cursor 0
  match s.items[p]? with
  | none => (none, s)
  | some item => (some item, { s with cursors := s.cursors.setIfInBounds cursor (p + 1) })

end Sequence

end MindScript
