/-!
# Stacks that know their height

A stack is a list, topmost item first, kept together with its length, so that the height at which a
construct was entered can be noted down, and later restored, without a walk through the items.
-/

namespace MindScript

structure Stack (α : Type) where
  /-- The items, topmost first. -/
  items : List α
  height : Nat
  height_eq : height = items.length
  deriving DecidableEq, Repr

namespace Stack

variable {α : Type}

def ofList (items : List α) : Stack α := ⟨items, items.length, rfl⟩

def empty : Stack α := ofList []

instance : Inhabited (Stack α) := ⟨empty⟩

def isEmpty (s : Stack α) : Bool := s.items.isEmpty

def push (s : Stack α) (a : α) : Stack α :=
  ⟨a :: s.items, s.height + 1, by simp [s.height_eq]⟩

def top? (s : Stack α) : Option α := s.items.head?

/-- The stack without the topmost items. -/
def drop (s : Stack α) (n : Nat) : Stack α :=
  ⟨s.items.drop n, s.height - n, by simp [s.height_eq]⟩

/-- The stack without its topmost item. -/
def pop (s : Stack α) : Stack α := s.drop 1

/-- The topmost items, the one pushed first in front. -/
def topmost (s : Stack α) (n : Nat) : List α := (s.items.take n).reverse

/-- All items, the one pushed first in front. -/
def toList (s : Stack α) : List α := s.items.reverse

theorem ext_items {s t : Stack α} (h : s.items = t.items) : s = t := by
  obtain ⟨items, height, hs⟩ := s
  obtain ⟨items', height', ht⟩ := t
  obtain rfl : items = items' := h
  obtain rfl : height = height' := hs.trans ht.symm
  rfl

@[simp] theorem items_ofList (items : List α) : (ofList items).items = items := rfl

@[simp] theorem items_push (s : Stack α) (a : α) : (s.push a).items = a :: s.items := rfl

@[simp] theorem items_drop (s : Stack α) (n : Nat) : (s.drop n).items = s.items.drop n := rfl

@[simp] theorem height_empty : (empty : Stack α).height = 0 := rfl

@[simp] theorem height_push (s : Stack α) (a : α) : (s.push a).height = s.height + 1 := rfl

@[simp] theorem height_drop (s : Stack α) (n : Nat) : (s.drop n).height = s.height - n := rfl

@[simp] theorem top?_push (s : Stack α) (a : α) : (s.push a).top? = some a := rfl

@[simp] theorem drop_zero (s : Stack α) : s.drop 0 = s := rfl

@[simp] theorem pop_push (s : Stack α) (a : α) : (s.push a).pop = s := rfl

theorem drop_drop (s : Stack α) (m n : Nat) : (s.drop m).drop n = s.drop (m + n) :=
  ext_items (by simp)

theorem toList_push (s : Stack α) (a : α) : (s.push a).toList = s.toList ++ [a] := by
  simp [toList]

/-- What lies above a height and what lies below it are the whole stack. -/
theorem toList_drop_append_topmost (s : Stack α) (n : Nat) :
    (s.drop n).toList ++ s.topmost n = s.toList := by
  rw [toList, topmost, items_drop, ← List.reverse_append, List.take_append_drop, toList]

end Stack

end MindScript
