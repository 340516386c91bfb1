import Std.Data.HashMap

/-!
# Interned names

A symbol is a number of 32 bits that stands for a text: four bits for a shard and 28 for a position in
that shard.  Which shard a text belongs to is decided by a spreading function, of which nothing is
assumed; only the empty text always lies in the first shard, where it comes first.  A shard lists its
texts in the order of their arrival and never forgets one, so equal texts have equal symbols and a symbol
keeps its text.
-/

namespace MindScript

structure Symbol where
  raw : UInt32
  deriving DecidableEq, Repr, Inhabited

namespace Symbol

/-- The number of positions of a shard. -/
def shardSize : Nat := 268435456

/-- The last position of a shard. -/
def maxIndex : Nat := shardSize - 1

def shardCount : Nat := 16

/-- The symbol of the empty text. -/
def empty : Symbol := ⟨0⟩

/-- The symbol of a position in a shard. -/
def pack (shard : Fin shardCount) (index : Nat) : Symbol :=
  ⟨UInt32.ofNat (shard.val <<< 28 ||| index)⟩

def shard (s : Symbol) : Nat := s.raw.toNat / shardSize

def index (s : Symbol) : Nat := s.raw.toNat % shardSize

theorem toNat_raw_pack (shard : Fin shardCount) {index : Nat} (h : index < shardSize) :
    (pack shard index).raw.toNat = shard * shardSize + index := by
  have hs : shard.val < 16 := shard.isLt
  have hi : index < 2 ^ 28 := h
  have hor : shard.val <<< 28 ||| index = shard.val * shardSize + index := by
    rw [← Nat.shiftLeft_add_eq_or_of_lt hi, Nat.shiftLeft_eq]
    rfl
  rw [pack, hor, UInt32.toNat_ofNat']
  exact Nat.mod_eq_of_lt (by simp only [shardSize] at *; omega)

theorem shard_pack (shard : Fin shardCount) {index : Nat} (h : index < shardSize) :
    (pack shard index).shard = shard := by
  rw [Symbol.shard, toNat_raw_pack shard h]
  simp only [shardSize] at *
  omega

theorem index_pack (shard : Fin shardCount) {index : Nat} (h : index < shardSize) :
    (pack shard index).index = index := by
  rw [Symbol.index, toNat_raw_pack shard h]
  simp only [shardSize] at *
  omega

/-- The symbol as diagnostics write it. -/
def text (s : Symbol) : String :=
  "Symbol(shard=" ++ toString s.shard ++ ", local=" ++ toString s.index ++ ")"

/-- The number of a symbol with base sixteen. -/
def hex (s : Symbol) : String := "0x" ++ String.ofList (Nat.toDigits 16 s.raw.toNat)

/-- A shard without a free position. -/
structure ShardFull where
  shard : Nat
  count : Nat
  deriving DecidableEq, Repr

def ShardFull.message (e : ShardFull) : String :=
  "symbol shard " ++ toString e.shard ++ " is full: " ++ toString e.count ++ " symbols, max is "
    ++ toString maxIndex

/-- The wording for a number that no table has issued. -/
def unknownMessage (s : Symbol) : String := "invalid symbol id " ++ s.hex

/-- Assigns shards to texts. -/
abbrev Spread := String → Fin shardCount

/-- Shards by the sum of a text's bytes. -/
def spreadBytes : Spread := fun text ↦
  Fin.ofNat 16 (text.toUTF8.foldl (fun sum b ↦ sum + b.toNat) 0)

/-- The shard of a text. -/
def shardFor (spread : Spread) (text : String) : Fin shardCount :=
  if text.isEmpty then ⟨0, by decide⟩ else spread text

/-- The texts of a shard in order of arrival, and the position of each. -/
structure Shard where
  ids : Std.HashMap String Nat := {}
  texts : Array String := #[]
  deriving Inhabited

/-- Add a text behind those that are there. -/
def Shard.push (s : Shard) (text : String) : Shard where
  ids := s.ids.insert text s.texts.size
  texts := s.texts.push text

structure Table where
  shards : Vector Shard shardCount
  /-- How many texts have been stored. -/
  total : Nat
  deriving Inhabited

namespace Table

/-- The table of the empty text. -/
def bare : Table where
  shards := (Vector.replicate shardCount {}).set 0 (Shard.push {} "") (by decide)
  total := 1

/-- Add a text to a shard. -/
def store (t : Table) (shard : Fin shardCount) (text : String) : Table where
  shards := t.shards.set shard ((t.shards.get shard).push text) shard.isLt
  total := t.total + 1

/-- The symbol of a text, which is stored unless it is there.  A text that the caller keeps and one that it gives
away are stored in the same way. -/
def intern (spread : Spread) (t : Table) (text : String) : Except ShardFull (Symbol × Table) :=
  let shard := shardFor spread text
  let s := t.shards.get shard
  match s.ids[text]? with
  | some i => .ok (.pack shard i, t)
  | none =>
    let count := s.texts.size
    if count ≤ maxIndex then .ok (.pack shard count, t.store shard text)
    else .error ⟨shard, count⟩

/-- Store a text whose symbol is not needed; a full shard stays as it is. -/
def add (spread : Spread) (t : Table) (text : String) : Table :=
  match t.intern spread text with
  | .ok (_, t) => t
  | .error _ => t

/-- The text of a symbol that was issued. -/
def textOf? (t : Table) (s : Symbol) : Option String :=
  t.shards[s.shard]?.bind fun shard ↦ shard.texts[s.index]?

/-- Number of texts, with the empty one. -/
def size (t : Table) : Nat := t.total

/-- Whether there is nothing beside the empty text. -/
def isEmpty (t : Table) : Bool := t.size ≤ 1

end Table

/-- Names that every table starts with. -/
def coreNames : List String := [
  "Object", "None", "Boolean", "Integer", "Real", "String", "Symbol", "List", "Closure", "Class",
  "InvokedCoroutine",
  "!", "!!",
  "add", "subtract", "multiply", "divide", "remainder", "equals", "not_equals", "less",
  "less_or_equal", "greater", "greater_or_equal", "negated", "not",
  "_wait", "_wait_until", "_wait_event", "_wait_for", "branch", "sync", "race", "any"]

/-- A new table, which holds the core names. -/
def Table.new (spread : Spread) : Table := coreNames.foldl (Table.add spread) .bare

end Symbol

end MindScript
