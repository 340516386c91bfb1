import MindScript.Symbol.Table
import Mathlib.Data.Finset.Dedup
import Mathlib.Data.Finset.Card

/-!
# Symbols stand for texts

A shard finds each of its texts at the one position where it is.  So a text that is interned again gets the symbol that
it got before, and a symbol that was handed out keeps its text whatever is interned later.  Nothing is assumed about the
way in which texts are spread over the shards.
-/

namespace MindScript.Symbol

/-- A symbol is its shard and its position. -/
theorem exists_pack (s : Symbol) : ∃ k i, i < shardSize ∧ s = pack k i := by
  have hraw : s.raw.toNat < 4294967296 := s.raw.toNat_lt
  have hshard : s.shard < shardCount := by
    simp only [Symbol.shard, shardSize, shardCount]
    omega
  have hindex : s.index < shardSize := Nat.mod_lt _ (by decide)
  refine ⟨⟨s.shard, hshard⟩, s.index, hindex, ?_⟩
  have hsame : (pack ⟨s.shard, hshard⟩ s.index).raw = s.raw := by
    rw [← UInt32.toNat_inj, toNat_raw_pack _ hindex]
    exact Nat.div_add_mod' ..
  cases s
  exact (congrArg Symbol.mk hsame).symm

theorem pack_inj {k l : Fin shardCount} {i j : Nat} (hi : i < shardSize) (hj : j < shardSize) :
    pack k i = pack l j ↔ k = l ∧ i = j := by
  refine ⟨fun h ↦ ⟨Fin.ext ?_, ?_⟩, fun h ↦ by rw [h.1, h.2]⟩
  · rw [← shard_pack k hi, h, shard_pack l hj]
  · rw [← index_pack k hi, h, index_pack l hj]

/-! ### Shards -/

/-- The positions of the texts are known, and there are no more texts than positions. -/
structure Shard.Sound (s : Shard) : Prop where
  ids : ∀ (x : String) (i : Nat), s.ids[x]? = some i ↔ s.texts[i]? = some x
  size_le : s.texts.size ≤ shardSize

namespace Shard

variable {s : Shard} {x : String}

theorem sound_empty : Sound {} := ⟨fun x i ↦ by simp, Nat.zero_le _⟩

theorem Sound.ne_of_ids (h : s.Sound) (hnew : s.ids[x]? = none) (i : Nat) : s.texts[i]? ≠ some x := by
  intro hi
  rw [(h.ids x i).mpr hi] at hnew
  cases hnew

theorem Sound.push (h : s.Sound) (hnew : s.ids[x]? = none) (hlt : s.texts.size < shardSize) : (s.push x).Sound := by
  refine ⟨fun y i ↦ ?_, ?_⟩
  · rw [Shard.push, Std.HashMap.getElem?_insert, Array.getElem?_push]
    by_cases hi : i = s.texts.size
    · have hfree : ∀ y, s.ids[y]? ≠ some s.texts.size := fun y hy ↦ by simpa using (h.ids y _).mp hy
      subst hi
      by_cases hxy : x = y
      · simp [hxy]
      · simp [hxy, hfree]
    · rw [if_neg hi, ← h.ids]
      by_cases hxy : x = y
      · subst hxy
        simp [hnew, Ne.symm hi]
      · simp [hxy]
  · rw [Shard.push, Array.size_push]
    exact hlt

end Shard

/-! ### Tables -/

namespace Table

/-- Each shard is sound and holds texts of its own only. -/
structure Sound (spread : Spread) (t : Table) : Prop where
  shard : ∀ k, (t.shards.get k).Sound
  placed : ∀ (k : Fin shardCount) (i : Nat) (x : String), (t.shards.get k).texts[i]? = some x → shardFor spread x = k

variable {spread : Spread} {t : Table} {x y : String} {k l : Fin shardCount} {i : Nat}

theorem textOf?_pack (hi : i < shardSize) : t.textOf? (.pack k i) = (t.shards.get k).texts[i]? := by
  have hshard : t.shards[(pack k i).shard]? = some (t.shards.get k) := by
    rw [shard_pack k hi, Vector.getElem?_eq_getElem k.isLt]
    rfl
  rw [textOf?, hshard, Option.bind_some, index_pack k hi]

theorem get_store : (t.store k x).shards.get l = if l = k then (t.shards.get k).push x else t.shards.get l := by
  have hget : ∀ (v : Vector Shard shardCount) (j : Fin shardCount), v.get j = v[j.val] := fun _ _ ↦ rfl
  rw [store, hget, Vector.getElem_set]
  simp only [Fin.ext_iff, eq_comm (a := k.val), hget]

/-- What is in a table that has got one more text. -/
theorem texts_store : ((t.store k x).shards.get l).texts[i]? = some y ↔
    (t.shards.get l).texts[i]? = some y ∨ l = k ∧ i = (t.shards.get k).texts.size ∧ y = x := by
  rw [get_store]
  split
  · next h =>
    subst h
    rw [Shard.push, Array.getElem?_push]
    split
    · next hi =>
      subst hi
      simp [eq_comm]
    · next hi => simp [hi]
  · next h => simp [h]

theorem Sound.store (h : t.Sound spread) (hnew : (t.shards.get (shardFor spread x)).ids[x]? = none)
    (hlt : (t.shards.get (shardFor spread x)).texts.size < shardSize) : (t.store (shardFor spread x) x).Sound spread := by
  refine ⟨fun k ↦ ?_, fun k i y hy ↦ ?_⟩
  · rw [get_store]
    split
    · exact (h.shard _).push hnew hlt
    · exact h.shard k
  · rcases texts_store.mp hy with hold | ⟨rfl, -, rfl⟩
    · exact h.placed k i y hold
    · rfl

/-- A text is found, or stored, or refused because its shard is full. -/
theorem intern_cases (spread : Spread) (t : Table) (x : String) :
    (∃ i, (t.shards.get (shardFor spread x)).ids[x]? = some i ∧
      t.intern spread x = .ok (.pack (shardFor spread x) i, t)) ∨
    (t.shards.get (shardFor spread x)).ids[x]? = none ∧
      ((t.shards.get (shardFor spread x)).texts.size < shardSize ∧ t.intern spread x =
        .ok (.pack (shardFor spread x) (t.shards.get (shardFor spread x)).texts.size, t.store (shardFor spread x) x) ∨
      shardSize ≤ (t.shards.get (shardFor spread x)).texts.size ∧
        t.intern spread x = .error ⟨shardFor spread x, (t.shards.get (shardFor spread x)).texts.size⟩) := by
  cases hid : (t.shards.get (shardFor spread x)).ids[x]? with
  | some i => exact .inl ⟨i, rfl, by simp only [intern, hid]⟩
  | none =>
    refine .inr ⟨rfl, ?_⟩
    rcases lt_or_ge (t.shards.get (shardFor spread x)).texts.size shardSize with hlt | hge
    · have hfree : (t.shards.get (shardFor spread x)).texts.size ≤ maxIndex := Nat.le_pred_of_lt hlt
      refine .inl ⟨hlt, ?_⟩
      simp only [intern, hid]
      rw [if_pos hfree]
    · have hfull : ¬ (t.shards.get (shardFor spread x)).texts.size ≤ maxIndex := by
        simp only [maxIndex, shardSize] at *
        omega
      refine .inr ⟨hge, ?_⟩
      simp only [intern, hid]
      rw [if_neg hfull]

end Table

/-! ### What a table has handed out -/

/-- A table, with the texts that it was asked for and the symbols that it gave for them. -/
structure Issue where
  table : Table
  given : List (String × Symbol)

namespace Issue

/-- The empty text has its symbol from the start. -/
def opened : Issue := ⟨.bare, [("", .empty)]⟩

/-- Intern a text and note its symbol, unless the text is refused. -/
def serve (spread : Spread) (d : Issue) (x : String) : Issue :=
  match d.table.intern spread x with
  | .ok (s, table) => ⟨table, d.given ++ [(x, s)]⟩
  | .error _ => d

/-- A new table after some texts have been interned. -/
def after (spread : Spread) (texts : List String) : Issue := (coreNames ++ texts).foldl (serve spread) opened

variable {spread : Spread} {d : Issue} {x y : String} {s s' : Symbol}

theorem table_serve (d : Issue) (x : String) : (d.serve spread x).table = d.table.add spread x := by
  unfold serve Table.add
  rcases d.table.intern spread x with _ | ⟨s, table⟩ <;> rfl

theorem table_foldl (d : Issue) (texts : List String) :
    (texts.foldl (serve spread) d).table = texts.foldl (Table.add spread) d.table := by
  induction texts generalizing d with
  | nil => rfl
  | cons x rest ih => rw [List.foldl_cons, List.foldl_cons, ih, table_serve]

theorem table_after (texts : List String) :
    (after spread texts).table = texts.foldl (Table.add spread) (Table.new spread) := by
  rw [after, table_foldl, List.foldl_append]
  rfl

/-- A text was given the symbol of the position where it is. -/
structure Fair (spread : Spread) (d : Issue) : Prop where
  sound : d.table.Sound spread
  given : ∀ x s, (x, s) ∈ d.given ↔
    ∃ i : Nat, (d.table.shards.get (shardFor spread x)).texts[i]? = some x ∧ s = .pack (shardFor spread x) i
  total : d.table.total = (d.given.map Prod.fst).toFinset.card

namespace Fair

theorem lt (h : d.Fair spread) {k : Fin shardCount} {i : Nat} (hx : (d.table.shards.get k).texts[i]? = some x) :
    i < shardSize :=
  Nat.lt_of_lt_of_le (Array.getElem?_eq_some_iff.mp hx).1 (h.sound.shard k).size_le

theorem mem_texts (h : d.Fair spread) :
    x ∈ d.given.map Prod.fst ↔ ∃ i : Nat, (d.table.shards.get (shardFor spread x)).texts[i]? = some x := by
  constructor
  · intro hx
    obtain ⟨⟨_, s⟩, hmem, rfl⟩ := List.mem_map.mp hx
    obtain ⟨i, hi, -⟩ := (h.given _ s).mp hmem
    exact ⟨i, hi⟩
  · rintro ⟨i, hi⟩
    exact List.mem_map_of_mem ((h.given x _).mpr ⟨i, hi, rfl⟩)

theorem opened : Issue.opened.Fair spread := by
  let blank : Table := ⟨.replicate shardCount {}, 0⟩
  have hblank : ∀ k, blank.shards.get k = {} := fun k ↦ Vector.getElem_replicate k.isLt
  have hbare : Table.bare = blank.store (shardFor spread "") "" := rfl
  have htexts : ∀ {k : Fin shardCount} {i : Nat} {x : String},
      (Table.bare.shards.get k).texts[i]? = some x ↔ k = shardFor spread "" ∧ i = 0 ∧ x = "" := by
    intro k i x
    rw [hbare, Table.texts_store, hblank, hblank]
    simp
  have hsound : blank.Sound spread :=
    ⟨fun k ↦ (hblank k).symm ▸ Shard.sound_empty, fun k i x hx ↦ by rw [hblank k] at hx; simp at hx⟩
  have hempty : Symbol.empty = pack (shardFor spread "") 0 := by
    rw [show shardFor spread "" = ⟨0, by decide⟩ from rfl]
    decide
  refine ⟨?_, fun x s ↦ ?_, rfl⟩
  · rw [Issue.opened, hbare]
    exact hsound.store (by rw [hblank]; simp) (by rw [hblank]; exact Nat.zero_lt_succ _)
  · rw [Issue.opened, List.mem_singleton]
    simp only [htexts]
    constructor
    · intro heq
      obtain ⟨rfl, rfl⟩ := Prod.mk.inj heq
      exact ⟨0, ⟨rfl, rfl, rfl⟩, hempty⟩
    · rintro ⟨_, ⟨-, rfl, rfl⟩, rfl⟩
      rw [hempty]

theorem serve (h : d.Fair spread) (x : String) : (d.serve spread x).Fair spread := by
  rcases d.table.intern_cases spread x with ⟨i, hid, hfound⟩ | ⟨hnew, ⟨hlt, hstored⟩ | ⟨-, hrefused⟩⟩
  · have hi := ((h.sound.shard _).ids x i).mp hid
    have hmem : (x, pack (shardFor spread x) i) ∈ d.given := (h.given x _).mpr ⟨i, hi, rfl⟩
    simp only [Issue.serve, hfound]
    refine ⟨h.sound, fun y s ↦ ?_, ?_⟩
    · rw [List.mem_append, List.mem_singleton, ← h.given, or_iff_left_of_imp]
      rintro ⟨⟩
      exact hmem
    · rw [List.map_append, List.toFinset_append, Finset.union_eq_left.mpr, h.total]
      simpa using ⟨_, hmem⟩
  · simp only [Issue.serve, hstored]
    have hout := (h.sound.shard _).ne_of_ids hnew
    refine ⟨h.sound.store hnew hlt, fun y s ↦ ?_, ?_⟩
    · rw [List.mem_append, List.mem_singleton, h.given]
      simp only [Table.texts_store]
      constructor
      · rintro (⟨i, hi, rfl⟩ | heq)
        · exact ⟨i, .inl hi, rfl⟩
        · obtain ⟨rfl, rfl⟩ := Prod.mk.inj heq
          exact ⟨_, .inr ⟨rfl, rfl, rfl⟩, rfl⟩
      · rintro ⟨i, hi | ⟨-, rfl, rfl⟩, rfl⟩
        · exact .inl ⟨i, hi, rfl⟩
        · exact .inr rfl
    · have hx : x ∉ (d.given.map Prod.fst).toFinset := by
        rw [List.mem_toFinset, h.mem_texts]
        exact fun ⟨i, hi⟩ ↦ hout i hi
      rw [List.map_append, List.toFinset_append, List.map_singleton, Finset.union_comm]
      change d.table.total + 1 = (insert x (d.given.map Prod.fst).toFinset).card
      rw [Finset.card_insert_of_notMem hx, h.total]
  · simpa only [Issue.serve, hrefused] using h

theorem foldl (h : d.Fair spread) (texts : List String) : (texts.foldl (Issue.serve spread) d).Fair spread := by
  induction texts generalizing d with
  | nil => exact h
  | cons x rest ih => exact ih (h.serve x)

/-- No shard holds more texts than there are. -/
theorem size_le_total (h : d.Fair spread) (k : Fin shardCount) :
    (d.table.shards.get k).texts.size ≤ d.table.total := by
  have honce : (d.table.shards.get k).texts.toList.Nodup := by
    rw [List.nodup_iff_getElem?_ne_getElem?]
    intro i j hij hj heq
    have hx := List.getElem?_eq_getElem hj
    simp only [Array.getElem?_toList] at heq hx
    have hid := ((h.sound.shard k).ids _ j).mpr hx
    rw [((h.sound.shard k).ids _ i).mpr (heq.trans hx)] at hid
    exact Nat.ne_of_lt hij (Option.some.inj hid)
  have hgiven : (d.table.shards.get k).texts.toList.toFinset ⊆ (d.given.map Prod.fst).toFinset := by
    intro x hx
    obtain ⟨i, hi⟩ := List.mem_iff_getElem?.mp (List.mem_toFinset.mp hx)
    rw [Array.getElem?_toList] at hi
    rw [List.mem_toFinset, h.mem_texts]
    obtain rfl := h.sound.placed k i x hi
    exact ⟨i, hi⟩
  calc
    (d.table.shards.get k).texts.size = (d.table.shards.get k).texts.toList.toFinset.card := by
      rw [List.toFinset_card_of_nodup honce, Array.length_toList]
    _ ≤ (d.given.map Prod.fst).toFinset.card := Finset.card_le_card hgiven
    _ = d.table.total := h.total.symm

/-- As long as there are fewer texts than a shard has positions, nothing is refused. -/
theorem mem_serve (h : d.Fair spread) (hlt : d.table.total < shardSize) (x : String) :
    x ∈ (d.serve spread x).given.map Prod.fst ∧ (d.serve spread x).table.total ≤ d.table.total + 1 := by
  rcases d.table.intern_cases spread x with ⟨i, -, hfound⟩ | ⟨-, ⟨-, hstored⟩ | ⟨hfull, -⟩⟩
  · simp [Issue.serve, hfound]
  · simp [Issue.serve, hstored, Table.store]
  · exact absurd (hlt.trans_le hfull) (Nat.not_lt_of_le (h.size_le_total _))

end Fair

theorem given_serve (d : Issue) (x : String) : d.given <+: (d.serve spread x).given := by
  unfold serve
  split
  · exact List.prefix_append ..
  · exact List.prefix_rfl

theorem given_foldl (d : Issue) (texts : List String) : d.given <+: (texts.foldl (serve spread) d).given := by
  induction texts generalizing d with
  | nil => exact List.prefix_rfl
  | cons x rest ih => exact (d.given_serve x).trans (ih _)

theorem mem_foldl (h : d.Fair spread) {texts : List String} (hlt : d.table.total + texts.length ≤ shardSize)
    (hx : x ∈ texts) : x ∈ (texts.foldl (serve spread) d).given.map Prod.fst := by
  induction texts generalizing d with
  | nil => cases hx
  | cons y rest ih =>
    rw [List.length_cons] at hlt
    obtain ⟨hy, htotal⟩ := h.mem_serve (Nat.lt_of_lt_of_le (by omega) hlt) y
    rcases List.mem_cons.mp hx with rfl | hrest
    · exact ((given_foldl _ rest).map Prod.fst).subset hy
    · exact ih (h.serve y) (by omega) hrest

end Issue

namespace Issue.Fair

variable {spread : Spread} {d : Issue} {x y : String} {s s' : Symbol}

theorem after (spread : Spread) (texts : List String) : (Issue.after spread texts).Fair spread :=
  opened.foldl _

theorem symbol_eq_iff (h : d.Fair spread) (hx : (x, s) ∈ d.given) (hy : (y, s') ∈ d.given) : s = s' ↔ x = y := by
  obtain ⟨i, hi, rfl⟩ := (h.given x s).mp hx
  obtain ⟨j, hj, rfl⟩ := (h.given y s').mp hy
  constructor
  · intro heq
    obtain ⟨hshard, rfl⟩ := (pack_inj (h.lt hi) (h.lt hj)).mp heq
    rw [hshard] at hi
    exact Option.some.inj (hi.symm.trans hj)
  · rintro rfl
    have hid := ((h.sound.shard _).ids x i).mpr hi
    rw [((h.sound.shard _).ids x j).mpr hj] at hid
    rw [Option.some.inj hid]

/-- The table knows the text of a symbol if and only if the symbol was handed out for that text. -/
theorem textOf?_eq_some_iff (h : d.Fair spread) : d.table.textOf? s = some x ↔ (x, s) ∈ d.given := by
  obtain ⟨k, i, hi, rfl⟩ := exists_pack s
  rw [Table.textOf?_pack hi, h.given]
  constructor
  · intro hx
    obtain rfl := h.sound.placed k i x hx
    exact ⟨i, hx, rfl⟩
  · rintro ⟨j, hj, heq⟩
    obtain ⟨rfl, rfl⟩ := (pack_inj hi (h.lt hj)).mp heq
    exact hj

theorem refused_iff (h : d.Fair spread) (x : String) (e : ShardFull) : d.table.intern spread x = .error e ↔
    x ∉ d.given.map Prod.fst ∧ (d.table.shards.get (shardFor spread x)).texts.size = shardSize ∧
      e = ⟨shardFor spread x, shardSize⟩ := by
  rw [h.mem_texts, not_exists]
  rcases d.table.intern_cases spread x with ⟨i, hid, hfound⟩ | ⟨hnew, ⟨hlt, hstored⟩ | ⟨hfull, hrefused⟩⟩
  · simp only [hfound, reduceCtorEq, false_iff, not_and]
    exact fun hout ↦ absurd (((h.sound.shard _).ids x i).mp hid) (hout i)
  · simp only [hstored, reduceCtorEq, false_iff, not_and]
    exact fun _ hsize ↦ absurd hsize (Nat.ne_of_lt hlt)
  · have hsize := Nat.le_antisymm (h.sound.shard _).size_le hfull
    have hout := (h.sound.shard _).ne_of_ids hnew
    rw [hrefused, hsize, Except.error.injEq]
    exact ⟨fun he ↦ ⟨hout, rfl, he.symm⟩, fun he ↦ he.2.2.symm⟩

end Issue.Fair

/-- Whatever a new table is asked for, different texts have different symbols, and a text has one symbol, which stands
for it from then on.  A symbol that was not handed out stands for nothing.  A text is refused exactly if it is new and
its shard has no free position, and nothing changes then. -/
theorem symbols_stand_for_texts (spread : Spread) (texts : List String) :
    let d := Issue.after spread texts
    d.table = texts.foldl (Table.add spread) (Table.new spread) ∧
      (∀ later, d.given <+: (Issue.after spread (texts ++ later)).given) ∧
      (∀ x y s s', (x, s) ∈ d.given → (y, s') ∈ d.given → (s = s' ↔ x = y)) ∧
      (∀ x s, (x, s) ∈ d.given → d.table.textOf? s = some x ∧
        ∃ i < shardSize, s = .pack (shardFor spread x) i ∧ s.shard = shardFor spread x ∧ s.index = i ∧
          (d.table.shards.get (shardFor spread x)).texts[i]? = some x) ∧
      (∀ s, ("", s) ∈ d.given ↔ s = .empty) ∧
      (∀ s, (∀ x, (x, s) ∉ d.given) → d.table.textOf? s = none) ∧
      d.table.size = (d.given.map Prod.fst).toFinset.card ∧
      (∀ x, x ∈ d.given.map Prod.fst ↔ ∃ s, d.table.textOf? s = some x) ∧
      (∀ x ∈ "" :: coreNames, x ∈ d.given.map Prod.fst) ∧
      (∀ x e, d.table.intern spread x = .error e ↔ x ∉ d.given.map Prod.fst ∧
        (d.table.shards.get (shardFor spread x)).texts.size = shardSize ∧ e = ⟨shardFor spread x, shardSize⟩) ∧
      ∀ x, match d.table.intern spread x with
        | .ok (s, table) => Issue.after spread (texts ++ [x]) = ⟨table, d.given ++ [(x, s)]⟩
        | .error _ => Issue.after spread (texts ++ [x]) = d := by
  intro d
  have h : d.Fair spread := .after spread texts
  have hlater : ∀ later, Issue.after spread (texts ++ later) = later.foldl (Issue.serve spread) d := fun later ↦ by
    rw [Issue.after, ← List.append_assoc, List.foldl_append]
    rfl
  have hempty : ("", Symbol.empty) ∈ d.given :=
    (Issue.given_foldl .opened (coreNames ++ texts)).subset (List.mem_singleton_self _)
  refine ⟨Issue.table_after texts, fun later ↦ ?_, fun x y s s' ↦ h.symbol_eq_iff, fun x s hx ↦ ?_, fun s ↦ ?_,
    fun s hs ↦ ?_, h.total, fun x ↦ ?_, fun x hx ↦ ?_, h.refused_iff, fun x ↦ ?_⟩
  · rw [hlater]
    exact Issue.given_foldl d later
  · refine ⟨h.textOf?_eq_some_iff.mpr hx, ?_⟩
    obtain ⟨i, hi, rfl⟩ := (h.given x s).mp hx
    exact ⟨i, h.lt hi, rfl, shard_pack _ (h.lt hi), index_pack _ (h.lt hi), hi⟩
  · exact ⟨fun hs ↦ (h.symbol_eq_iff hs hempty).mpr rfl, fun hs ↦ hs ▸ hempty⟩
  · rw [Option.eq_none_iff_forall_ne_some]
    exact fun x hx ↦ hs x (h.textOf?_eq_some_iff.mp hx)
  · simp only [h.textOf?_eq_some_iff, List.mem_map, Prod.exists, exists_and_right, exists_eq_right]
  · rcases List.mem_cons.mp hx with rfl | hcore
    · exact List.mem_map_of_mem hempty
    · have hnew : x ∈ (coreNames.foldl (Issue.serve spread) .opened).given.map Prod.fst :=
        Issue.mem_foldl .opened (by decide) hcore
      have hgiven : (coreNames.foldl (Issue.serve spread) .opened).given <+: d.given := by
        rw [show d.given = _ from congrArg Issue.given List.foldl_append]
        exact Issue.given_foldl _ texts
      exact (hgiven.map Prod.fst).subset hnew
  · have hnext := hlater [x]
    rw [List.foldl_cons, List.foldl_nil, Issue.serve] at hnext
    split
    · next s table hok => rw [hnext, hok]
    · next e herror => rw [hnext, herror]

end MindScript.Symbol
