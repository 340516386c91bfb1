import MindScript.Decimal.Binary64

/-!
# The fewest digits that read back

The decimal text of a double has as few digits as possible such that the double is still the nearest one
to it.  For one digit, two digits and so on, the two neighbours of the value on the decimal grid of that
many digits are tested against the interval of reals that round to the double; the first grid with a hit
wins, of two hits the nearer, and of two equally near ones the upper.  All comparisons are exact.
-/

namespace MindScript.Decimal

/-- The number `digits * 10 ^ exponent`. -/
structure Scientific where
  digits : Nat
  exponent : Int
  deriving DecidableEq, Repr, Inhabited

namespace Scientific

/-- Drop trailing zeros, at most so many of them. -/
def trimWithin : Nat → Nat → Int → Scientific
  | 0, d, e => ⟨d, e⟩
  | n + 1, d, e => if d ≠ 0 ∧ d % 10 = 0 then trimWithin n (d / 10) (e + 1) else ⟨d, e⟩

def trim (s : Scientific) : Scientific := trimWithin 20 s.digits s.exponent

/-- Power of ten of the leading digit. -/
def leading (s : Scientific) : Int := s.exponent + (Nat.toDigits 10 s.digits).length - 1

end Scientific

/-- An integer times a power of two as an integer, on the scale on which `10 ^ unit` is `gridUnit`. -/
def scaleBinary (a : Nat) (exponent unit : Int) : Nat :=
  a * Nat.pow 2 exponent.toNat * Nat.pow 10 (-unit).toNat

/-- An integer times `10 ^ unit` on the same scale. -/
def scaleDecimal (c : Nat) (exponent unit : Int) : Nat :=
  c * Nat.pow 10 unit.toNat * Nat.pow 2 (-exponent).toNat

/-- The least power of ten above the value, searched upwards. -/
def powerAbove (m : Nat) (q : Int) : Nat → Int → Int
  | 0, k => k
  | n + 1, k => if scaleBinary m q k < scaleDecimal 1 q k then k else powerAbove m q n (k + 1)

/-- A point of the grid of unit `10 ^ unit` that rounds to the value, if one of the two neighbours does.
Bounds and value are given in quarters of the last binary place. -/
def gridPoint (low value high : Nat) (exponent unit : Int) (inclusive : Bool) : Option Nat :=
  let scaled := scaleBinary value exponent unit
  let one := scaleDecimal 1 exponent unit
  let below := scaled / one
  let inside c :=
    let x := scaleDecimal c exponent unit
    let lo := scaleBinary low exponent unit
    let hi := scaleBinary high exponent unit
    if inclusive then lo ≤ x && x ≤ hi else lo < x && x < hi
  let down := scaled - below * one
  let up := (below + 1) * one - scaled
  match inside below, inside (below + 1) with
  | true, true => some (if down < up then below else below + 1)
  | true, false => some below
  | false, true => some (below + 1)
  | false, false => none

/-- The first grid with a hit, from the given number of digits on. -/
def firstGrid (low value high : Nat) (exponent above : Int) (inclusive : Bool) :
    Nat → Nat → Scientific
  | 0, n => ⟨value, n⟩
  | fuel + 1, n =>
    let unit := above - n
    match gridPoint low value high exponent unit inclusive with
    | some c => ⟨c, unit⟩
    | none => firstGrid low value high exponent above inclusive fuel (n + 1)

/-- The shortest decimal of a positive double. -/
def shortest (m : Nat) (q : Int) : Scientific :=
  let estimate := ((m.log2 : Int) + q) * 30103 / 100000
  let above := powerAbove m q 4 estimate
  let low := if m = hiddenBit ∧ minExponent < q then 4 * m - 1 else 4 * m - 2
  (firstGrid low (4 * m) (4 * m + 2) (q - 2) above (m % 2 == 0) 17 1).trim

end MindScript.Decimal
