import MindScript.Decimal.Shortest

/-!
# Decimal text of doubles

Three formats.  `plain` is always positional and writes no needless point.  `literal` shows that the
number is a real: a whole number ends in `.0`, and very large and very small numbers are written with an
exponent.  `fixed` has a given number of places.
-/

namespace MindScript.Decimal

/-- Digits of a natural number. -/
def digits (n : Nat) : String := String.ofList (Nat.toDigits 10 n)

def zeros (n : Nat) : String := String.ofList (List.replicate n '0')

/-- Positional text of a number; `point` is written after a whole number. -/
def positional (s : Scientific) (point : String) : String :=
  let ds := digits s.digits
  if 0 ≤ s.exponent then ds ++ zeros s.exponent.toNat ++ point
  else
    let places := (-s.exponent).toNat
    if ds.length ≤ places then "0." ++ zeros (places - ds.length) ++ ds
    else String.ofList (ds.toList.take (ds.length - places)) ++ "."
      ++ String.ofList (ds.toList.drop (ds.length - places))

/-- Text with one digit before the point and a power of ten. -/
def exponential (s : Scientific) : String :=
  let e := "e" ++ toString s.leading
  match (digits s.digits).toList with
  | [] => e
  | [d] => String.ofList [d] ++ e
  | d :: rest => String.ofList (d :: '.' :: rest) ++ e

/-- Text of a double, given that of its magnitude. -/
def signed (x : Float) (magnitude : Scientific → String) : String :=
  match classify x with
  | .nan => "NaN"
  | .infinite negative => if negative then "-inf" else "inf"
  | .finite b =>
    let text := magnitude (if b.mantissa = 0 then ⟨0, 0⟩ else shortest b.mantissa b.exponent)
    if b.negative then "-" ++ text else text

/-- Always positional, without a point after a whole number. -/
def plain (x : Float) : String := signed x fun s ↦ positional s ""

/-- Positional from `10 ^ -4` up to `10 ^ 16`, otherwise with an exponent; a whole number ends in
`.0`. -/
def literal (x : Float) : String := signed x fun s ↦
  if s.digits = 0 ∨ (-4 ≤ s.leading ∧ s.leading < 16) then positional s ".0" else exponential s

/-- A quotient rounded to the nearest integer, a half to the even neighbour. -/
def roundHalfEven (num den : Nat) : Nat :=
  let q := num / den
  let twice := 2 * (num % den)
  if twice < den then q else if den < twice then q + 1 else if q % 2 = 0 then q else q + 1

/-- A given number of places, rounded from the exact value. -/
def fixed (x : Float) (places : Nat) : String :=
  match classify x with
  | .nan => "NaN"
  | .infinite negative => if negative then "-inf" else "inf"
  | .finite b =>
    let scaled := b.mantissa * Nat.pow 2 b.exponent.toNat * Nat.pow 10 places
    let n := roundHalfEven scaled (Nat.pow 2 (-b.exponent).toNat)
    let ds := digits n
    let ds := zeros (places + 1 - ds.length) ++ ds
    let whole := String.ofList (ds.toList.take (ds.length - places))
    let text := if places = 0 then whole
      else whole ++ "." ++ String.ofList (ds.toList.drop (ds.length - places))
    if b.negative then "-" ++ text else text

end MindScript.Decimal
