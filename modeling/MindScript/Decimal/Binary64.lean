/-!
# Floating-point numbers as integers

A finite double is an integer times a power of two.  Everything that must be exact about a double, its
digits and its remainders, is computed on that form.
-/

namespace MindScript.Decimal

/-- A finite double: the sign, and the magnitude as `mantissa * 2 ^ exponent`. -/
structure Binary64 where
  negative : Bool
  mantissa : Nat
  exponent : Int
  deriving DecidableEq, Repr, Inhabited

/-- What a double can be. -/
inductive FloatClass where
  | nan
  | infinite (negative : Bool)
  | finite (value : Binary64)
  deriving DecidableEq, Repr, Inhabited

/-- The least exponent of a double. -/
def minExponent : Int := -1074

/-- The weight of the bit above the fraction, and so the number of fractions. -/
def hiddenBit : Nat := 4503599627370496

/-- The weight of the sign among the bits of a double. -/
def signBit : Nat := 9223372036854775808

/-- Read a double off its bits. -/
def classify (x : Float) : FloatClass :=
  let bits := x.toBits.toNat
  let negative := bits / signBit == 1
  let biased : Nat := bits / hiddenBit % 2048
  let fraction := bits % hiddenBit
  if biased = 2047 then (if fraction = 0 then .infinite negative else .nan)
  else if biased = 0 then .finite ⟨negative, fraction, minExponent⟩
  else .finite ⟨negative, hiddenBit + fraction, (biased : Int) - 1075⟩

/-- Double the mantissa until it is normal or the exponent is least; neither changes the value. -/
def normalizeWithin : Nat → Nat → Int → Nat × Int
  | 0, m, e => (m, e)
  | n + 1, m, e =>
    if m < hiddenBit ∧ minExponent < e then normalizeWithin n (2 * m) (e - 1) else (m, e)

/-- The double of a value that has one: the mantissa is below `2 ^ 53`. -/
def Binary64.toFloat (b : Binary64) : Float :=
  let (m, e) := normalizeWithin 53 b.mantissa b.exponent
  let sign := if b.negative then signBit else 0
  let magnitude := if m < hiddenBit then m else (e + 1075).toNat * hiddenBit + (m - hiddenBit)
  Float.ofBits (UInt64.ofNat (sign + magnitude))

end MindScript.Decimal
