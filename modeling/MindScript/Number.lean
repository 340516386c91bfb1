import MindScript.Decimal.Binary64
import MindScript.Error
import MindScript.Native.Core

/-!
# Arithmetic of the language

Integers have 64 bits and an operation whose exact result does not fit is an error.  Reals are doubles;
their remainder is exact and has the sign of the dividend.
-/

namespace MindScript

namespace Integer

def least : Int := -9223372036854775808

def greatest : Int := 9223372036854775807

/-- An exact result, if it fits. -/
def ofInt? (x : Int) : Option Int64 :=
  if least ≤ x ∧ x ≤ greatest then some (Int64.ofInt x) else none

end Integer

namespace Arithmetic

def name : Arithmetic → String
  | add => "addition"
  | sub => "subtraction"
  | mul => "multiplication"
  | div => "division"
  | rem => "remainder"

/-- The exact result on integers; quotients are truncated towards zero. -/
def exact : Arithmetic → Int → Int → Int
  | add, a, b => a + b
  | sub, a, b => a - b
  | mul, a, b => a * b
  | div, a, b => a.tdiv b
  | rem, a, b => a.tmod b

/-- Whether the operation can be carried out: the result must fit, and for a remainder so must the
quotient that it belongs to. -/
def fits (op : Arithmetic) (a b : Int) : Bool :=
  let value := if op = rem then a.tdiv b else op.exact a b
  Integer.least ≤ value && value ≤ Integer.greatest

def overflow (op : Arithmetic) : EvalError := .custom ("integer overflow in " ++ op.name)

def integers (op : Arithmetic) (a b : Int64) : Except EvalError Int64 :=
  if (op = div || op = rem) && b == 0 then .error (.ofKind .divisionByZero)
  else if op.fits a.toInt b.toInt then .ok (Int64.ofInt (op.exact a.toInt b.toInt))
  else .error op.overflow

end Arithmetic

namespace Real64

open Decimal

/-- The remainder of finite numbers: both are put on the finer of their two binary scales. -/
def remainderOfFinite (a b : Binary64) : Binary64 :=
  let e := min a.exponent b.exponent
  let x := a.mantissa * Nat.pow 2 (a.exponent - e).toNat
  let y := b.mantissa * Nat.pow 2 (b.exponent - e).toNat
  ⟨a.negative, x % y, e⟩

/-- The remainder of truncated division. -/
def remainder (a b : Float) : Float :=
  match classify a, classify b with
  | .finite x, .finite y => if y.mantissa = 0 then 0 / 0 else (remainderOfFinite x y).toFloat
  | .finite _, .infinite _ => a
  | _, _ => 0 / 0

/-- Drop the fraction. -/
def truncate (x : Float) : Float := if x < 0 then x.ceil else x.floor

/-- The integer of a truncated real, if it fits. -/
def toInteger? (x : Float) : Option Int64 :=
  if x.isNaN || x < -9223372036854775808.0 || x ≥ 9223372036854775808.0 then none
  else some x.toInt64

end Real64

def Arithmetic.reals : Arithmetic → Float → Float → Float
  | add, a, b => a + b
  | sub, a, b => a - b
  | mul, a, b => a * b
  | div, a, b => a / b
  | rem, a, b => Real64.remainder a b

/-- Whether a comparison accepts an ordering of its operands; nothing holds of operands that have
none. -/
def Comparison.holds : Comparison → Option Ordering → Bool
  | less, o => o == some .lt
  | lessOrEqual, o => o == some .lt || o == some .eq
  | greater, o => o == some .gt
  | greaterOrEqual, o => o == some .gt || o == some .eq

/-- The ordering of two reals; a NaN has none. -/
def Real64.order (a b : Float) : Option Ordering :=
  if a < b then some .lt else if a == b then some .eq else if a > b then some .gt else none

end MindScript
