/-!
# Reading numbers

The numbers that a command line or an environment variable may hold: ASCII digits with an optional sign,
nothing around them.  A real may have a point and an exponent, or be one of the words for infinity and
not-a-number in any case.
-/

namespace MindScript.Decimal

def isDigit (c : Char) : Bool := '0' ≤ c && c ≤ '9'

def valueOf (digits : List Char) : Nat :=
  digits.foldl (fun n c ↦ 10 * n + (c.toNat - '0'.toNat)) 0

/-- A non-empty run of digits. -/
def readDigits (cs : List Char) : Option Nat :=
  if cs.isEmpty || !cs.all isDigit then none else some (valueOf cs)

/-- A natural number up to a bound; a plus sign is accepted. -/
def readNat (bound : Nat) (s : String) : Option Nat :=
  let digits := match s.toList with
    | '+' :: rest => rest
    | cs => cs
  (readDigits digits).filter (· ≤ bound)

/-- One more than the largest 64-bit integer; its negation is the least one. -/
def int64Bound : Nat := 9223372036854775808

/-- A 64-bit integer. -/
def readInt64 (s : String) : Option Int64 :=
  match s.toList with
  | '-' :: rest => (readDigits rest).bind fun n ↦
      if n ≤ int64Bound then some (Int64.ofInt (-n)) else none
  | '+' :: rest => (readDigits rest).bind fun n ↦ if n < int64Bound then some (Int64.ofNat n) else none
  | cs => (readDigits cs).bind fun n ↦ if n < int64Bound then some (Int64.ofNat n) else none

/-- An exponent after `e`: a sign and digits. -/
def readExponent : List Char → Option Int
  | [] => some 0
  | c :: rest =>
    if c == 'e' || c == 'E' then
      match rest with
      | '-' :: ds => (readDigits ds).map fun n ↦ -(n : Int)
      | '+' :: ds => (readDigits ds).map Int.ofNat
      | ds => (readDigits ds).map Int.ofNat
    else none

/-- The double nearest to `mantissa * 10 ^ exponent`.  Beyond the range of doubles the exponent no longer
matters. -/
def nearest (mantissa : Nat) (exponent : Int) (digitCount : Nat) : Float :=
  if mantissa = 0 ∨ exponent + digitCount < -400 then 0
  else if 400 < exponent then 1 / 0
  else Float.ofScientific mantissa (exponent < 0) exponent.natAbs

/-- A real number without its sign. -/
def readMagnitude (cs : List Char) : Option Float :=
  let word := String.ofList (cs.map Char.toLower)
  if word == "inf" || word == "infinity" then some (1 / 0)
  else if word == "nan" then some (0 / 0)
  else
    let whole := cs.takeWhile isDigit
    let rest := cs.dropWhile isDigit
    let (fraction, rest) := match rest with
      | '.' :: tail => (tail.takeWhile isDigit, tail.dropWhile isDigit)
      | _ => ([], rest)
    if whole.isEmpty && fraction.isEmpty then none
    else (readExponent rest).map fun e ↦
      let ds := whole ++ fraction
      nearest (valueOf ds) (e - fraction.length) ds.length

def readReal (s : String) : Option Float :=
  match s.toList with
  | '-' :: rest => (readMagnitude rest).map fun x ↦ -x
  | '+' :: rest => readMagnitude rest
  | cs => readMagnitude cs

end MindScript.Decimal
