import MindScript.Proofs.Calls.Builtins
import MindScript.Proofs.Cursors

/-!
# Arithmetic on Integers

An operation on two Integers, or on one, gives the exact number if it has 64 bits.  Otherwise it fails, and so does a
division by zero.  A remainder is refused also where the quotient that belongs to it does not fit, which happens for one
pair of operands.
-/

namespace MindScript

open Machine

/-! ### Exact numbers -/

namespace Integer

/-- The number has 64 bits. -/
def Fits (x : ℤ) : Prop := least ≤ x ∧ x ≤ greatest

instance (x : ℤ) : Decidable (Fits x) := inferInstanceAs (Decidable (_ ∧ _))

theorem fits_toInt (a : Int64) : Fits a.toInt := ⟨a.le_toInt, Int.le_of_lt_add_one a.toInt_lt⟩

theorem toInt_ofInt {x : ℤ} (h : Fits x) : (Int64.ofInt x).toInt = x :=
  Int64.toInt_ofInt_of_le h.1 (Int.lt_add_one_of_le h.2)

theorem ofInt?_of_fits {x : ℤ} (h : Fits x) : ofInt? x = some (Int64.ofInt x) := if_pos h

theorem ofInt?_of_not_fits {x : ℤ} (h : ¬ Fits x) : ofInt? x = none := if_neg h

theorem natAbs_tmod_lt (x : ℤ) {y : ℤ} (hy : y ≠ 0) : (x.tmod y).natAbs < y.natAbs := by
  rw [Int.natAbs_tmod]
  exact Nat.mod_lt _ (Int.natAbs_pos.mpr hy)

/-- A remainder is nearer to zero than its divisor, or is its dividend if that is zero. -/
theorem fits_tmod (a b : Int64) : Fits (a.toInt.tmod b.toInt) := by
  by_cases hb : b.toInt = 0
  · rw [hb, Int.tmod_zero]
    exact fits_toInt a
  · have hnear := natAbs_tmod_lt a.toInt hb
    obtain ⟨hlow, hhigh⟩ := fits_toInt b
    rw [Fits]
    rw [least, greatest] at *
    omega

/-- A quotient fits unless it negates the least number. -/
theorem fits_tdiv_iff {a b : Int64} (hb : b ≠ 0) : Fits (a.toInt.tdiv b.toInt) ↔ ¬ (a = Int64.minValue ∧ b = -1) := by
  constructor
  · rintro hfits ⟨rfl, rfl⟩
    exact absurd hfits (by decide)
  · intro hpair
    by_contra hfits
    -- A quotient is no farther from zero than its dividend, so that both are as far as can be, on different sides.
    have hsmall := Int.natAbs_tdiv_le_natAbs a.toInt b.toInt
    have hdivides := Int.mul_tdiv_add_tmod a.toInt b.toInt
    have hnear := natAbs_tmod_lt a.toInt fun h ↦ hb (Int64.toInt_inj.mp h)
    obtain ⟨halow, hahigh⟩ := fits_toInt a
    obtain ⟨hblow, hbhigh⟩ := fits_toInt b
    rw [Fits] at hfits
    rw [least, greatest] at *
    have hquotient : a.toInt.tdiv b.toInt = 9223372036854775808 := by omega
    have hleast : a.toInt = -9223372036854775808 := by omega
    rw [hquotient] at hdivides
    have hnegates : b.toInt = -1 := by omega
    exact hpair ⟨Int64.toInt_inj.mp hleast, Int64.toInt_inj.mp hnegates⟩

end Integer

/-! ### Operations -/

/-- What is computed from Integers alone. -/
inductive IntegerOperation where
  | arithmetic (op : Arithmetic)
  | negation
  | abs
  deriving DecidableEq

/-- The operator of an expression. -/
def Arithmetic.operator : Arithmetic → BinaryOp
  | add => .add
  | sub => .sub
  | mul => .mul
  | div => .div
  | rem => .rem

namespace IntegerOperation

/-- Name of the method that is called. -/
def name : IntegerOperation → String
  | arithmetic op => op.operator.methodName
  | negation => UnaryOp.neg.methodName
  | abs => "abs"

/-- Name of the operation in an error. -/
def title : IntegerOperation → String
  | arithmetic op => op.name
  | negation => "negation"
  | abs => "abs"

/-- Dispatch the operation on its first operand; the second one is left alone by those that take one operand. -/
def dispatch (E : Engine) : IntegerOperation → Ref → Ref → Machine Ref
  | arithmetic op, x, y => binaryOp E op.operator x y
  | negation, x, _ => unaryOp E .neg x
  | abs, x, _ => callMethod E x "abs" none []

/-- The exact number; quotients are truncated towards zero. -/
def exact : IntegerOperation → ℤ → ℤ → ℤ
  | arithmetic op, a, b => op.exact a b
  | negation, a, _ => -a
  | abs, a, _ => a.natAbs

def Divides (op : IntegerOperation) : Prop := op = arithmetic .div ∨ op = arithmetic .rem

/-- The quotient that belongs to the remainder does not fit, while the remainder does. -/
def RefusesRemainder (op : IntegerOperation) (a b : Int64) : Prop :=
  op = arithmetic .rem ∧ a = Int64.minValue ∧ b = -1

def overflow (op : IntegerOperation) : ErrorKind := .custom ("integer overflow in " ++ op.title)

end IntegerOperation

theorem Arithmetic.fits_iff {op : Arithmetic} {a b : Int64} (hb : op = .div ∨ op = .rem → b ≠ 0) :
    op.fits a.toInt b.toInt = true ↔
      Integer.Fits (op.exact a.toInt b.toInt) ∧ ¬ (op = .rem ∧ a = Int64.minValue ∧ b = -1) := by
  by_cases hop : op = .rem
  · subst hop
    rw [exact, and_iff_right (Integer.fits_tmod a b)]
    simpa [fits, Integer.Fits] using Integer.fits_tdiv_iff (a := a) (hb (.inr rfl))
  · simp [fits, hop, Integer.Fits]

theorem Arithmetic.integers_of_zero {op : Arithmetic} (hop : op = .div ∨ op = .rem) (a : Int64) :
    op.integers a 0 = .error (.ofKind .divisionByZero) := by
  rcases hop with rfl | rfl <;> rfl

theorem Arithmetic.integers_of_ne_zero {op : Arithmetic} {b : Int64} (hb : op = .div ∨ op = .rem → b ≠ 0) (a : Int64) :
    op.integers a b =
      if op.fits a.toInt b.toInt then .ok (Int64.ofInt (op.exact a.toInt b.toInt)) else .error op.overflow := by
  rw [integers, if_neg]
  simpa using hb

/-- An instance is an Integer of that value. -/
structure Heap.IsInteger (h : Heap) (r : Ref) (a : Int64) : Prop where
  classOf : h.classOf r = Core.integer
  payload : h.payload r = .integer a

namespace IntegerOperation

variable {op : IntegerOperation} {w : World} {x y : Ref} {a b : Int64}

def params : IntegerOperation → List String
  | arithmetic _ => ["other"]
  | negation | abs => []

def core : IntegerOperation → CoreMethod
  | arithmetic op => .arithmetic op
  | negation => .integerNegated
  | abs => .integerAbs

theorem provides (op : IntegerOperation) : CoreClass.provides Core.integer op.name op.params op.core = true := by
  cases op with
  | arithmetic op => cases op <;> decide +kernel
  | negation | abs => decide +kernel

def args : IntegerOperation → Ref → List Ref
  | arithmetic _, y => [y]
  | negation, _ | abs, _ => []

theorem dispatch_eq (op : IntegerOperation) (E : Engine) (x y : Ref) :
    op.dispatch E x y = callMethod E x op.name none ((op.args y).map (Prod.mk none)) := by
  cases op <;> rfl

theorem bindNative_args (op : IntegerOperation) (y : Ref) (member : String) :
    bindNative member op.params ((op.args y).map (Prod.mk none)) = pure (op.args y) := by
  cases op <;> rfl

theorem provides_of_isInteger (hclasses : w.classes.Founded op.name) (hx : w.heap.IsInteger x a) :
    w.Provides x op.name op.params op.core := by
  refine ⟨hclasses, ?_, ?_⟩ <;> rw [hx.classOf]
  · rw [CoreClass.size_registry]
    decide
  · exact provides op

end IntegerOperation

namespace Machine

variable {w : World} {x y : Ref} {a b : Int64}

theorem payloadOf_apply (r : Ref) (w : World) : payloadOf r w = (.ok (w.heap.payload r), w) := rfl

theorem arithmetic_of_payload (op : Arithmetic) (hx : w.heap.payload x = .integer a) (hy : w.heap.payload y = .integer b) :
    Machine.arithmetic op x y w = (ofExcept (op.integers a b) >>= integer) w := by
  rw [Machine.arithmetic, bind_of_ok (payloadOf_apply x w), bind_of_ok (payloadOf_apply y w), hx, hy]

theorem exactInteger_of_fits (name : String) {z : ℤ} (hz : Integer.Fits z) :
    exactInteger name z = newValue Core.integer (.integer (Int64.ofInt z)) := by
  rw [exactInteger, Integer.ofInt?_of_fits hz]
  rfl

theorem exactInteger_of_not_fits (name : String) {z : ℤ} (hz : ¬ Integer.Fits z) :
    exactInteger name z = raiseKind (.custom ("integer overflow in " ++ name)) := by
  rw [exactInteger, Integer.ofInt?_of_not_fits hz]
  rfl

end Machine

namespace IntegerOperation

variable {op : IntegerOperation} {E : Engine} {w : World} {x y : Ref} {a b : Int64}

theorem runCore_of_zero (hx : w.heap.payload x = .integer a) (hy : w.heap.payload y = .integer 0) (hop : op.Divides) :
    runCore E op.core x (op.args y) w = raiseKind .divisionByZero w := by
  rcases hop with rfl | rfl
  · exact (arithmetic_of_payload .div hx hy).trans (by rw [Arithmetic.integers_of_zero (.inl rfl)]; rfl)
  · exact (arithmetic_of_payload .rem hx hy).trans (by rw [Arithmetic.integers_of_zero (.inr rfl)]; rfl)

theorem runCore_of_fits (hx : w.heap.payload x = .integer a) (hy : w.heap.payload y = .integer b) (hb : op.Divides → b ≠ 0)
    (hfits : Integer.Fits (op.exact a.toInt b.toInt)) (hquotient : ¬ op.RefusesRemainder a b) :
    runCore E op.core x (op.args y) w =
      newValue Core.integer (.integer (Int64.ofInt (op.exact a.toInt b.toInt))) w := by
  cases op with
  | arithmetic op =>
    have hb' : op = .div ∨ op = .rem → b ≠ 0 := by simpa [Divides] using hb
    refine (arithmetic_of_payload op hx hy).trans ?_
    have hmodel : op.fits a.toInt b.toInt = true :=
      (Arithmetic.fits_iff hb').mpr ⟨hfits, by simpa [RefusesRemainder] using hquotient⟩
    rw [Arithmetic.integers_of_ne_zero hb', if_pos hmodel]
    rfl
  | negation => exact (bind_of_ok (expectInteger_of_payload hx)).trans (congrFun (exactInteger_of_fits "negation" hfits) w)
  | abs => exact (bind_of_ok (expectInteger_of_payload hx)).trans (congrFun (exactInteger_of_fits "abs" hfits) w)

theorem runCore_of_not_fits (hx : w.heap.payload x = .integer a) (hy : w.heap.payload y = .integer b)
    (hb : op.Divides → b ≠ 0) (hfits : ¬ (Integer.Fits (op.exact a.toInt b.toInt) ∧ ¬ op.RefusesRemainder a b)) :
    runCore E op.core x (op.args y) w = raiseKind op.overflow w := by
  cases op with
  | arithmetic op =>
    have hb' : op = .div ∨ op = .rem → b ≠ 0 := by simpa [Divides] using hb
    refine (arithmetic_of_payload op hx hy).trans ?_
    rw [Arithmetic.integers_of_ne_zero hb', if_neg]
    · rfl
    · rw [Arithmetic.fits_iff hb']
      simpa [RefusesRemainder, exact] using hfits
  | negation =>
    have hexact : ¬ Integer.Fits (-a.toInt) := fun h ↦ hfits ⟨h, by simp [RefusesRemainder]⟩
    exact (bind_of_ok (expectInteger_of_payload hx)).trans (congrFun (exactInteger_of_not_fits "negation" hexact) w)
  | abs =>
    have hexact : ¬ Integer.Fits a.toInt.natAbs := fun h ↦ hfits ⟨h, by simp [RefusesRemainder]⟩
    exact (bind_of_ok (expectInteger_of_payload hx)).trans (congrFun (exactInteger_of_not_fits "abs" hexact) w)

section

theorem dispatch_of_full (hclasses : w.classes.Founded op.name) (hfull : w.callStack.maxDepth ≤ w.callStack.depth)
    (hx : w.heap.IsInteger x a) (n : ℕ) :
    FailsWith (op.dispatch (.ofBudget (n + 1)) x y) w (.stackOverflow w.callStack.maxDepth) := by
  rw [dispatch_eq]
  exact failsWith_of_full (provides_of_isInteger hclasses hx) hfull _ n

variable (hclasses : w.classes.Founded op.name) (hroom : w.callStack.depth < w.callStack.maxDepth)
  (hx : w.heap.IsInteger x a) (n : ℕ)

include hclasses hroom hx

theorem dispatch_of_zero (hy : w.heap.payload y = .integer 0) (hop : op.Divides) :
    FailsWith (op.dispatch (.ofBudget (n + 1)) x y) w .divisionByZero := by
  rw [dispatch_eq]
  refine failsWith_core (provides_of_isInteger hclasses hx) hroom (bindNative_args op y) n fun w₀ hheap ↦ ?_
  rw [← hheap] at hy
  exact runCore_of_zero (hheap ▸ hx.payload) hy hop

theorem dispatch_of_fits (hy : w.heap.payload y = .integer b) (hb : op.Divides → b ≠ 0)
    (hfits : Integer.Fits (op.exact a.toInt b.toInt)) (hquotient : ¬ op.RefusesRemainder a b) :
    EndsWith (op.dispatch (.ofBudget (n + 1)) x y) w Core.integer (.integer (Int64.ofInt (op.exact a.toInt b.toInt))) := by
  rw [dispatch_eq]
  refine endsWith_core (provides_of_isInteger hclasses hx) hroom (bindNative_args op y) n fun w₀ hheap ↦ ?_
  exact runCore_of_fits (hheap ▸ hx.payload) (hheap ▸ hy) hb hfits hquotient

theorem dispatch_of_not_fits (hy : w.heap.payload y = .integer b) (hb : op.Divides → b ≠ 0)
    (hfits : ¬ (Integer.Fits (op.exact a.toInt b.toInt) ∧ ¬ op.RefusesRemainder a b)) :
    FailsWith (op.dispatch (.ofBudget (n + 1)) x y) w op.overflow := by
  rw [dispatch_eq]
  refine failsWith_core (provides_of_isInteger hclasses hx) hroom (bindNative_args op y) n fun w₀ hheap ↦ ?_
  exact runCore_of_not_fits (hheap ▸ hx.payload) (hheap ▸ hy) hb hfits

end

end IntegerOperation

/-! ### Dispatch on Integers -/

section

variable {op : IntegerOperation} {w : World} {x y : Ref} {a b : Int64}

/-- With room on the call stack an operation on Integers divides by zero exactly where it is told to.  Apart from that it
overflows exactly where the exact number does not fit, or a quotient that no one has asked for, and otherwise it gives the
exact number. -/
theorem integer_operation_exact (hclasses : w.classes.Founded op.name) (hx : w.heap.IsInteger x a)
    (hy : w.heap.payload y = .integer b) (n : ℕ) :
    (w.callStack.depth < w.callStack.maxDepth →
      (FailsWith (op.dispatch (.ofBudget (n + 1)) x y) w .divisionByZero ↔ op.Divides ∧ b = 0) ∧
      (FailsWith (op.dispatch (.ofBudget (n + 1)) x y) w op.overflow ↔
        ¬ (op.Divides ∧ b = 0) ∧ (¬ Integer.Fits (op.exact a.toInt b.toInt) ∨ op.RefusesRemainder a b)) ∧
      ((∃ c : Int64, c.toInt = op.exact a.toInt b.toInt ∧
          EndsWith (op.dispatch (.ofBudget (n + 1)) x y) w Core.integer (.integer c)) ↔
        ¬ (op.Divides ∧ b = 0) ∧ Integer.Fits (op.exact a.toInt b.toInt) ∧ ¬ op.RefusesRemainder a b)) ∧
    (w.callStack.maxDepth ≤ w.callStack.depth →
      FailsWith (op.dispatch (.ofBudget (n + 1)) x y) w (.stackOverflow w.callStack.maxDepth)) := by
  refine ⟨fun hroom ↦ ?_, fun hfull ↦ IntegerOperation.dispatch_of_full hclasses hfull hx n⟩
  have hdiffer : ErrorKind.divisionByZero ≠ op.overflow := fun h ↦ by cases h
  by_cases hzero : op.Divides ∧ b = 0
  · have hfails := IntegerOperation.dispatch_of_zero hclasses hroom hx n (hzero.2 ▸ hy) hzero.1
    exact ⟨iff_of_true hfails hzero, iff_of_false (fun h ↦ hdiffer (hfails.unique h)) fun h ↦ h.1 hzero,
      iff_of_false (fun ⟨_, _, h⟩ ↦ h.not_failsWith hfails) fun h ↦ h.1 hzero⟩
  have hb : op.Divides → b ≠ 0 := fun hop hb ↦ hzero ⟨hop, hb⟩
  by_cases hfits : Integer.Fits (op.exact a.toInt b.toInt) ∧ ¬ op.RefusesRemainder a b
  · have hends := IntegerOperation.dispatch_of_fits hclasses hroom hx n hy hb hfits.1 hfits.2
    exact ⟨iff_of_false hends.not_failsWith hzero,
      iff_of_false hends.not_failsWith fun h ↦ h.2.elim (fun hexact ↦ hexact hfits.1) hfits.2,
      iff_of_true ⟨_, Integer.toInt_ofInt hfits.1, hends⟩ ⟨hzero, hfits⟩⟩
  · have hfails := IntegerOperation.dispatch_of_not_fits hclasses hroom hx n hy hb hfits
    exact ⟨iff_of_false (fun h ↦ hdiffer (h.unique hfails)) hzero,
      iff_of_true hfails ⟨hzero, by rwa [not_and_or, not_not] at hfits⟩,
      iff_of_false (fun ⟨_, _, h⟩ ↦ h.not_failsWith hfails) fun h ↦ hfits h.2⟩

/-- Seven divided by minus two is minus three. -/
theorem integer_operation_exact_truncates : ∃ c : Int64, c.toInt = -3 ∧
    EndsWith (binaryOp (.ofBudget 1) .div ⟨1⟩ ⟨2⟩) (.withValues Core.integer (.integer 7) (.integer (-2))) Core.integer
      (.integer c) := by
  let w := World.withValues Core.integer (.integer 7) (.integer (-2))
  have hclasses : w.classes.Founded (IntegerOperation.arithmetic .div).name := World.founded_withValues ..
  obtain ⟨hexact, -⟩ := integer_operation_exact (x := ⟨1⟩) (y := ⟨2⟩) hclasses ⟨rfl, rfl⟩ rfl 0
  exact (hexact (by decide)).2.2.mpr ⟨fun h ↦ absurd h.2 (by decide), by decide, fun h ↦ absurd h.2.2 (by decide)⟩

/-- The least Integer has a remainder by minus one, which is zero, but no quotient. -/
theorem not_every_fitting_result_is_given : ¬ ∀ (op : IntegerOperation) (w : World) (x y : Ref) (a b : Int64) (n : ℕ),
    w.classes.Founded op.name → w.callStack.depth < w.callStack.maxDepth → w.heap.IsInteger x a → w.heap.IsInteger y b →
    ¬ (op.Divides ∧ b = 0) → Integer.Fits (op.exact a.toInt b.toInt) →
      ∃ c : Int64, c.toInt = op.exact a.toInt b.toInt ∧
        EndsWith (op.dispatch (.ofBudget (n + 1)) x y) w Core.integer (.integer c) := by
  intro hall
  let w := World.withValues Core.integer (.integer Int64.minValue) (.integer (-1))
  have hclasses : w.classes.Founded (IntegerOperation.arithmetic .rem).name := World.founded_withValues ..
  have hroom : w.callStack.depth < w.callStack.maxDepth := by decide
  have hx : w.heap.IsInteger ⟨1⟩ Int64.minValue := ⟨rfl, rfl⟩
  have hy : w.heap.payload ⟨2⟩ = .integer (-1) := rfl
  have hfails := IntegerOperation.dispatch_of_not_fits hclasses hroom hx 0 hy (fun _ ↦ by decide) fun h ↦
    h.2 ⟨rfl, rfl, rfl⟩
  obtain ⟨c, -, hends⟩ := hall (.arithmetic .rem) w ⟨1⟩ ⟨2⟩ Int64.minValue (-1) 0 hclasses hroom ⟨rfl, rfl⟩ ⟨rfl, rfl⟩
    (fun h ↦ absurd h.2 (by decide)) (by decide)
  exact hends.not_failsWith hfails

end

end MindScript
