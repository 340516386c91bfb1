import MindScript.Proofs.Calls.Builtins

/-!
# Equality of core values

Equality and inequality are two methods.  Most core classes declare both or neither of them, and then one answers the
opposite of the other.  Class objects compare by the class that they stand for when they are asked whether they are equal,
but inherit the answer to whether they are not, which goes by identity.
-/

namespace MindScript

open Machine

namespace CoreMethod

/-- The method compares its receiver with its argument. -/
def isEquality : CoreMethod → Bool
  | identical _ | equalBooleans _ | equalNumbers _ | equalTexts _ | equalSymbols _ | equalClasses => true
  | _ => false

/-- What a method that compares says of two instances. -/
def verdict (method : CoreMethod) (h : Heap) (a b : Ref) : Bool :=
  match method with
  | identical whenEqual => (a == b) == whenEqual
  | equalBooleans whenEqual => Machine.equalBooleans (h.payload a) (h.payload b) == whenEqual
  | equalNumbers whenEqual => Machine.equalNumbers (h.payload a) (h.payload b) == whenEqual
  | equalTexts whenEqual => Machine.equalTexts (h.payload a) (h.payload b) == whenEqual
  | equalSymbols whenEqual => Machine.equalSymbols (h.payload a) (h.payload b) == whenEqual
  | equalClasses => Machine.equalClasses (h.payload a) (h.payload b)
  | _ => false

/-- To compare never fails, whatever the payloads are. -/
theorem runCore_of_isEquality {method : CoreMethod} (h : method.isEquality = true) (E : Engine) (a b : Ref) (w : World) :
    runCore E method a [b] w = newValue Core.boolean (.boolean (method.verdict w.heap a b)) w := by
  cases method with
  | identical _ | equalBooleans _ | equalNumbers _ | equalTexts _ | equalSymbols _ => rfl
  | equalClasses =>
    have hsame : (Machine.equalClasses (w.heap.payload a) (w.heap.payload b) == true) =
        Machine.equalClasses (w.heap.payload a) (w.heap.payload b) := beq_true _
    exact congrArg (fun answer ↦ newValue Core.boolean (.boolean answer) w) hsame
  | _ => cases h

end CoreMethod

/-- The two methods that an instance of a core class is asked for equality and for inequality. -/
def CoreClass.equality (c : ClassId) : CoreMethod × CoreMethod :=
  if c = Core.boolean then (.equalBooleans true, .equalBooleans false)
  else if c = Core.integer ∨ c = Core.real then (.equalNumbers true, .equalNumbers false)
  else if c = Core.string then (.equalTexts true, .equalTexts false)
  else if c = Core.symbol then (.equalSymbols true, .equalSymbols false)
  else if c = Core.classObject then (.equalClasses, .identical false)
  else (.identical true, .identical false)

namespace CoreClass

theorem provides_equality {c : ClassId} (hc : c.index < registry.size) :
    provides c "equals" ["other"] (equality c).1 = true ∧ provides c "not_equals" ["other"] (equality c).2 = true := by
  have hall : (List.range 11).all fun i ↦ provides ⟨i⟩ "equals" ["other"] (equality ⟨i⟩).1 &&
      provides ⟨i⟩ "not_equals" ["other"] (equality ⟨i⟩).2 := by decide +kernel
  rw [size_registry] at hc
  exact (Bool.and_eq_true ..).mp (List.all_eq_true.mp hall c.index (List.mem_range.mpr hc))

theorem isEquality_equality (c : ClassId) : (equality c).1.isEquality = true ∧ (equality c).2.isEquality = true := by
  unfold equality
  split_ifs <;> exact ⟨rfl, rfl⟩

end CoreClass

namespace Heap

variable {h h' : Heap} {a b : Ref}

/-- Whether a core value says that it equals another value. -/
def equal (h : Heap) (a b : Ref) : Bool := (CoreClass.equality (h.classOf a)).1.verdict h a b

/-- Whether a core value says that it does not equal another value. -/
def unequal (h : Heap) (a b : Ref) : Bool := (CoreClass.equality (h.classOf a)).2.verdict h a b

theorem verdict_congr (method : CoreMethod) (ha : h'.payload a = h.payload a) (hb : h'.payload b = h.payload b) :
    method.verdict h' a b = method.verdict h a b := by
  simp only [CoreMethod.verdict, ha, hb]

/-- Where both questions are one comparison, the answers are opposite. -/
theorem beq_false_eq_not_beq_true (answer : Bool) : (answer == false) = !(answer == true) := by
  cases answer <;> rfl

/-- The two answers are opposite unless the receiver is a class object that the two questions tell apart. -/
theorem unequal_eq_not_equal_iff : h.unequal a b = !h.equal a b ↔
    (h.classOf a = Core.classObject → (a = b ↔ equalClasses (h.payload a) (h.payload b) = true)) := by
  by_cases hclass : h.classOf a = Core.classObject
  · have hequality : CoreClass.equality (h.classOf a) = (.equalClasses, .identical false) := by
      rw [hclass]
      rfl
    rw [unequal, equal, hequality]
    simp only [CoreMethod.verdict, hclass, true_imp_iff]
    by_cases hab : a = b <;> cases equalClasses (h.payload a) (h.payload b) <;> simp [hab]
  · refine iff_of_true ?_ fun h ↦ absurd h hclass
    rw [unequal, equal, CoreClass.equality]
    split_ifs <;> exact beq_false_eq_not_beq_true _

end Heap

section

variable {w u : World} {a b : Ref}

theorem binaryOp_of_isEquality {op : BinaryOp} {method : CoreMethod} (hclasses : w.classes.Founded op.methodName)
    (hroom : w.callStack.depth < w.callStack.maxDepth) (hcore : (w.heap.classOf a).index < CoreClass.registry.size)
    (hprovides : CoreClass.provides (w.heap.classOf a) op.methodName ["other"] method = true)
    (hmethod : method.isEquality = true) (n : ℕ) :
    EndsWith (binaryOp (.ofBudget (n + 1)) op a b) w Core.boolean (.boolean (method.verdict w.heap a b)) := by
  have hgiven : ∀ member, bindNative member ["other"] [(none, b)] = pure [b] := fun _ ↦ rfl
  refine endsWith_core ⟨hclasses, hcore, hprovides⟩ hroom hgiven n fun w₀ hheap ↦ ?_
  rw [CoreMethod.runCore_of_isEquality hmethod, hheap]

/-- A core value is asked for equality, and then or at another time for inequality.  Both questions are answered, and the
second answer is the negation of the first one unless the value is a class object that stands for the same class as
another one, or for none at all. -/
theorem inequality_negates_equality_iff (hw : w.classes.Founded BinaryOp.eq.methodName)
    (hu : u.classes.Founded BinaryOp.notEq.methodName) (hroomw : w.callStack.depth < w.callStack.maxDepth)
    (hroomu : u.callStack.depth < u.callStack.maxDepth) (hcore : (w.heap.classOf a).index < CoreClass.registry.size)
    (hclass : u.heap.classOf a = w.heap.classOf a) (ha : u.heap.payload a = w.heap.payload a)
    (hb : u.heap.payload b = w.heap.payload b) (n k : ℕ) :
    EndsWith (binaryOp (.ofBudget (n + 1)) .eq a b) w Core.boolean (.boolean (w.heap.equal a b)) ∧
    EndsWith (binaryOp (.ofBudget (k + 1)) .notEq a b) u Core.boolean (.boolean (w.heap.unequal a b)) ∧
    (w.heap.unequal a b = !w.heap.equal a b ↔
      (w.heap.classOf a = Core.classObject → (a = b ↔ equalClasses (w.heap.payload a) (w.heap.payload b) = true))) := by
  obtain ⟨hequal, hunequal⟩ := CoreClass.provides_equality hcore
  obtain ⟨hcompares, hcompares'⟩ := CoreClass.isEquality_equality (w.heap.classOf a)
  refine ⟨binaryOp_of_isEquality hw hroomw hcore hequal hcompares n, ?_, Heap.unequal_eq_not_equal_iff⟩
  rw [Heap.unequal, ← Heap.verdict_congr _ ha hb]
  rw [← hclass] at hcore hunequal hcompares' ⊢
  exact binaryOp_of_isEquality hu hroomu hcore hunequal hcompares' k

/-- Two boxes with one number are equal and not unequal. -/
theorem inequality_negates_equality_iff_boxes : ∃ w : World,
    EndsWith (binaryOp (.ofBudget 1) .eq ⟨1⟩ ⟨2⟩) w Core.boolean (.boolean true) ∧
    EndsWith (binaryOp (.ofBudget 1) .notEq ⟨1⟩ ⟨2⟩) w Core.boolean (.boolean false) := by
  let w := World.withValues Core.integer (.integer 1) (.integer 1)
  have hcore : (w.heap.classOf ⟨1⟩).index < CoreClass.registry.size := by
    rw [CoreClass.size_registry]
    decide
  have hroom : w.callStack.depth < w.callStack.maxDepth := by decide
  obtain ⟨hequal, hunequal, -⟩ := inequality_negates_equality_iff (b := ⟨2⟩) (World.founded_withValues ..)
    (World.founded_withValues ..) hroom hroom hcore rfl rfl rfl 0 0
  exact ⟨w, hequal, hunequal⟩

/-- Two objects of one class are equal and unequal at once. -/
theorem not_every_inequality_negates_equality : ¬ ∀ (w : World) (a b : Ref) (n : ℕ),
    w.classes.Founded BinaryOp.eq.methodName → w.classes.Founded BinaryOp.notEq.methodName →
    w.callStack.depth < w.callStack.maxDepth → (w.heap.classOf a).index < CoreClass.registry.size →
    (w.heap.classOf b).index < CoreClass.registry.size →
      ∃ equal : Bool, EndsWith (binaryOp (.ofBudget (n + 1)) .eq a b) w Core.boolean (.boolean equal) ∧
        EndsWith (binaryOp (.ofBudget (n + 1)) .notEq a b) w Core.boolean (.boolean !equal) := by
  intro hall
  let w := World.withValues Core.classObject (.classObject Core.integer) (.classObject Core.integer)
  have hcore : (w.heap.classOf ⟨1⟩).index < CoreClass.registry.size := by
    rw [CoreClass.size_registry]
    decide
  have hroom : w.callStack.depth < w.callStack.maxDepth := by decide
  obtain ⟨hequal, hunequal⟩ := CoreClass.provides_equality hcore
  have heq : w.classes.Founded BinaryOp.eq.methodName := World.founded_withValues ..
  have hne : w.classes.Founded BinaryOp.notEq.methodName := World.founded_withValues ..
  have hsame : EndsWith (binaryOp (.ofBudget 1) .eq ⟨1⟩ ⟨2⟩) w Core.boolean (.boolean true) :=
    binaryOp_of_isEquality heq hroom hcore hequal rfl 0
  have hother : EndsWith (binaryOp (.ofBudget 1) .notEq ⟨1⟩ ⟨2⟩) w Core.boolean (.boolean true) :=
    binaryOp_of_isEquality hne hroom hcore hunequal rfl 0
  obtain ⟨equal, hsame', hother'⟩ := hall w ⟨1⟩ ⟨2⟩ 0 heq hne hroom hcore hcore
  have htrue : equal = true := Payload.boolean.inj (hsame'.unique hsame)
  have hfalse : (!equal) = true := Payload.boolean.inj (hother'.unique hother)
  rw [htrue] at hfalse
  cases hfalse

end

end MindScript
