import MindScript.Proofs.Class.Founded
import MindScript.Proofs.Custody.Handing
import MindScript.Proofs.Custody.Wakeups

/-!
# Calls of built-in methods

A call that dispatches to a built-in method of a core class runs the method on its receiver and its arguments as they are,
if there is room on the call stack.  What the method gives is what the call gives, and an error leaves it with nothing
added but a backtrace.
-/

namespace MindScript

/-- The member is a method with these parameters that runs the built-in method. -/
def Member.isCore (params : List String) (method : CoreMethod) (m : Member) : Bool :=
  m.kind == .method && match m.body with
    | .method names (.core code) => names == params && code == method
    | _ => false

theorem Member.isCore_iff {params : List String} {method : CoreMethod} {m : Member} :
    m.isCore params method = true ↔ m.kind = .method ∧ m.body = .method params (.core method) := by
  obtain ⟨name, owner, kind, body⟩ := m
  rw [isCore, Bool.and_eq_true, beq_iff_eq]
  refine and_congr_right fun _ ↦ ?_
  dsimp only
  split <;> simp_all

/-- In a new interpreter, dispatch of the name on a class finds this built-in method. -/
def CoreClass.provides (c : ClassId) (name : String) (params : List String) (method : CoreMethod) : Bool :=
  ((all.foldl Registry.adding {}).search c name).any (Member.isCore params method)

/-- A call of the name on the receiver, made now, dispatches to the built-in method of a core class. -/
structure World.Provides (w : World) (this : Ref) (name : String) (params : List String) (method : CoreMethod) : Prop where
  founded : w.classes.Founded name
  core : (w.heap.classOf this).index < CoreClass.registry.size
  provides : CoreClass.provides (w.heap.classOf this) name params method = true

namespace Machine

/-- The action ends with a value of that class and that payload. -/
def EndsWith (f : Machine Ref) (w : World) (c : ClassId) (p : Payload) : Prop :=
  ∃ r w', f w = (.ok r, w') ∧ w'.heap.classOf r = c ∧ w'.heap.payload r = p

/-- The action ends with a failure of that kind. -/
def FailsWith (f : Machine Ref) (w : World) (kind : ErrorKind) : Prop :=
  ∃ e w', f w = (.error (.raised e), w') ∧ e.kind = kind ∧ e.message = kind.text

variable {f : Machine Ref} {c d : ClassId} {p q : Payload} {kind kind' : ErrorKind} {w : World} {this : Ref} {name : String}
  {params : List String} {method : CoreMethod} {given : ArgValues} {args : List Ref} {n : ℕ}

theorem EndsWith.not_failsWith (h : EndsWith f w c p) : ¬ FailsWith f w kind := by
  rintro ⟨e, w', hfail, -⟩
  obtain ⟨r, u, hend, -⟩ := h
  cases hend.symm.trans hfail

theorem EndsWith.unique (h : EndsWith f w c p) (h' : EndsWith f w d q) : p = q := by
  obtain ⟨r, u, hend, -, hp⟩ := h
  obtain ⟨r', u', hend', -, hq⟩ := h'
  cases hend.symm.trans hend'
  exact hp.symm.trans hq

theorem FailsWith.unique (h : FailsWith f w kind) (h' : FailsWith f w kind') : kind = kind' := by
  obtain ⟨e, u, hfail, hkind, -⟩ := h
  obtain ⟨e', u', hfail', hkind', -⟩ := h'
  cases hfail.symm.trans hfail'
  exact hkind.symm.trans hkind'

/-- Whatever else has been registered, dispatch still finds the built-in method. -/
theorem exists_resolveMethod_core (h : w.Provides this name params method) :
    ∃ m classes, m.body = .method params (.core method) ∧ resolveMethod this name none w = (.ok m, { w with classes }) := by
  obtain ⟨m, hm, hcore⟩ := (Option.any_eq_true _ _).mp h.provides
  obtain ⟨hkind, hbody⟩ := Member.isCore_iff.mp hcore
  have hcall := resolveCall_of_search ⟨rfl, h.founded.sound⟩ rfl (Nat.lt_of_lt_of_le h.core h.founded.grounded.size)
    ((h.founded.search h.core).trans hm)
  refine ⟨m, (w.classes.find (w.heap.classOf this) name).2, hbody, ?_⟩
  rw [resolveMethod, bind_of_ok hcall, Member.isCoroutine, hkind]
  rfl

section

variable {α : Type} {f : Machine α} {i : Invocation} {held : List Ref} {v u : World}

theorem withInvocation_of_ok {t : CallStack} {a : α} (hpush : v.callStack.push i = .ok t)
    (hrun : f { v with callStack := t } = (.ok a, u)) :
    withInvocation i held f v = (.ok a, { u with callStack := u.callStack.pop }) := by
  rw [withInvocation, get_bind]
  dsimp only
  rw [hpush]
  exact bind_of_ok (attempt_of_ok hrun)

theorem withInvocation_of_full (hfull : v.callStack.maxDepth ≤ v.callStack.depth) : ∃ u,
    withInvocation i held f v = (.error (.raised (.ofKind (.stackOverflow v.callStack.maxDepth))), u) := by
  have hpush : v.callStack.push i = .error (.ofKind (.stackOverflow v.callStack.maxDepth)) :=
    if_neg (Nat.not_lt.mpr hfull)
  rw [withInvocation, get_bind]
  dsimp only
  rw [hpush]
  exact ⟨_, rfl⟩

/-- An error that leaves an invocation is stamped with the call stack. -/
theorem withInvocation_of_raised {t : CallStack} {e : EvalError} (hpush : v.callStack.push i = .ok t)
    (hrun : f { v with callStack := t } = (.error (.raised e), u)) :
    withInvocation i held f v =
      (.error (.raised (u.callStack.attach e)), { u with callStack := u.callStack.pop }) := by
  rw [withInvocation, get_bind]
  dsimp only
  rw [hpush]
  exact bind_of_ok (attempt_of_raised hrun)

end

/-- The body of a built-in method runs on receiver and arguments, which are given up afterwards. -/
theorem runMember_core {m : Member} (E : Engine) (hbody : m.body = .method params (.core method))
    (hgiven : bindNative m.name params given = pure args) (w : World) :
    runMember E this m given w = thenRelease (runCore E method this args) (args ++ [this]) w := by
  have hbound : elseRelease (bindNative m.name params given) [this] w = (.ok args, w) := by
    rw [hgiven]
    rfl
  rw [runMember, hbody]
  exact bind_of_ok hbound

theorem exists_callMethod_eq (h : w.Provides this name params method) (given : ArgValues) (n : ℕ) :
    ∃ m classes, m.body = .method params (.core method) ∧ callMethod (.ofBudget (n + 1)) this name none given w =
      withInvocation ⟨classes.nameOf m.owner, m.name⟩ (given.map Prod.snd ++ [this])
        (runMember (.ofBudget n) this m given) { w with classes } := by
  obtain ⟨m, classes, hbody, hresolve⟩ := exists_resolveMethod_core h
  have hfound : elseRelease (resolveMethod this name none) (given.map Prod.snd ++ [this]) w =
      (.ok m, { w with classes }) := by
    rw [elseRelease, hresolve]
  exact ⟨m, classes, hbody, bind_of_ok hfound⟩

/-- A call that dispatches to a built-in method runs it on the same instances.  Its result is the result of the call, and its
error is the error of the call. -/
theorem callMethod_core (h : w.Provides this name params method) (hroom : w.callStack.depth < w.callStack.maxDepth)
    (hgiven : ∀ member, bindNative member params given = pure args) (n : ℕ) : ∃ w₀, w₀.heap = w.heap ∧
      (∀ r u, runCore (.ofBudget n) method this args w₀ = (.ok r, u) → ∃ w',
        callMethod (.ofBudget (n + 1)) this name none given w = (.ok r, w') ∧
        w'.heap = u.heap.release ((args ++ [this]).map .object)) ∧
      ∀ e u, runCore (.ofBudget n) method this args w₀ = (.error (.raised e), u) → ∃ e' w',
        callMethod (.ofBudget (n + 1)) this name none given w = (.error (.raised e'), w') ∧ e.Agrees e' := by
  obtain ⟨m, classes, hbody, hcall⟩ := exists_callMethod_eq h given n
  have hpush := (CallStack.push_eq_ok_iff (i := ⟨classes.nameOf m.owner, m.name⟩)).mpr ⟨hroom, rfl⟩
  let callStack : CallStack :=
    { w.callStack with invocations := w.callStack.invocations.push ⟨classes.nameOf m.owner, m.name⟩ }
  have hbegin : runMember (.ofBudget n) this m given { w with classes, callStack } =
      thenRelease (runCore (.ofBudget n) method this args) (args ++ [this]) { w with classes, callStack } :=
    runMember_core (.ofBudget n) hbody (hgiven m.name) _
  refine ⟨{ w with classes, callStack }, rfl, fun r u hrun ↦ ?_, fun e u hrun ↦ ?_⟩
  · have hends : thenRelease (runCore (.ofBudget n) method this args) (args ++ [this]) { w with classes, callStack } =
        (.ok r, u.release ((args ++ [this]).map .object)) := by
      rw [thenRelease, hrun]
    exact ⟨_, hcall.trans (withInvocation_of_ok hpush (hbegin.trans hends)), rfl⟩
  · have hends : thenRelease (runCore (.ofBudget n) method this args) (args ++ [this]) { w with classes, callStack } =
        (.error (.raised e), u.release ((args ++ [this]).map .object)) := by
      rw [thenRelease, hrun]
    exact ⟨_, _, hcall.trans (withInvocation_of_raised hpush (hbegin.trans hends)), e.agrees_attach _⟩

/-- A new value is what it was made as, also when the operands have been given up. -/
theorem endsWith_core (h : w.Provides this name params method) (hroom : w.callStack.depth < w.callStack.maxDepth)
    (hgiven : ∀ member, bindNative member params given = pure args) (n : ℕ)
    (hrun : ∀ w₀, w₀.heap = w.heap → runCore (.ofBudget n) method this args w₀ = newValue c p w₀) :
    EndsWith (callMethod (.ofBudget (n + 1)) this name none given) w c p := by
  obtain ⟨w₀, hheap, hok, -⟩ := callMethod_core h hroom hgiven n
  let made := w₀.heap.newObject { classId := c, payload := p }
  have hnew : newValue c p w₀ = (.ok made.1, { w₀ with heap := made.2 }) := rfl
  obtain ⟨w', hcall, hreleased⟩ := hok _ _ ((hrun w₀ hheap).trans hnew)
  have hstock : w'.heap.objects.map Object.stock = made.2.objects.map Object.stock :=
    hreleased ▸ (Heap.Ages.release ((args ++ [this]).map .object)).stock
  have hobject : made.2.object made.1 = { classId := c, payload := p } := by
    rw [Heap.object, Heap.object?_newObject_self, Option.getD_some]
  refine ⟨made.1, w', hcall, ?_, ?_⟩
  · rw [Heap.classOf_of_stock hstock, Heap.classOf, hobject]
  · rw [Heap.payload_of_stock hstock, Heap.payload, hobject]

/-- An error of a built-in method is the error of the call. -/
theorem failsWith_core (h : w.Provides this name params method) (hroom : w.callStack.depth < w.callStack.maxDepth)
    (hgiven : ∀ member, bindNative member params given = pure args) (n : ℕ)
    (hrun : ∀ w₀, w₀.heap = w.heap → runCore (.ofBudget n) method this args w₀ = raiseKind kind w₀) :
    FailsWith (callMethod (.ofBudget (n + 1)) this name none given) w kind := by
  obtain ⟨w₀, hheap, -, hraised⟩ := callMethod_core h hroom hgiven n
  obtain ⟨e, w', hcall, hagrees⟩ := hraised _ _ (hrun w₀ hheap)
  exact ⟨e, w', hcall, hagrees.kind, hagrees.message⟩

theorem failsWith_of_full (h : w.Provides this name params method) (hfull : w.callStack.maxDepth ≤ w.callStack.depth)
    (given : ArgValues) (n : ℕ) :
    FailsWith (callMethod (.ofBudget (n + 1)) this name none given) w (.stackOverflow w.callStack.maxDepth) := by
  obtain ⟨m, classes, -, hcall⟩ := exists_callMethod_eq h given n
  obtain ⟨w', hoverflow⟩ := withInvocation_of_full (v := { w with classes }) hfull
  exact ⟨_, w', hcall.trans hoverflow, rfl, rfl⟩

end Machine

/-! ### Two values in a new interpreter -/

def World.withValues (c : ClassId) (p q : Payload) : World := (Machine.newValue c q (Machine.newValue c p (.new {})).2).2

theorem World.founded_withValues (c : ClassId) (p q : Payload) (name : String) :
    (withValues c p q).classes.Founded name := by
  have hclasses : (withValues c p q).classes = CoreClass.registry := classes_new {}
  rw [hclasses]
  exact .core

end MindScript
