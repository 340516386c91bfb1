import MindScript.Native.Core
import MindScript.Native.Program

/-!
# Members

What dispatch resolves a name to: a scripted body in its arena, a built-in, or a program of the host.
-/

namespace MindScript

/-- Code of a native method. -/
inductive NativeMethod where
  | core (method : CoreMethod)
  | host (program : Program Reg)

/-- Code of a native coroutine, run once per step. -/
inductive NativeCoroutine where
  | core (coroutine : CoreCoroutine)
  | host (poll : PollInfo → Program Poll)

inductive MemberBody where
  | script (arena : Arena) (params : Span) (body : ExprId)
  | method (params : List String) (code : NativeMethod)
  | coroutine (params : List String) (code : NativeCoroutine)

namespace MemberBody

def isNative : MemberBody → Bool
  | script _ _ _ => false
  | method _ _ | coroutine _ _ => true

/-- The body as diagnostics write it. -/
def text : MemberBody → String
  | script _ params body =>
    "Script \x7b params: " ++ params.text "ParamRange" ++ ", body: " ++ body.text ++ ", .. \x7d"
  | method params _ => "NativeMethod(arity=" ++ toString params.length ++ ")"
  | coroutine params _ => "NativeCoroutine(arity=" ++ toString params.length ++ ")"

instance : Inhabited MemberBody := ⟨script {} .empty .invalid⟩

end MemberBody

/-- A member as declared, before it belongs to a class. -/
structure MemberDecl where
  name : String
  kind : CallableKind
  body : MemberBody
  deriving Inhabited

namespace MemberDecl

def nativeMethod (name : String) (params : List String) (code : NativeMethod) : MemberDecl :=
  ⟨name, .method, .method params code⟩

def nativeCoroutine (name : String) (params : List String) (code : NativeCoroutine) : MemberDecl :=
  ⟨name, .coroutine, .coroutine params code⟩

end MemberDecl

/-- A member of a registered class. -/
structure Member where
  name : String
  /-- The class that declares the member. -/
  owner : ClassId
  kind : CallableKind
  body : MemberBody
  deriving Inhabited

namespace Member

def isNative (m : Member) : Bool := m.body.isNative

def isCoroutine (m : Member) : Bool := m.kind == .coroutine

def ofDecl (decl : MemberDecl) (owner : ClassId) : Member :=
  ⟨decl.name, owner, decl.kind, decl.body⟩

/-- The member of that name in a member table. -/
def lookup (table : List Member) (name : String) : Option Member :=
  table.find? fun m ↦ m.name == name

/-- Add a member to a table, in place of one of the same name. -/
def insert (table : List Member) (m : Member) : List Member :=
  m :: table.filter fun other ↦ other.name != m.name

@[simp] theorem lookup_nil (name : String) : lookup [] name = none := rfl

theorem lookup_cons (m : Member) (table : List Member) (name : String) :
    lookup (m :: table) name = if m.name = name then some m else lookup table name := by
  by_cases h : m.name = name <;> simp [lookup, h]

/-- Removing the members of one name leaves the members of another as they are. -/
theorem lookup_filter_name_ne {table : List Member} {name other : String} (h : other ≠ name) :
    lookup (table.filter fun m ↦ m.name != name) other = lookup table other := by
  induction table with
  | nil => rfl
  | cons m table ih =>
    by_cases hm : m.name = name
    · have hne : m.name ≠ other := fun e ↦ h (e.symm.trans hm)
      simp [hm, ih, lookup_cons, hm ▸ hne]
    · simp [hm, lookup_cons, ih]

@[simp] theorem lookup_insert_self (table : List Member) (m : Member) :
    lookup (insert table m) m.name = some m := by
  simp [insert, lookup_cons]

theorem lookup_insert_of_ne {table : List Member} {m : Member} {name : String} (h : name ≠ m.name) :
    lookup (insert table m) name = lookup table name := by
  simp [insert, lookup_cons, h.symm, lookup_filter_name_ne h]

end Member

end MindScript
