import MindScript.Class.Registry
import MindScript.Expr.Builder

/-!
# Class scripts

A class declared as a whole: the bodies of all its scripted members are built into one arena.
-/

namespace MindScript

/-- A scripted member: a builder for its parameters and its body. -/
structure MemberScript where
  name : String
  kind : CallableKind
  build : Builder (Span × ExprId)

/-- A class with native and scripted members. -/
structure ClassScript where
  name : String
  supertypes : List String := []
  data : List DataDecl := []
  classData : List DataDecl := []
  natives : List MemberDecl := []
  scripts : List MemberScript := []

namespace ClassScript

/-- Build the scripted members in order. -/
def buildAll : List MemberScript → Builder (List (String × CallableKind × Span × ExprId))
  | [] => return []
  | m :: rest => do
    let (params, body) ← m.build
    return (m.name, m.kind, params, body) :: (← buildAll rest)

/-- The declaration: native members first, then the scripted ones over their common arena. -/
def toDecl (s : ClassScript) : Except Arena.Overflow ClassDecl := do
  let (built, arena) ← (buildAll s.scripts).build
  return {
    name := s.name
    supertypes := s.supertypes
    data := s.data
    classData := s.classData
    members := s.natives ++ built.map fun (name, kind, params, body) ↦
      ⟨name, kind, .script arena params body⟩ }

end ClassScript

/-- A scripted member in an arena of its own. -/
def MemberScript.toDecl (m : MemberScript) : Except Arena.Overflow MemberDecl := do
  let ((params, body), arena) ← m.build.build
  return ⟨m.name, m.kind, .script arena params body⟩

end MindScript
