import StackFront.Op

/-!
# Programs

A program is what one source file says: its methods and the files that it extends and uses, each
target as it is spelled there.
-/
namespace StackFront

/-- A method: at least one operation. -/
structure Method where
  ops : List Op
  ops_ne_nil : ops ≠ []
  deriving DecidableEq

/-- The method with the given operations, if there are any. -/
def Method.ofOps? (ops : List Op) : Option Method :=
  if h : ops ≠ [] then some ⟨ops, h⟩ else none

/-- The content of one source file. -/
structure Program where
  methods : List Method := []
  extendTargets : List String := []
  useTargets : List String := []
  deriving DecidableEq, Inhabited

namespace Program

/-- Every referenced file as it is spelled, extended ones first. -/
def targets (p : Program) : List String :=
  p.extendTargets ++ p.useTargets

/-- The targets of one kind. -/
def targetsOf (p : Program) : LinkKind → List String
  | .extend => p.extendTargets
  | .use => p.useTargets

/-- Every operation, method after method. -/
def ops (p : Program) : List Op :=
  p.methods.flatMap (·.ops)

end Program

end StackFront
