/-!
# The two ways of referring to another program
-/
namespace StackFront

/-- The spelling of the file that holds a program. -/
abbrev Name := String

/-- A program extends another one, whose methods it may call, or uses it as a module. -/
inductive LinkKind where
  | extend
  | use
  deriving DecidableEq, Repr

/-- The word for an edge of this kind. -/
def LinkKind.name : LinkKind → String
  | .extend => "extends"
  | .use => "uses"

/-- The letters that open a declaration of this kind. -/
def LinkKind.marker : LinkKind → List Char
  | .extend => [';', 'e']
  | .use => [';', 'u']

end StackFront
