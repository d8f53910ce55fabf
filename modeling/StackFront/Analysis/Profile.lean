import StackFront.Program

/-!
# Profiles

How often the operations of each category occur in a program.
-/
namespace StackFront.Program

/-- The number of operations of a category. -/
def count (p : Program) (c : Category) : Nat :=
  p.ops.countP fun op => op.category = c

/-- The categories that occur, with how often they do. -/
def profile (p : Program) : List (Category × Nat) :=
  Category.all.filterMap fun c => if p.count c = 0 then none else some (c, p.count c)

/-- The categories in the order of their names. -/
def alphabetical : List Category :=
  [.addressing, .call, .control, .io, .literal, .math, .quote, .stack, .system, .variables]

/-- The category that occurs most often; of several, the one whose name comes first. -/
def dominant (p : Program) : Option Category :=
  alphabetical.foldl
    (fun best c =>
      match best with
      | none => if p.count c = 0 then none else some c
      | some b => if p.count b < p.count c then some c else some b)
    none

end StackFront.Program
