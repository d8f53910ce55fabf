/-!
# Moments

Points in universal time and the text that images carry of them: date and time joined by `T`, with
a fraction of six digits unless it is zero, and `Z` at the end.
-/
namespace StackFront

/-- A point in universal time. -/
structure Moment where
  year : Nat
  month : Nat
  day : Nat
  hour : Nat
  minute : Nat
  second : Nat
  microsecond : Nat
  deriving DecidableEq, Repr

namespace Moment

/-- A number with zeros before it, at least `width` digits in all. -/
def padded (width n : Nat) : String :=
  let digits := toString n
  String.ofList (List.replicate (width - digits.length) '0') ++ digits

/-- The text of a moment. -/
def text (m : Moment) : String :=
  let fraction := if m.microsecond = 0 then "" else "." ++ padded 6 m.microsecond
  "-".intercalate [padded 4 m.year, padded 2 m.month, padded 2 m.day] ++ "T" ++
    ":".intercalate [padded 2 m.hour, padded 2 m.minute, padded 2 m.second] ++ fraction ++ "Z"

end Moment

end StackFront
