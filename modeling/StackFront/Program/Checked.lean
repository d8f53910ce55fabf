import StackFront.Fault
import StackFront.Program

/-!
# Checked construction

Operations and methods built from values that come from elsewhere than source text.
-/
namespace StackFront

/-- The literal of a value, which has to be equal to a number from 0 to 15. -/
def Op.ofValue (value : Json) : Except BadValue Op :=
  match value.nibble? with
  | some n => .ok (.literal n)
  | none => .error (.literalRange value)

/-- An operation as it is shown on its own. -/
def Op.shown : Op → String
  | .opcode op => op.name
  | .literal n => s!"Value({n})"

/-- The method of the given operations, of which there has to be one at least. -/
def Method.ofOps (ops : List Op) : Except BadValue Method :=
  match Method.ofOps? ops with
  | some m => .ok m
  | none => .error .emptyMethod

end StackFront
