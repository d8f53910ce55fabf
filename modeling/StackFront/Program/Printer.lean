import StackFront.Fault
import StackFront.Program

/-!
# Writing programs

A program is written as it is read: a line for each method, then for each extended file, then for
each used one. Operations without a character of their own cannot be written.
-/
namespace StackFront

/-- The character of an operation. -/
def Op.encode : Op → Except BadValue Char
  | .literal n => .ok (digit n)
  | .opcode op =>
    match op.char? with
    | some c => .ok c
    | none => .error (.noCharacter op)

/-- The characters of operations, if each has one. -/
def Op.encodeAll : List Op → Except BadValue (List Char)
  | [] => .ok []
  | op :: rest =>
    match op.encode with
    | .error e => .error e
    | .ok c => (encodeAll rest).map (c :: ·)

/-- The line of a method. -/
def Method.format (m : Method) : Except BadValue String :=
  (Op.encodeAll m.ops).map String.ofList

namespace Program

/-- The lines of the methods. -/
def formatMethods : List Method → Except BadValue (List String)
  | [] => .ok []
  | m :: rest =>
    match m.format with
    | .error e => .error e
    | .ok line => (formatMethods rest).map (line :: ·)

/-- The line that declares a target. -/
def declarationLine (kind : LinkKind) (target : String) : String :=
  String.ofList (kind.marker ++ ' ' :: target.toList)

/-- Lines joined into a text, with a line feed after the last one. -/
def unlines (lines : List String) : String :=
  "\n".intercalate lines ++ "\n"

/-- The source text of a program. -/
def format (p : Program) : Except BadValue String :=
  (formatMethods p.methods).map fun methods =>
    unlines (methods ++ p.extendTargets.map (declarationLine .extend) ++
      p.useTargets.map (declarationLine .use))

end Program

end StackFront
