import StackFront.Json
import StackFront.Program

/-!
# Instructions

An instruction is an operation at its position in a method, with what enrichment has found out about
it. A literal carries a value, which is a nibble if it comes from source text.
-/
namespace StackFront

/-- What an instruction does. -/
inductive Action where
  | operation (op : Opcode)
  | literal (value : Json)

/-- What enrichment has noted on an instruction. -/
structure Notes where
  category : Option Category := none
  methodCount : Option Nat := none
  extendNames : Option (List Name) := none
  useNames : Option (List Name) := none
  seen : Option Nat := none
  deriving DecidableEq

/-- The execution form of an operation. -/
structure Instruction where
  position : Nat
  action : Action
  notes : Notes := {}

namespace Instruction

/-- The instruction of an operation, nothing noted on it yet. -/
def ofOp (position : Nat) : Op → Instruction
  | .opcode op => ⟨position, .operation op, {}⟩
  | .literal n => ⟨position, .literal (.number (n.val : Int)), {}⟩

/-- The instructions of operations, the first of which stands at `position`. -/
def ofOps (position : Nat) : List Op → List Instruction
  | [] => []
  | op :: rest => ofOp position op :: ofOps (position + 1) rest

def name (i : Instruction) : String :=
  match i.action with
  | .operation op => op.name
  | .literal _ => Op.literalName

/-- The value of a literal. -/
def value? (i : Instruction) : Option Json :=
  match i.action with
  | .operation _ => none
  | .literal value => some value

def category (i : Instruction) : Category :=
  match i.action with
  | .operation op => op.category
  | .literal _ => .literal

end Instruction

/-- One line of a journal: an instruction that an enricher has seen. -/
structure JournalEntry where
  file : Name
  method : Int
  position : Nat
  deriving DecidableEq, Repr

/-- What recording enrichers have seen, earliest first. -/
abbrev Journal := List JournalEntry

end StackFront
