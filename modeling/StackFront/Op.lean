import StackFront.Opcode
import StackFront.ParseError

/-!
# Operations of a method

A method body is read one character at a time: each character of the alphabet stands for one
operation, an opcode or a hexadecimal digit.
-/
namespace StackFront

/-- One operation of a method. -/
inductive Op where
  | opcode (op : Opcode)
  | literal (n : Fin 16)
  deriving DecidableEq, Repr

namespace Op

def category : Op → Category
  | opcode op => op.category
  | literal _ => .literal

/-- The name shared by all literals. -/
def literalName : String := "VALUE"

def name : Op → String
  | opcode op => op.name
  | literal _ => literalName

/-- The digits of the literals, from zero up. -/
def digits : List Char :=
  ['0', '1', '2', '3', '4', '5', '6', '7', '8', '9', 'a', 'b', 'c', 'd', 'e', 'f']

/-- The digit of a literal. -/
def digit (n : Fin 16) : Char :=
  digits[n]

/-- The literal of a digit. -/
def ofDigit? (c : Char) : Option (Fin 16) :=
  (List.finRange 16).find? fun n => digit n = c

/-- The operation that a character stands for. -/
def ofChar? (c : Char) : Option Op :=
  match Opcode.ofChar? c with
  | some op => some (opcode op)
  | none => (ofDigit? c).map literal

/-- The character that stands for an operation; opcodes without a character of their own have
none. -/
def char? : Op → Option Char
  | opcode op => op.char?
  | literal n => some (digit n)

/-- The characters that stand for operations. -/
def alphabet : List Char :=
  Opcode.all.filterMap Opcode.char? ++ digits

/-- The operation that a text of one character stands for. -/
def decode (text : String) : Except ParseError Op :=
  match text.toList with
  | [c] =>
    match ofChar? c with
    | some op => .ok op
    | none => .error { reason := .unrecognized text }
  | _ => .error { reason := .unrecognized text }

/-- Reads operations as far as the characters belong to the alphabet. The second part is the first
character that does not, with its column, where the text begins at `column`. -/
def scan (column : Nat) : List Char → List Op × Option (Nat × Char)
  | [] => ([], none)
  | c :: rest =>
    match ofChar? c with
    | some op =>
      let read := scan (column + 1) rest
      (op :: read.1, read.2)
    | none => ([], some (column, c))

/-- Reads a method body, found on the given line. -/
def tokenize (text : List Char) (line : Option Int) : List Op × Option ParseError :=
  let read := scan 1 text
  (read.1, read.2.map fun stop =>
    { reason := .unrecognized stop.2.toString, line, column := some stop.1 })

end Op

end StackFront
