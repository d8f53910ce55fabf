/-!
# Decimal numerals

A numeral is an optional sign and decimal digits of any script, single underscores between them
allowed and blanks around the whole ignored. Numerals of more than `maxDigits` digits are refused,
so that no argument can cost quadratic time.
-/
namespace StackFront.Text

/-- The zeros of the decimal digit sequences of version 14.0 of the Unicode Character Database;
the digits one to nine follow each of them. -/
def decimalZeros : List Nat := [
  0x30, 0x660, 0x6f0, 0x7c0, 0x966, 0x9e6, 0xa66, 0xae6, 0xb66, 0xbe6, 0xc66, 0xce6, 0xd66,
  0xde6, 0xe50, 0xed0, 0xf20, 0x1040, 0x1090, 0x17e0, 0x1810, 0x1946, 0x19d0, 0x1a80, 0x1a90,
  0x1b50, 0x1bb0, 0x1c40, 0x1c50, 0xa620, 0xa8d0, 0xa900, 0xa9d0, 0xa9f0, 0xaa50, 0xabf0, 0xff10,
  0x104a0, 0x10d30, 0x11066, 0x110f0, 0x11136, 0x111d0, 0x112f0, 0x11450, 0x114d0, 0x11650,
  0x116c0, 0x11730, 0x118e0, 0x11950, 0x11c50, 0x11d50, 0x11da0, 0x16a60, 0x16ac0, 0x16b50,
  0x1d7ce, 0x1d7d8, 0x1d7e2, 0x1d7ec, 0x1d7f6, 0x1e140, 0x1e2f0, 0x1e950, 0x1fbf0]

/-- The value of a decimal digit of any script. -/
def decimalDigit? (c : Char) : Option Nat :=
  (decimalZeros.find? fun low => low ≤ c.toNat && c.toNat ≤ low + 9).map (c.toNat - ·)

/-- Blanks that may surround a numeral. The separators U+001C to U+001F are not among them. -/
def isBlank (c : Char) : Bool :=
  let n := c.toNat
  (9 ≤ n && n ≤ 13) || n = 0x20 || n = 0x85 || n = 0xA0 || n = 0x1680 ||
    (0x2000 ≤ n && n ≤ 0x200A) || n = 0x2028 || n = 0x2029 || n = 0x202F || n = 0x205F ||
    n = 0x3000

/-- Drops the blanks at both ends. -/
def trimBlanks (s : List Char) : List Char :=
  ((s.dropWhile isBlank).reverse.dropWhile isBlank).reverse

/-- The greatest number of digits that a numeral may have. -/
def maxDigits : Nat := 4300

/-- The digits of a numeral, with single underscores between digits skipped. -/
def digits? : List Char → Option (List Nat)
  | [] => none
  | [c] => (decimalDigit? c).map fun d => [d]
  | c :: '_' :: rest =>
    match decimalDigit? c, digits? rest with
    | some d, some ds => some (d :: ds)
    | _, _ => none
  | c :: rest =>
    match decimalDigit? c, digits? rest with
    | some d, some ds => some (d :: ds)
    | _, _ => none

/-- The natural number with the given decimal digits, highest first. -/
def ofDigits (ds : List Nat) : Nat :=
  ds.foldl (fun n d => 10 * n + d) 0

/-- Reads the digits after the sign. -/
def readMagnitude? (s : List Char) : Option Nat :=
  match digits? s with
  | some ds => if ds.length ≤ maxDigits then some (ofDigits ds) else none
  | none => none

/-- Reads a numeral. -/
def readInt? (s : String) : Option Int :=
  match trimBlanks s.toList with
  | '-' :: rest => (readMagnitude? rest).map fun n => -(n : Int)
  | '+' :: rest => (readMagnitude? rest).map fun n => (n : Int)
  | rest => (readMagnitude? rest).map fun n => (n : Int)

end StackFront.Text
