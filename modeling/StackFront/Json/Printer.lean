import StackFront.Json
import StackFront.Text.Hex

/-!
# Writing JSON

Two layouts of one value: the compact one has no blanks, the indented one puts every item on a line
of its own. Texts are escaped to the printable ASCII characters, characters beyond the basic plane
as surrogate pairs.
-/
namespace StackFront.Json

/-- One escaped unit of sixteen bits. -/
def escapedUnit (n : Nat) : List Char :=
  '\\' :: 'u' :: Text.hex 4 n

/-- A character inside a JSON string. -/
def escapedChar (c : Char) : List Char :=
  if c = '\x22' ∨ c = '\\' then ['\\', c]
  else if c = '\n' then ['\\', 'n']
  else if c = '\r' then ['\\', 'r']
  else if c = '\t' then ['\\', 't']
  else if c = '\x08' then ['\\', 'b']
  else if c = '\x0c' then ['\\', 'f']
  else if ' ' ≤ c ∧ c ≤ '~' then [c]
  else if c.toNat < 0x10000 then escapedUnit c.toNat
  else
    let n := c.toNat - 0x10000
    escapedUnit (0xD800 + n / 0x400) ++ escapedUnit (0xDC00 + n % 0x400)

/-- A JSON string with its quotes. -/
def printedString (s : String) : List Char :=
  '\x22' :: s.toList.flatMap escapedChar ++ ['\x22']

mutual

/-- A value without blanks. -/
def compact : Json → List Char
  | null => ['n', 'u', 'l', 'l']
  | bool true => ['t', 'r', 'u', 'e']
  | bool false => ['f', 'a', 'l', 's', 'e']
  | number n => n.printed
  | string s => printedString s
  | array items => '[' :: compactItems items ++ [']']
  | object members => '\x7b' :: compactMembers members ++ ['\x7d']

def compactItems : List Json → List Char
  | [] => []
  | [v] => compact v
  | v :: w :: rest => compact v ++ ',' :: compactItems (w :: rest)

def compactMembers : List (String × Json) → List Char
  | [] => []
  | [(key, v)] => printedString key ++ ':' :: compact v
  | (key, v) :: m :: rest =>
    printedString key ++ ':' :: compact v ++ ',' :: compactMembers (m :: rest)

end

/-- A line end and the blanks before what stands at the given depth. -/
def lineAt (depth : Nat) : List Char :=
  '\n' :: List.replicate (2 * depth) ' '

mutual

/-- A value that stands at the given depth, its items one level deeper on lines of their own. -/
def indented (depth : Nat) : Json → List Char
  | null => ['n', 'u', 'l', 'l']
  | bool true => ['t', 'r', 'u', 'e']
  | bool false => ['f', 'a', 'l', 's', 'e']
  | number n => n.printed
  | string s => printedString s
  | array [] => ['[', ']']
  | array (v :: rest) => '[' :: indentedItems (depth + 1) (v :: rest) ++ lineAt depth ++ [']']
  | object [] => ['\x7b', '\x7d']
  | object (m :: rest) =>
    '\x7b' :: indentedMembers (depth + 1) (m :: rest) ++ lineAt depth ++ ['\x7d']

def indentedItems (depth : Nat) : List Json → List Char
  | [] => []
  | [v] => lineAt depth ++ indented depth v
  | v :: w :: rest => lineAt depth ++ indented depth v ++ ',' :: indentedItems depth (w :: rest)

def indentedMembers (depth : Nat) : List (String × Json) → List Char
  | [] => []
  | [(key, v)] => lineAt depth ++ printedString key ++ ':' :: ' ' :: indented depth v
  | (key, v) :: m :: rest =>
    lineAt depth ++ printedString key ++ ':' :: ' ' :: indented depth v ++
      ',' :: indentedMembers depth (m :: rest)

end

mutual

/-- What is written of an indented value before an integer that has too many digits, if it holds
one. The mark and the line end before an item are written together with the item. -/
def written? (depth : Nat) : Json → Option (List Char)
  | number (.integer n) => if isLong n then some [] else none
  | array items => writtenItems? '[' (depth + 1) items
  | object members => (writtenMembers? (depth + 1) members).map ('\x7b' :: ·)
  | _ => none

def writtenItems? (mark : Char) (depth : Nat) : List Json → Option (List Char)
  | [] => none
  | v :: rest =>
    match v, written? depth v with
    | number _, some part => some part
    | _, some part => some (mark :: lineAt depth ++ part)
    | v, none =>
      (writtenItems? ',' depth rest).map (mark :: lineAt depth ++ indented depth v ++ ·)

def writtenMembers? (depth : Nat) : List (String × Json) → Option (List Char)
  | [] => none
  | (key, v) :: rest =>
    let before := lineAt depth ++ printedString key ++ [':', ' ']
    match written? depth v with
    | some part => some (before ++ part)
    | none => (writtenMembers? depth rest).map (before ++ indented depth v ++ ',' :: ·)

end

end StackFront.Json
