import StackFront.Json.Number
import StackFront.Text.Quoted

/-!
# JSON values

Values of the interchange format that images are written in. The members of an object keep the order
in which they were given, and strings are sequences of Unicode scalar values.
-/
namespace StackFront

/-- A JSON value. -/
inductive Json where
  | null
  | bool (b : Bool)
  | number (n : Json.Number)
  | string (s : String)
  | array (items : List Json)
  | object (members : List (String × Json))
  deriving Inhabited

namespace Json

/-- The value of a key among the members of an object. -/
def member? (members : List (String × Json)) (key : String) : Option Json :=
  (members.find? fun m => m.1 = key).map (·.2)

/-- Sets the value of a key; a new key goes to the end, a present one keeps its place. -/
def setMember (key : String) (value : Json) : List (String × Json) → List (String × Json)
  | [] => [(key, value)]
  | m :: rest => if m.1 = key then (key, value) :: rest else m :: setMember key value rest

/-- The nibble that a value is equal to. Truth values count as zero and one. -/
def nibble? : Json → Option (Fin 16)
  | bool b => Number.nibble? (.integer (if b then 1 else 0))
  | number n => n.nibble?
  | _ => none

mutual

/-- Whether an integer in a value has too many digits to be written. -/
def hasLong : Json → Bool
  | number (.integer n) => isLong n
  | array items => hasLongItems items
  | object members => hasLongMembers members
  | _ => false

def hasLongItems : List Json → Bool
  | [] => false
  | v :: rest => hasLong v || hasLongItems rest

def hasLongMembers : List (String × Json) → Bool
  | [] => false
  | (_, v) :: rest => hasLong v || hasLongMembers rest

end

mutual

/-- A value as messages show it: quoted texts, capitalised constants, and brackets with one blank
after each comma. -/
def shown : Json → String
  | null => "None"
  | bool true => "True"
  | bool false => "False"
  | number n => n.shown
  | string s => Text.quote s
  | array items => "[" ++ ", ".intercalate (shownItems items) ++ "]"
  | object members => "\x7b" ++ ", ".intercalate (shownMembers members) ++ "\x7d"

def shownItems : List Json → List String
  | [] => []
  | v :: rest => shown v :: shownItems rest

def shownMembers : List (String × Json) → List String
  | [] => []
  | (key, v) :: rest => (Text.quote key ++ ": " ++ shown v) :: shownMembers rest

end

/-- Several values as messages show them, in round brackets; after a single one stands a comma. -/
def shownTuple : List Json → String
  | [v] => "(" ++ shown v ++ ",)"
  | vs => "(" ++ ", ".intercalate (vs.map shown) ++ ")"

/-- A value written into a text: strings stand as they are, all else as messages show it. -/
def spliced : Json → String
  | string s => s
  | v => shown v

end Json

end StackFront
