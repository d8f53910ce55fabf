import StackFront.Json
import StackFront.Text.Hex
import StackFront.Text.Numeral

/-!
# Reading JSON

Each reader returns what it read together with the text that remains, or the place where it
stopped as the text that remained there. A place is turned into line, column and offset only when
the error is shown. Integers of more than `Text.maxDigits` digits are not read.

Escapes may stand for single halves of surrogate pairs, which no string here can hold. A text with
such an escape that is a value otherwise is outside of what is described: it is refused by an error
of its own.
-/
namespace StackFront.Json

/-- What is wrong at the place where a reader stopped. -/
inductive Problem where
  | value
  | propertyName
  | colon
  | comma
  | extraData
  | unterminatedString
  | controlCharacter
  | escape
  | unicodeEscape
  | byteOrderMark
  deriving DecidableEq, Repr

def Problem.message : Problem → String
  | .value => "Expecting value"
  | .propertyName => "Expecting property name enclosed in double quotes"
  | .colon => "Expecting ':' delimiter"
  | .comma => "Expecting ',' delimiter"
  | .extraData => "Extra data"
  | .unterminatedString => "Unterminated string starting at"
  | .controlCharacter => "Invalid control character at"
  | .escape => "Invalid \\escape"
  | .unicodeEscape => "Invalid \\uXXXX escape"
  | .byteOrderMark => "Unexpected UTF-8 BOM (decode using utf-8-sig)"

/-- A text that is not a JSON value, or not one that is described here. -/
inductive ReadError where
  /-- Line and column count from one, the offset from zero. -/
  | malformed (problem : Problem) (line column offset : Nat)
  | numberTooLong (digits : Nat)
  /-- A string of the value has half of a surrogate pair, alone. -/
  | loneHalf
  deriving DecidableEq, Repr

def ReadError.message : ReadError → String
  | .malformed problem line column offset =>
    s!"{problem.message}: line {line} column {column} (char {offset})"
  | .numberTooLong digits =>
    s!"Exceeds the limit ({Text.maxDigits} digits) for integer string conversion: value has " ++
      s!"{digits} digits; use sys.set_int_max_str_digits() to increase the limit"
  | .loneHalf => "half of a surrogate pair"

/-- Where and why a reader stopped; `rest` is the text from that place on. -/
inductive Stop where
  | malformed (problem : Problem) (rest : List Char)
  | numberTooLong (digits : Nat)
  | loneHalf

/-- The error of a stop within `text`. -/
def Stop.toError (text : List Char) : Stop → ReadError
  | .numberTooLong digits => .numberTooLong digits
  | .loneHalf => .loneHalf
  | .malformed problem rest =>
    let offset := text.length - rest.length
    let before := text.take offset
    .malformed problem (before.count '\n' + 1)
      ((before.reverse.takeWhile (· ≠ '\n')).length + 1) offset

/-- Blanks between the parts of a JSON text. -/
def isBlank (c : Char) : Bool :=
  c = ' ' || c = '\t' || c = '\n' || c = '\r'

def skipBlanks (s : List Char) : List Char :=
  s.dropWhile isBlank

/-- Reads the four digits of an escaped unit. Some character has to follow them. -/
def readUnit? : List Char → Option (Nat × List Char)
  | a :: b :: c :: d :: e :: rest => (Text.hexValue? [a, b, c, d]).map (·, e :: rest)
  | _ => none

theorem length_of_readUnit? {s rest : List Char} {n : Nat} (h : readUnit? s = some (n, rest)) :
    rest.length + 4 = s.length := by
  unfold readUnit? at h
  split at h
  · simp only [Option.map_eq_some_iff, Prod.mk.injEq] at h
    obtain ⟨_, _, _, rfl⟩ := h
    simp
  · cases h

/-- The character of a one-letter escape. -/
def letterEscape? (c : Char) : Option Char :=
  if c = '\x22' ∨ c = '\\' ∨ c = '/' then some c
  else if c = 'b' then some '\x08'
  else if c = 'f' then some '\x0c'
  else if c = 'n' then some '\n'
  else if c = 'r' then some '\r'
  else if c = 't' then some '\t'
  else none

/-- The escape that follows the first half of a surrogate pair. -/
inductive SecondHalf where
  /-- There is no second escape, or it is not a second half. -/
  | absent
  | malformed (rest : List Char)
  | present (n : Nat)

/-- Looks for the second half of a surrogate pair, which takes six characters and may not end the
text. -/
def secondHalf (s : List Char) : SecondHalf :=
  match s with
  | '\\' :: 'u' :: a :: b :: c :: d :: _ :: _ =>
    match Text.hexValue? [a, b, c, d] with
    | none => .malformed (s.drop 1)
    | some n => if 0xDC00 ≤ n ∧ n < 0xE000 then .present n else .absent
  | _ => .absent

set_option linter.unusedVariables false in
/-- Whether a text, whose backslashes all stand in strings, has an escape for half of a surrogate
pair without the other half. -/
def hasLoneHalf (s : List Char) : Bool :=
  match s with
  | [] => false
  | c :: rest =>
    if c = '\\' then
      match rest with
      | [] => false
      | e :: rest =>
        if e = 'u' then
          match h : readUnit? rest with
          | none => false
          | some (n, rest) =>
            if 0xD800 ≤ n ∧ n < 0xDC00 then
              match secondHalf rest with
              | .present _ => hasLoneHalf (rest.drop 6)
              | _ => true
            else if 0xDC00 ≤ n ∧ n < 0xE000 then true
            else hasLoneHalf rest
        else hasLoneHalf rest
    else hasLoneHalf rest
termination_by s.length
decreasing_by
  · have := length_of_readUnit? h
    simp only [List.length_cons, List.length_drop]
    omega
  · have := length_of_readUnit? h
    simp only [List.length_cons]
    omega
  · simp only [List.length_cons]
    omega
  · exact Nat.lt_succ_self _

set_option linter.unusedVariables false in
/-- Reads a string after its opening quote; `opening` is the text from that quote on. In the place
of half of a surrogate pair that stands alone, the replacement character is read. -/
def readString (opening : List Char) (s : List Char) :
    Except Stop (List Char × List Char) :=
  match s with
  | [] => .error (.malformed .unterminatedString opening)
  | c :: rest =>
    if c = '\x22' then .ok ([], rest)
    else if c = '\\' then
      match rest with
      | [] => .error (.malformed .unterminatedString opening)
      | e :: rest =>
        if e = 'u' then
          match h : readUnit? rest with
          | none => .error (.malformed .unicodeEscape (e :: rest))
          | some (n, rest) =>
            if 0xD800 ≤ n ∧ n < 0xDC00 then
              match secondHalf rest with
              | .malformed place => .error (.malformed .unicodeEscape place)
              | .present m =>
                (readString opening (rest.drop 6)).map fun read =>
                  (Char.ofNat (0x10000 + (n - 0xD800) * 0x400 + (m - 0xDC00)) :: read.1, read.2)
              | .absent =>
                (readString opening rest).map fun read => ('\ufffd' :: read.1, read.2)
            else
              (readString opening rest).map fun read =>
                ((if 0xDC00 ≤ n ∧ n < 0xE000 then '\ufffd' else Char.ofNat n) :: read.1, read.2)
        else
          match letterEscape? e with
          | none => .error (.malformed .escape (c :: e :: rest))
          | some d => (readString opening rest).map fun read => (d :: read.1, read.2)
    else if c < ' ' then .error (.malformed .controlCharacter (c :: rest))
    else (readString opening rest).map fun read => (c :: read.1, read.2)
termination_by s.length
decreasing_by
  · have := length_of_readUnit? h
    simp only [List.length_cons, List.length_drop]
    omega
  · have := length_of_readUnit? h
    simp only [List.length_cons]
    omega
  · have := length_of_readUnit? h
    simp only [List.length_cons]
    omega
  · simp only [List.length_cons]
    omega
  · exact Nat.lt_succ_self _

/-- Reads the digits of a number: a single zero, or a run that does not begin with one. -/
def readDigits (s : List Char) : List Char × List Char :=
  match s with
  | '0' :: rest => (['0'], rest)
  | _ => (s.takeWhile Char.isDigit, s.dropWhile Char.isDigit)

/-- The natural number with the given decimal digits. -/
def natOfDigits (digits : List Char) : Nat :=
  Text.ofDigits (digits.map fun c => c.toNat - '0'.toNat)

/-- Reads the digits of a fraction. A point without a digit behind it is left alone. -/
def readFraction (s : List Char) : List Char × List Char :=
  match s with
  | '.' :: rest =>
    match rest.takeWhile Char.isDigit with
    | [] => ([], s)
    | digits => (digits, rest.dropWhile Char.isDigit)
  | _ => ([], s)

/-- Takes a minus sign off. -/
def readSign (s : List Char) : Bool × List Char :=
  match s with
  | '-' :: rest => (true, rest)
  | _ => (false, s)

/-- Reads a power of ten, if there is one that has a digit. -/
def readPower (s : List Char) : Option Int × List Char :=
  match s with
  | [] => (none, s)
  | c :: rest =>
    if c = 'e' ∨ c = 'E' then
      let (negative, unsigned) :=
        match rest with
        | '+' :: rest => (false, rest)
        | _ => readSign rest
      match unsigned.takeWhile Char.isDigit with
      | [] => (none, s)
      | digits =>
        let n := natOfDigits digits
        (some (if negative then -(n : Int) else n), unsigned.dropWhile Char.isDigit)
    else (none, s)

/-- The words for floats that are not finite. -/
def readWord? (s : List Char) : Option (Float × List Char) :=
  match s with
  | 'N' :: 'a' :: 'N' :: rest => some (0 / 0, rest)
  | 'I' :: 'n' :: 'f' :: 'i' :: 'n' :: 'i' :: 't' :: 'y' :: rest => some (1 / 0, rest)
  | '-' :: 'I' :: 'n' :: 'f' :: 'i' :: 'n' :: 'i' :: 't' :: 'y' :: rest => some (-1 / 0, rest)
  | _ => none

/-- The number with the given sign and digits, some of them behind a point, times a power of ten.
It is an integer if it has neither fraction nor power. -/
def numberOf (negative : Bool) (digits fraction : List Char) (power? : Option Int) :
    Except Stop Number :=
  match fraction, power? with
  | [], none =>
    if digits.length > Text.maxDigits then .error (.numberTooLong digits.length)
    else
      let n := natOfDigits digits
      .ok (.integer (if negative then -(n : Int) else n))
  | fraction, power? =>
    let x := ofUnits (natOfDigits (digits ++ fraction)) (power?.getD 0 - fraction.length)
    .ok (.float (if negative then -x else x))

/-- Reads what stands behind the sign of a number; `signed` is the text from the sign on. -/
def readUnsigned (signed : List Char) (negative : Bool) (s : List Char) :
    Except Stop (Number × List Char) :=
  let (digits, rest) := readDigits s
  if digits = [] then .error (.malformed .value signed)
  else
    let (fraction, rest) := readFraction rest
    let (power?, rest) := readPower rest
    (numberOf negative digits fraction power?).map (·, rest)

/-- Reads a number. -/
def readNumber (s : List Char) : Except Stop (Number × List Char) :=
  match readWord? s with
  | some (x, rest) => .ok (.float x, rest)
  | none =>
    let (negative, unsigned) := readSign s
    readUnsigned s negative unsigned

mutual

/-- Reads a value that begins at once. -/
def readValue (fuel : Nat) (s : List Char) : Except Stop (Json × List Char) :=
  match fuel with
  | 0 => .error (.malformed .value s)
  | fuel + 1 =>
    match s with
    | '\x22' :: rest =>
      (readString s rest).map fun read => (.string (String.ofList read.1), read.2)
    | '\x7b' :: rest =>
      match skipBlanks rest with
      | '\x7d' :: rest => .ok (.object [], rest)
      | rest => (readMembers fuel [] rest).map fun read => (.object read.1, read.2)
    | '[' :: rest =>
      match skipBlanks rest with
      | ']' :: rest => .ok (.array [], rest)
      | rest => (readItems fuel rest).map fun read => (.array read.1, read.2)
    | 'n' :: 'u' :: 'l' :: 'l' :: rest => .ok (.null, rest)
    | 't' :: 'r' :: 'u' :: 'e' :: rest => .ok (.bool true, rest)
    | 'f' :: 'a' :: 'l' :: 's' :: 'e' :: rest => .ok (.bool false, rest)
    | _ => (readNumber s).map fun read => (.number read.1, read.2)

/-- Reads one or more items and the closing bracket. -/
def readItems (fuel : Nat) (s : List Char) : Except Stop (List Json × List Char) :=
  match fuel with
  | 0 => .error (.malformed .value s)
  | fuel + 1 =>
    match readValue fuel s with
    | .error stop => .error stop
    | .ok (v, rest) =>
      match skipBlanks rest with
      | ']' :: rest => .ok ([v], rest)
      | ',' :: rest =>
        (readItems fuel (skipBlanks rest)).map fun read => (v :: read.1, read.2)
      | rest => .error (.malformed .comma rest)

/-- Reads one or more members and the closing brace, and adds them to those `known` before. -/
def readMembers (fuel : Nat) (known : List (String × Json)) (s : List Char) :
    Except Stop (List (String × Json) × List Char) :=
  match fuel with
  | 0 => .error (.malformed .value s)
  | fuel + 1 =>
    match s with
    | '\x22' :: rest =>
      match readString s rest with
      | .error stop => .error stop
      | .ok (key, rest) =>
        match skipBlanks rest with
        | ':' :: rest =>
          match readValue fuel (skipBlanks rest) with
          | .error stop => .error stop
          | .ok (v, rest) =>
            let known := setMember (String.ofList key) v known
            match skipBlanks rest with
            | '\x7d' :: rest => .ok (known, rest)
            | ',' :: rest => readMembers fuel known (skipBlanks rest)
            | rest => .error (.malformed .comma rest)
        | rest => .error (.malformed .colon rest)
    | _ => .error (.malformed .propertyName s)

end

/-- Enough fuel for any text: every second step at the latest takes a character. -/
def readFuel (s : List Char) : Nat :=
  2 * s.length + 2

/-- Reads a whole text as one value with blanks around it. -/
def readAll (s : List Char) : Except Stop Json :=
  if s.head? = some '\ufeff' then .error (.malformed .byteOrderMark s)
  else
    match readValue (readFuel s) (skipBlanks s) with
    | .error stop => .error stop
    | .ok (v, rest) =>
      match skipBlanks rest with
      | [] => if hasLoneHalf s then .error .loneHalf else .ok v
      | rest => .error (.malformed .extraData rest)

/-- Reads a JSON text. -/
def read (text : List Char) : Except ReadError Json :=
  (readAll text).mapError (Stop.toError text)

end StackFront.Json
