import StackFront.Text.Hex

/-!
# Encodings of text

A file holds octets; an encoding reads them as text or names the first place where that fails. Any
function that does so is an encoding; three are provided. The UTF-8 reader accepts exactly the
shortest form of each scalar value and reports the longest run of octets that could have begun a
character.
-/
namespace StackFront.Text

/-- Why some octets are not text. -/
inductive Malformation where
  /-- No character begins with this octet. -/
  | start
  /-- A character was begun, and the next octet does not continue it. -/
  | continuation
  /-- The octets end inside a character. -/
  | ending
  /-- The octet is above the range of the encoding. -/
  | range
  /-- What an encoding says in words of its own. -/
  | stated (text : String)
  deriving DecidableEq, Repr

def Malformation.message : Malformation → String
  | .start => "invalid start byte"
  | .continuation => "invalid continuation byte"
  | .ending => "unexpected end of data"
  | .range => "ordinal not in range(128)"
  | .stated text => text

/-- Where octets stop being text: the place of the offending run, its first octet and its length,
and the name by which the encoding is known. -/
structure DecodeError where
  encoding : String
  position : Nat
  octet : UInt8
  length : Nat
  malformation : Malformation
  deriving DecidableEq, Repr

def DecodeError.message (e : DecodeError) : String :=
  let place :=
    if e.length = 1 then
      s!"byte 0x{String.ofList (hex 2 e.octet.toNat)} in position {e.position}"
    else s!"bytes in position {e.position}-{e.position + e.length - 1}"
  s!"'{e.encoding}' codec can't decode {place}: {e.malformation.message}"

/-- An encoding that sources may be stored in: how it reads octets. -/
structure Encoding where
  decode : List UInt8 → Except DecodeError (List Char)

/-- The least and greatest octets that may follow the first octet of a longer character. -/
def secondRange (first : UInt8) : UInt8 × UInt8 :=
  if first = 0xE0 then (0xA0, 0xBF)
  else if first = 0xED then (0x80, 0x9F)
  else if first = 0xF0 then (0x90, 0xBF)
  else if first = 0xF4 then (0x80, 0x8F)
  else (0x80, 0xBF)

/-- Whether `second` may follow `first`. -/
def follows (first second : UInt8) : Bool :=
  (secondRange first).1 ≤ second && second ≤ (secondRange first).2

/-- Whether an octet may stand third or fourth in a character. -/
def continues (octet : UInt8) : Bool :=
  0x80 ≤ octet && octet ≤ 0xBF

/-- The low six bits that a continuing octet carries. -/
def payload (octet : UInt8) : Nat :=
  octet.toNat % 64

/-- Reads UTF-8 from octets that begin at `position`. -/
def decodeUtf8 (position : Nat) : List UInt8 → Except DecodeError (List Char)
  | [] => .ok []
  | a :: rest =>
    let fail (length : Nat) (m : Malformation) : Except DecodeError (List Char) :=
      .error ⟨"utf-8", position, a, length, m⟩
    if a < 0x80 then
      (decodeUtf8 (position + 1) rest).map (Char.ofNat a.toNat :: ·)
    else if a < 0xC2 then fail 1 .start
    else if a < 0xE0 then
      match rest with
      | [] => fail 1 .ending
      | b :: rest =>
        if follows a b then
          (decodeUtf8 (position + 2) rest).map
            (Char.ofNat (a.toNat % 32 * 64 + payload b) :: ·)
        else fail 1 .continuation
    else if a < 0xF0 then
      match rest with
      | [] => fail 1 .ending
      | b :: rest =>
        if follows a b then
          match rest with
          | [] => fail 2 .ending
          | c :: rest =>
            if continues c then
              (decodeUtf8 (position + 3) rest).map
                (Char.ofNat ((a.toNat % 16 * 64 + payload b) * 64 + payload c) :: ·)
            else fail 2 .continuation
        else fail 1 .continuation
    else if a < 0xF5 then
      match rest with
      | [] => fail 1 .ending
      | b :: rest =>
        if follows a b then
          match rest with
          | [] => fail 2 .ending
          | c :: rest =>
            if continues c then
              match rest with
              | [] => fail 3 .ending
              | d :: rest =>
                if continues d then
                  (decodeUtf8 (position + 4) rest).map
                    (Char.ofNat
                      (((a.toNat % 8 * 64 + payload b) * 64 + payload c) * 64 + payload d) :: ·)
                else fail 3 .continuation
            else fail 2 .continuation
        else fail 1 .continuation
    else fail 1 .start

/-- Reads one character an octet, refusing all above 127. -/
def decodeAscii (position : Nat) : List UInt8 → Except DecodeError (List Char)
  | [] => .ok []
  | a :: rest =>
    if a < 0x80 then (decodeAscii (position + 1) rest).map (Char.ofNat a.toNat :: ·)
    else .error ⟨"ascii", position, a, 1, .range⟩

def Encoding.utf8 : Encoding :=
  ⟨decodeUtf8 0⟩

def Encoding.ascii : Encoding :=
  ⟨decodeAscii 0⟩

/-- Every octet is a character. -/
def Encoding.latin1 : Encoding :=
  ⟨fun octets => .ok (octets.map fun a => Char.ofNat a.toNat)⟩

/-- A character is no surrogate. -/
theorem toNat_valid (c : Char) :
    c.toNat < 0xD800 ∨ 0xDFFF < c.toNat ∧ c.toNat < 0x110000 :=
  c.valid

theorem toNat_lt (c : Char) : c.toNat < 0x110000 := by
  have hvalid := toNat_valid c
  omega

/-- The UTF-8 octets of a character. -/
def encodeChar (c : Char) : List UInt8 :=
  let n := c.toNat
  let tail (k : Nat) : UInt8 := UInt8.ofNat (0x80 + n / k % 64)
  if n < 0x80 then [UInt8.ofNat n]
  else if n < 0x800 then [UInt8.ofNat (0xC0 + n / 64), tail 1]
  else if n < 0x10000 then [UInt8.ofNat (0xE0 + n / 4096), tail 64, tail 1]
  else [UInt8.ofNat (0xF0 + n / 262144), tail 4096, tail 64, tail 1]

/-- The UTF-8 octets of a text. -/
def encodeUtf8 (s : List Char) : List UInt8 :=
  s.flatMap encodeChar

end StackFront.Text
