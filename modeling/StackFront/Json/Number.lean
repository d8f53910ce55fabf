import StackFront.Text.Numeral

/-!
# Numbers

A number is an integer of any length or a float of double precision. An integer is written only if
it has no more than `Text.maxDigits` digits. A float is written with as few digits as tell it from
all other floats, and of these with the nearest: with a point as long as this takes no long run of
zeros, and with a power of ten otherwise.
-/
namespace StackFront.Json

/-- A number. -/
inductive Number where
  | integer (n : Int)
  | float (x : Float)
  deriving DecidableEq, Inhabited

instance : Coe Int Number := ⟨.integer⟩

/-- Whether an integer has too many digits to be written. -/
def isLong (n : Int) : Bool :=
  Text.maxDigits < (Nat.toDigits 10 n.natAbs).length

/-- The decimal digits of an integer. -/
def printedNumber (n : Int) : List Char :=
  match n with
  | .ofNat n => Nat.toDigits 10 n
  | .negSucc n => '-' :: Nat.toDigits 10 (n + 1)

/-- The magnitude of a finite float as a fraction. -/
def fraction (x : Float) : Nat × Nat :=
  let bits := x.toBits.toNat
  let low := bits % 0x10000000000000
  let exponent := bits / 0x10000000000000 % 0x800
  -- the least numbers have no leading bit that is left out
  if exponent = 0 then (low, 1 <<< 1074)
  else ((low + 0x10000000000000) <<< (exponent - 1075), 1 <<< (1075 - exponent))

/-- The power of ten of the first digit of a positive fraction. -/
def leadingPower (num den : Nat) : Int :=
  if den ≤ num then ((Nat.toDigits 10 (num / den)).length : Int) - 1
  else -((Nat.toDigits 10 ((den - 1) / num)).length : Int)

/-- The whole numbers next to a fraction, the nearer one first; of two that are as near, the even
one. -/
def neighbours (num den : Nat) : List Nat :=
  let low := num / den
  let twice := 2 * (num % den)
  if twice < den ∨ twice = den ∧ low % 2 = 0 then [low, low + 1] else [low + 1, low]

/-- The float nearest to a whole number of units that are a power of ten. -/
def ofUnits (n : Nat) (power : Int) : Float :=
  Float.ofScientific n (power < 0) power.natAbs

/-- The numbers of at most 17 digits next to a positive float, each with the power of ten of its
unit, those of few digits first. -/
def candidates (x : Float) : List (Nat × Int) :=
  let (num, den) := fraction x
  let first := leadingPower num den
  (List.range 17).flatMap fun (more : Nat) =>
    let power := first - more
    (neighbours (num * Nat.pow 10 (-power).toNat) (den * Nat.pow 10 power.toNat)).map (·, power)

/-- The shortest number that a positive float is the nearest float to. -/
def shortest (x : Float) : Nat × Int :=
  ((candidates x).find? fun c => ofUnits c.1 c.2 == x).getD (0, 0)

/-- Digits with the decimal point after the given number of them, where the point may stand before
or behind them all. -/
def pointed (digits : List Char) (point : Int) : List Char :=
  if point ≤ 0 then '0' :: '.' :: List.replicate (-point).toNat '0' ++ digits
  else if digits.length ≤ point then
    digits ++ List.replicate (point.toNat - digits.length) '0' ++ ['.', '0']
  else digits.take point.toNat ++ '.' :: digits.drop point.toNat

/-- Digits with the point after the first of them, times a power of ten. -/
def scaled (digits : List Char) (power : Int) : List Char :=
  let mantissa :=
    match digits with
    | d :: e :: rest => d :: '.' :: e :: rest
    | digits => digits
  let size := Nat.toDigits 10 power.natAbs
  mantissa ++ 'e' :: (if power < 0 then '-' else '+') ::
    List.replicate (2 - size.length) '0' ++ size

/-- A positive float. -/
def printedPositive (x : Float) : List Char :=
  let (n, power) := shortest x
  let all := Nat.toDigits 10 n
  let digits := (all.reverse.dropWhile (· = '0')).reverse
  let point := power + all.length
  if -4 < point ∧ point ≤ 16 then pointed digits point else scaled digits (point - 1)

/-- A float, with words for what is not finite. -/
def printedFloat (infinity nan : List Char) (x : Float) : List Char :=
  let signed : Bool := 0x8000000000000000 ≤ x.toBits
  let magnitude := if signed then -x else x
  let unsigned :=
    if magnitude.isInf then infinity
    else if magnitude == 0 then ['0', '.', '0']
    else printedPositive magnitude
  if x.isNaN then nan
  else if signed then '-' :: unsigned
  else unsigned

namespace Number

/-- A number as it stands in a JSON text. -/
def printed : Number → List Char
  | integer n => printedNumber n
  | float x => printedFloat "Infinity".toList "NaN".toList x

/-- A number as messages show it. -/
def shown : Number → String
  | integer n => toString n
  | float x => String.ofList (printedFloat "inf".toList "nan".toList x)

/-- The nibble that a number is equal to. -/
def nibble? (n : Number) : Option (Fin 16) :=
  (List.finRange 16).find? fun k =>
    match n with
    | integer n => k.val = n
    | float x => Float.ofNat k.val == x

end Number

end StackFront.Json
