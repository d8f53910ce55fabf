import Mathlib.Algebra.Group.Nat.Defs
import Mathlib.Tactic.SplitIfs
import StackFront.Json.Printer
import StackFront.Json.Reader
import StackFront.Text.Encoding

/-!
# Strings read back

Each character of a string is escaped on its own, and the reader takes off exactly what was written
for it. A unit of four hexadecimal digits is only read if some character follows it; inside a string
the closing quote does at the latest.
-/
namespace StackFront

namespace Text

theorem hexDigit?_digitChar {d : Nat} (h : d < 16) : hexDigit? (Nat.digitChar d) = some d := by
  have hall : ∀ d : Fin 16, hexDigit? (Nat.digitChar d) = some d.val := by decide
  exact hall ⟨d, h⟩

theorem hexValue?_append (digits : List Char) (c : Char) :
    hexValue? (digits ++ [c]) =
      (hexValue? digits).bind fun n => (hexDigit? c).map (16 * n + ·) := by
  simp only [hexValue?, List.foldlM_append, List.foldlM_cons, List.foldlM_nil]
  cases digits.foldlM (fun n c => (hexDigit? c).map (16 * n + ·)) 0 with
  | none => rfl
  | some n => cases hexDigit? c <;> rfl

/-- Digits of a fixed width hold what is left by division. -/
theorem hexValue?_hex (w n : Nat) : hexValue? (hex w n) = some (n % 16 ^ w) := by
  induction w generalizing n with
  | zero => simp [hex, hexValue?, Nat.mod_one]
  | succ w ih =>
    rw [hex, hexValue?_append, ih, hexDigit?_digitChar (Nat.mod_lt n (by decide)),
      Option.bind_some, Option.map_some, Option.some.injEq, Nat.pow_succ', Nat.mod_mul]
    exact Nat.add_comm _ _

/-- A unit of 16 bits is read back. -/
theorem hexValue?_hex_of_lt {n : Nat} (h : n < 0x10000) : hexValue? (hex 4 n) = some n := by
  have hpower : 16 ^ 4 = 0x10000 := rfl
  rw [hexValue?_hex, hpower, Nat.mod_eq_of_lt h]

end Text

namespace Json

variable {opening tail rest : List Char} {n : Nat} {c : Char}

/-- The four digits of a unit are four characters. -/
theorem exists_hex_four (n : Nat) : ∃ a b c d, Text.hex 4 n = [a, b, c, d] :=
  ⟨_, _, _, _, rfl⟩

theorem readUnit?_hex (hn : n < 0x10000) (htail : tail ≠ []) :
    readUnit? (Text.hex 4 n ++ tail) = some (n, tail) := by
  obtain ⟨e, rest, rfl⟩ := List.exists_cons_of_ne_nil htail
  obtain ⟨a, b, c, d, hdigits⟩ := exists_hex_four n
  have hvalue := Text.hexValue?_hex_of_lt hn
  rw [hdigits] at hvalue
  rw [hdigits, List.cons_append, List.cons_append, List.cons_append, List.cons_append,
    List.nil_append, readUnit?, hvalue, Option.map_some]

theorem secondHalf_escapedUnit (hlow : 0xDC00 ≤ n) (hhigh : n < 0xE000) (htail : tail ≠ []) :
    secondHalf (escapedUnit n ++ tail) = .present n := by
  obtain ⟨e, rest, rfl⟩ := List.exists_cons_of_ne_nil htail
  obtain ⟨a, b, c, d, hdigits⟩ := exists_hex_four n
  have hvalue := Text.hexValue?_hex_of_lt (Nat.lt_trans hhigh (by decide))
  rw [hdigits] at hvalue
  simp only [escapedUnit, hdigits, List.cons_append, List.nil_append, secondHalf, hvalue, hlow,
    hhigh, and_self, if_true]

theorem drop_escapedUnit (n : Nat) (tail : List Char) :
    (escapedUnit n ++ tail).drop 6 = tail := by
  obtain ⟨a, b, c, d, hdigits⟩ := exists_hex_four n
  simp [escapedUnit, hdigits]

/-- An escaped unit that is no half of a pair is a character. -/
theorem readString_unit (hn : n < 0xD800 ∨ 0xDFFF < n) (hlt : n < 0x10000) (htail : tail ≠ []) :
    readString opening (escapedUnit n ++ tail) =
      (readString opening tail).map fun read => (Char.ofNat n :: read.1, read.2) := by
  have hunit := readUnit?_hex hlt htail
  have hhigh : ¬ (0xD800 ≤ n ∧ n < 0xDC00) := by omega
  have hlow : ¬ (0xDC00 ≤ n ∧ n < 0xE000) := by omega
  rw [escapedUnit, List.cons_append, List.cons_append, readString]
  simp only [Char.reduceEq, if_true, if_false]
  split
  next hnone => simp [hunit] at hnone
  next m rest hsome =>
    rw [hunit, Option.some.injEq, Prod.mk.injEq] at hsome
    obtain ⟨rfl, rfl⟩ := hsome
    rw [if_neg hhigh, if_neg hlow]

/-- Two escaped units that are the halves of a pair are one character. -/
theorem readString_pair {m : Nat} (hn : n < 0x400) (hm : m < 0x400) (htail : tail ≠ []) :
    readString opening (escapedUnit (0xD800 + n) ++ (escapedUnit (0xDC00 + m) ++ tail)) =
      (readString opening tail).map fun read =>
        (Char.ofNat (0x10000 + n * 0x400 + m) :: read.1, read.2) := by
  have hsecond : escapedUnit (0xDC00 + m) ++ tail ≠ [] := by simp [htail]
  have hunit := readUnit?_hex (n := 0xD800 + n) (by omega) hsecond
  have hhigh : 0xD800 ≤ 0xD800 + n ∧ 0xD800 + n < 0xDC00 := by omega
  have hhalf := secondHalf_escapedUnit (n := 0xDC00 + m) (by omega) (by omega) htail
  rw [escapedUnit, List.cons_append, List.cons_append, readString]
  simp only [Char.reduceEq, if_true, if_false]
  split
  next hnone => simp [hunit] at hnone
  next k rest hsome =>
    rw [hunit, Option.some.injEq, Prod.mk.injEq] at hsome
    obtain ⟨rfl, rfl⟩ := hsome
    simp only [if_pos hhigh, hhalf, drop_escapedUnit, Nat.add_sub_cancel_left]

/-- A one-letter escape is the character that it stands for. -/
theorem readString_letter {e : Char} (h : letterEscape? e = some c) :
    readString opening ('\\' :: e :: tail) =
      (readString opening tail).map fun read => (c :: read.1, read.2) := by
  have he : e ≠ 'u' := by
    rintro rfl
    cases h
  rw [readString]
  simp only [Char.reduceEq, if_true, if_false, if_neg he, h]

/-- Any character but quote, backslash and control characters is itself. -/
theorem readString_plain (hquote : c ≠ '\x22') (hescape : c ≠ '\\') (hc : ¬ c < ' ') :
    readString opening (c :: tail) =
      (readString opening tail).map fun read => (c :: read.1, read.2) := by
  rw [readString.eq_def]
  simp only [if_neg hquote, if_neg hescape, if_neg hc]

theorem readString_quote : readString opening ('\x22' :: tail) = .ok ([], tail) := by
  rw [readString.eq_def]
  simp only [if_true]

/-- The ways in which a character is written. -/
inductive IsEscaped (c : Char) : List Char → Prop where
  | letter {e : Char} (h : letterEscape? e = some c) : IsEscaped c ['\\', e]
  | plain (hquote : c ≠ '\x22') (hescape : c ≠ '\\') (hc : ¬ c < ' ') : IsEscaped c [c]
  | unit (h : c.toNat < 0x10000) : IsEscaped c (escapedUnit c.toNat)
  | pair {n m : Nat} (hn : n < 0x400) (hm : m < 0x400) (h : 0x10000 + n * 0x400 + m = c.toNat) :
    IsEscaped c (escapedUnit (0xD800 + n) ++ escapedUnit (0xDC00 + m))

theorem isEscaped_escapedChar (c : Char) : IsEscaped c (escapedChar c) := by
  have hvalid := Text.toNat_valid c
  unfold escapedChar
  split
  next h =>
    rcases h with rfl | rfl
    · exact .letter (by decide)
    · exact .letter (by decide)
  next hself =>
    split_ifs with hn hr ht hb hf hplain hunit
    · exact .letter (hn ▸ by decide)
    · exact .letter (hr ▸ by decide)
    · exact .letter (ht ▸ by decide)
    · exact .letter (hb ▸ by decide)
    · exact .letter (hf ▸ by decide)
    · rw [not_or] at hself
      exact .plain hself.1 hself.2 (Char.not_lt.mpr hplain.1)
    · exact .unit hunit
    · exact .pair (by omega) (by omega) (by omega)

/-- What is written for a character is taken off as this character. -/
theorem IsEscaped.readString {written : List Char} (h : IsEscaped c written) (htail : tail ≠ []) :
    readString opening (written ++ tail) =
      (readString opening tail).map fun read => (c :: read.1, read.2) := by
  have hvalid := Text.toNat_valid c
  cases h with
  | letter h => exact readString_letter h
  | plain hquote hescape hc => exact readString_plain hquote hescape hc
  | unit h => rw [readString_unit (by omega) h htail, Char.ofNat_toNat]
  | pair hn hm h => rw [List.append_assoc, readString_pair hn hm htail, h, Char.ofNat_toNat]

/-- A string is read back up to its closing quote. -/
theorem readString_escaped (chars : List Char) :
    readString opening (chars.flatMap escapedChar ++ '\x22' :: rest) = .ok (chars, rest) := by
  induction chars with
  | nil => exact readString_quote
  | cons c chars ih =>
    rw [List.flatMap_cons, List.append_assoc, (isEscaped_escapedChar c).readString (by simp), ih]
    rfl

/-- Half of a surrogate pair alone is found in a text that begins with this one only behind it. -/
def IsHalfless (s : List Char) : Prop :=
  ∀ tail, hasLoneHalf (s ++ tail) = hasLoneHalf tail

theorem IsHalfless.append {s s' : List Char} (h : IsHalfless s) (h' : IsHalfless s') :
    IsHalfless (s ++ s') := fun tail => by
  rw [List.append_assoc, h, h']

theorem isHalfless_of_notMem {s : List Char} (h : '\\' ∉ s) : IsHalfless s := by
  intro tail
  induction s with
  | nil => rfl
  | cons c s ih =>
    rw [List.mem_cons, not_or] at h
    rw [List.cons_append, hasLoneHalf.eq_def]
    simp only [if_neg (Ne.symm h.1), ih h.2]

/-- What is written for a character has no half of a pair alone, whatever follows. -/
theorem IsEscaped.hasLoneHalf {written : List Char} (h : IsEscaped c written) (htail : tail ≠ []) :
    hasLoneHalf (written ++ tail) = Json.hasLoneHalf tail := by
  have hvalid := Text.toNat_valid c
  cases h with
  | @letter e h =>
    have he : e ≠ 'u' := by
      rintro rfl
      cases h
    rw [List.cons_append, List.cons_append, Json.hasLoneHalf]
    simp only [if_true, if_neg he, List.nil_append]
  | plain _ hescape _ => exact isHalfless_of_notMem (by simpa using Ne.symm hescape) tail
  | unit h =>
    have hunit := readUnit?_hex h htail
    have hhigh : ¬ (0xD800 ≤ c.toNat ∧ c.toNat < 0xDC00) := by omega
    have hlow : ¬ (0xDC00 ≤ c.toNat ∧ c.toNat < 0xE000) := by omega
    rw [escapedUnit, List.cons_append, List.cons_append, Json.hasLoneHalf]
    simp only [if_true]
    split
    next hnone => simp [hunit] at hnone
    next m rest hsome =>
      rw [hunit, Option.some.injEq, Prod.mk.injEq] at hsome
      obtain ⟨rfl, rfl⟩ := hsome
      rw [if_neg hhigh, if_neg hlow]
  | @pair n m hn hm _ =>
    have hsecond : escapedUnit (0xDC00 + m) ++ tail ≠ [] := by simp [htail]
    have hunit := readUnit?_hex (n := 0xD800 + n) (by omega) hsecond
    have hhigh : 0xD800 ≤ 0xD800 + n ∧ 0xD800 + n < 0xDC00 := by omega
    have hhalf := secondHalf_escapedUnit (n := 0xDC00 + m) (by omega) (by omega) htail
    rw [List.append_assoc, escapedUnit, List.cons_append, List.cons_append, Json.hasLoneHalf]
    simp only [if_true]
    split
    next hnone => simp [hunit] at hnone
    next k rest hsome =>
      rw [hunit, Option.some.injEq, Prod.mk.injEq] at hsome
      obtain ⟨rfl, rfl⟩ := hsome
      simp only [if_pos hhigh, hhalf, drop_escapedUnit]

theorem isHalfless_printedString (s : String) : IsHalfless (printedString s) := by
  intro tail
  have hquote : ∀ s, hasLoneHalf ('\x22' :: s) = hasLoneHalf s :=
    isHalfless_of_notMem (s := ['\x22']) (by decide)
  have hchars : ∀ chars : List Char,
      hasLoneHalf (chars.flatMap escapedChar ++ '\x22' :: tail) = hasLoneHalf tail := by
    intro chars
    induction chars with
    | nil => exact hquote tail
    | cons c chars ih =>
      rw [List.flatMap_cons, List.append_assoc, (isEscaped_escapedChar c).hasLoneHalf (by simp), ih]
  rw [printedString, List.cons_append, List.cons_append, hquote, List.append_assoc,
    List.singleton_append, hchars]

/-- A string can be told from what follows it. -/
theorem printedString_append {s t : String} {rest rest' : List Char}
    (h : printedString s ++ rest = printedString t ++ rest') : s = t ∧ rest = rest' := by
  simp only [printedString, List.cons_append, List.append_assoc, List.nil_append,
    List.cons.injEq, true_and] at h
  have hread : readString [] (s.toList.flatMap escapedChar ++ '\x22' :: rest) =
      .ok (s.toList, rest) := readString_escaped s.toList
  rw [h, readString_escaped, Except.ok.injEq, Prod.mk.injEq] at hread
  exact ⟨(String.toList_injective hread.1).symm, hread.2.symm⟩

end Json

end StackFront
