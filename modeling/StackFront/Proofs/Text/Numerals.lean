import StackFront.Proofs.Json.Indented
import StackFront.Text.Numeral

/-!
# Numerals read back

The decimal numeral of an integer is read as that integer, be it negative or not, unless it has more
digits than are read.
-/
namespace StackFront.Text

variable {c : Char} {s : List Char}

theorem toNat_of_isDigit (h : c.isDigit) : 48 ≤ c.toNat ∧ c.toNat ≤ 57 := by
  simp only [Char.isDigit, Bool.and_eq_true, decide_eq_true_eq, UInt32.le_iff_toNat_le] at h
  exact h

/-- The digits that numerals are written with are those of the first sequence. -/
theorem decimalDigit?_of_isDigit (h : c.isDigit) :
    decimalDigit? c = some (c.toNat - '0'.toNat) := by
  obtain ⟨hlow, hhigh⟩ := toNat_of_isDigit h
  simp [decimalDigit?, decimalZeros, hlow, hhigh]

theorem isBlank_of_isDigit (h : c.isDigit) : isBlank c = false := by
  obtain ⟨hlow, hhigh⟩ := toNat_of_isDigit h
  simp [isBlank]
  omega

theorem digits?_of_isDigit (hne : s ≠ []) (h : ∀ c ∈ s, c.isDigit) :
    digits? s = some (s.map fun c => c.toNat - '0'.toNat) := by
  induction s with
  | nil => exact absurd rfl hne
  | cons c rest ih =>
    rw [List.forall_mem_cons] at h
    have hc := decimalDigit?_of_isDigit h.1
    cases rest with
    | nil => rw [digits?, hc]; rfl
    | cons c' rest =>
      have hscore : c' ≠ '_' := by
        rintro rfl
        exact absurd (h.2 '_' (List.mem_cons_self ..)) (by decide)
      have hrest := ih (List.cons_ne_nil _ _) h.2
      rw [digits?, hc, hrest]
      · rfl
      · exact fun hnil => List.cons_ne_nil _ _ hnil
      · exact fun tail heq => hscore (List.cons.inj heq).1

theorem trimBlanks_of_not_isBlank (h : ∀ c ∈ s, isBlank c = false) : trimBlanks s = s := by
  have hkeep : ∀ l : List Char, (∀ c ∈ l, isBlank c = false) → l.dropWhile isBlank = l := by
    intro l hl
    cases l with
    | nil => rfl
    | cons c rest => simp [hl c (List.mem_cons_self ..)]
  rw [trimBlanks, hkeep s h, hkeep s.reverse (by simpa using h), List.reverse_reverse]

theorem readMagnitude?_toDigits (n : Nat) :
    readMagnitude? (Nat.toDigits 10 n) =
      if (Nat.toDigits 10 n).length ≤ maxDigits then some n else none := by
  have hall : ∀ c ∈ Nat.toDigits 10 n, c.isDigit := fun c hc =>
    Nat.isDigit_of_mem_toDigits (by decide) (by decide) hc
  have hdigits := digits?_of_isDigit Nat.toDigits_ne_nil hall
  have hvalue : ofDigits ((Nat.toDigits 10 n).map fun c => c.toNat - '0'.toNat) = n :=
    Json.natOfDigits_toDigits n
  simp only [readMagnitude?, hdigits, hvalue, List.length_map]

theorem toList_toString (n : Int) : (toString n).toList = Json.printedNumber n := by
  cases n with
  | ofNat n => exact String.toList_ofList
  | negSucc n =>
    have hneg : toString (Int.negSucc n) = "-" ++ Nat.repr (n + 1) := rfl
    rw [hneg, String.toList_append, Nat.repr]
    simp only [String.toList_ofList]
    rfl

/-- A numeral is read back unless it has too many digits. -/
theorem readInt?_toString (n : Int) : readInt? (toString n) =
    if (Nat.toDigits 10 n.natAbs).length ≤ maxDigits then some n else none := by
  have hall : ∀ m, ∀ c ∈ Nat.toDigits 10 m, isBlank c = false := fun m c hc =>
    isBlank_of_isDigit (Nat.isDigit_of_mem_toDigits (by decide) (by decide) hc)
  cases n with
  | ofNat n =>
    have htrim : trimBlanks (toString (Int.ofNat n)).toList = Nat.toDigits 10 n := by
      rw [toList_toString]
      exact trimBlanks_of_not_isBlank (hall n)
    have hdigit : ∀ sign rest, Nat.toDigits 10 n = sign :: rest → sign.isDigit := by
      intro sign rest h
      exact Nat.isDigit_of_mem_toDigits (by decide) (by decide) (h ▸ List.mem_cons_self ..)
    rw [readInt?, htrim]
    split
    next rest h => exact absurd (hdigit _ _ h) (by decide)
    next rest h => exact absurd (hdigit _ _ h) (by decide)
    next =>
      simp only [readMagnitude?_toDigits, Int.ofNat_eq_natCast, Int.natAbs_natCast]
      split <;> rfl
  | negSucc n =>
    have htrim : trimBlanks (toString (Int.negSucc n)).toList =
        '-' :: Nat.toDigits 10 (n + 1) := by
      rw [toList_toString]
      exact trimBlanks_of_not_isBlank (List.forall_mem_cons.mpr ⟨by decide, hall (n + 1)⟩)
    rw [readInt?, htrim]
    simp only [readMagnitude?_toDigits, Int.natAbs_negSucc]
    split <;> rfl

end StackFront.Text
