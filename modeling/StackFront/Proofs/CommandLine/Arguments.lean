import Mathlib.Data.List.TakeWhile
import StackFront.CommandLine.Arguments
import StackFront.Proofs.Text.Numerals

/-!
# A source and a method on the command line

A source that does not begin with a dash is a plain word, and so is the numeral of an index: a
negative one begins with a dash, but no option has a digit behind its dash. So a source with the
index of a method asks for just that, unless the numeral is too long to be read.
-/
namespace StackFront.CommandLine

variable {s source : String} {c : Char} {digits : List Char} {n : Int} {p : String × Switch}

namespace Token

/-- What does not begin with a dash is a word. -/
theorem ofArgument_word (h : s.toList.head? ≠ some '-') : ofArgument s = .ok (word s) := by
  unfold ofArgument
  split
  next c rest heq =>
    rw [heq] at h
    exact absurd rfl h
  next => rfl

/-- No option has a digit behind its dash. -/
theorem not_isDigit_of_mem_spellings (hp : p ∈ Switch.spellings)
    (h : p.1.toList = '-' :: c :: digits) : ¬ c.isDigit := by
  have hall : ∀ p ∈ Switch.spellings, (p.1.toList[1]?.any Char.isDigit) = false := by
    decide
  have hdigit := hall p hp
  rw [h] at hdigit
  exact Bool.eq_false_iff.mp hdigit

theorem ofSpelling?_digits (hc : c.isDigit) :
    Switch.ofSpelling? (String.ofList ('-' :: c :: digits)) = none := by
  rw [Switch.ofSpelling?, Option.map_eq_none_iff, List.find?_eq_none]
  intro p hp hspelled
  rw [decide_eq_true_eq] at hspelled
  exact not_isDigit_of_mem_spellings hp (by rw [hspelled, String.toList_ofList]) hc

theorem candidates_digits (hc : c.isDigit) : candidates ('-' :: c :: digits) = [] := by
  have hdash : c ≠ '-' := by
    rintro rfl
    cases hc
  have hshort : (Switch.spellings.filter fun p => p.1.toList = ['-', c]) = [] := by
    rw [List.filter_eq_nil_iff]
    intro p hp hspelled
    rw [decide_eq_true_eq] at hspelled
    exact not_isDigit_of_mem_spellings hp hspelled hc
  have hsecond : (('-' :: c :: digits).drop 1).head? ≠ some '-' := by simpa using hdash
  rw [candidates, if_neg hsecond, shortCandidates, List.map_eq_nil_iff]
  exact hshort

theorem cutEquals_of_notMem (h : '=' ∉ digits) : cutEquals digits = (digits, none) := by
  have hnone : digits.dropWhile (· ≠ '=') = [] := by
    rw [List.dropWhile_eq_nil_iff]
    intro d hd
    simpa using fun heq : d = '=' => h (heq ▸ hd)
  rw [cutEquals, hnone]

theorem isNegativeNumber_digits (h : ∀ d ∈ c :: digits, d.isDigit) :
    isNegativeNumber ('-' :: c :: digits) := by
  have hend : ('-' :: c :: digits).getLast? ≠ some '\n' := by
    intro hlast
    rcases List.mem_cons.mp (List.mem_of_getLast? hlast) with heq | hmem
    · cases heq
    · cases h _ hmem
  have hall : (c :: digits).dropWhile (fun d => (Text.decimalDigit? d).isSome) = [] := by
    rw [List.dropWhile_eq_nil_iff]
    intro d hd
    rw [Text.decimalDigit?_of_isDigit (h d hd), Option.isSome_some]
  simp only [isNegativeNumber, if_neg hend, hall]
  rfl

/-- A dash with digits is a number, and there is no option that it could be. -/
theorem ofDashed_digits (h : ∀ d ∈ c :: digits, d.isDigit) :
    ofDashed ('-' :: c :: digits) = .ok (word (String.ofList ('-' :: c :: digits))) := by
  have hc := h c (List.mem_cons_self ..)
  have hequals : '=' ∉ '-' :: c :: digits := by
    intro hmem
    rcases List.mem_cons.mp hmem with heq | hmem
    · cases heq
    · cases h _ hmem
  simp only [ofDashed, ofSpelling?_digits hc, cutEquals_of_notMem hequals, candidates_digits hc,
    isNegativeNumber_digits h, Bool.true_or, if_true]

/-- The numeral of an integer is a word. -/
theorem ofArgument_numeral (n : Int) : ofArgument (toString n) = .ok (word (toString n)) := by
  cases n with
  | ofNat n =>
    obtain ⟨c, digits, hdigits, hc⟩ := Json.exists_toDigits n
    apply ofArgument_word
    rw [Text.toList_toString, Json.printedNumber, hdigits, List.head?_cons]
    rintro ⟨⟩
    cases hc
  | negSucc n =>
    obtain ⟨c, digits, hdigits, -⟩ := Json.exists_toDigits (n + 1)
    have hall : ∀ d ∈ c :: digits, d.isDigit := fun d hd =>
      Nat.isDigit_of_mem_toDigits (by decide) (by decide) (hdigits ▸ hd)
    have hlist : (toString (Int.negSucc n)).toList = '-' :: c :: digits := by
      rw [Text.toList_toString, Json.printedNumber, hdigits]
    rw [ofArgument, hlist]
    simp only [ofDashed_digits hall]
    rw [← hlist, String.ofList_toList]

end Token

/-- What a source and the index of a method ask for. -/
theorem parse_method (hdash : source.toList.head? ≠ some '-') (n : Int) :
    parse [source, "--method", toString n] =
      if (Nat.toDigits 10 n.natAbs).length ≤ Text.maxDigits then
        .ok (.run { source, method := some n })
      else .error (.invalidNumber .method (toString n)) := by
  have hsource : source ≠ "--" := by
    rintro rfl
    exact hdash rfl
  have hnumeral : toString n ≠ "--" := by
    intro h
    have hword := Token.ofArgument_numeral n
    rw [h] at hword
    cases hword
  have htokens : Token.ofArguments [source, "--method", toString n] =
      .ok [.word source, .option .method false none, .word (toString n)] := by
    have hmethod : Token.ofArgument "--method" = .ok (.option .method false none) := rfl
    have hsecond : "--method" ≠ "--" := by decide
    simp only [Token.ofArguments, if_neg hsource, if_neg hsecond, if_neg hnumeral,
      Token.ofArgument_word hdash, hmethod, Token.ofArgument_numeral, Except.map]
  rw [parse, htokens]
  by_cases hfew : (Nat.toDigits 10 n.natAbs).length ≤ Text.maxDigits
  · have hread : Text.readInt? (toString n) = some n := by rw [Text.readInt?_toString, if_pos hfew]
    simp only [Reading.readTokens, Reading.setValue, Switch.takesValue, if_neg hnumeral, hread,
      if_pos hfew]
    rfl
  · have hread : Text.readInt? (toString n) = none := by rw [Text.readInt?_toString, if_neg hfew]
    simp only [Reading.readTokens, Reading.setValue, Switch.takesValue, if_neg hnumeral, hread,
      if_neg hfew]
    rfl

end StackFront.CommandLine
