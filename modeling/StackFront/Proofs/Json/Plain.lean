import StackFront.Json.Printer
import StackFront.Proofs.Json.Strings
import StackFront.Proofs.Json.Values
import StackFront.Text.Encoding
import StackFront.Text.Split

/-!
# Plain texts

Whatever characters the strings in a value have, its text has none but printable ASCII characters
and line feeds. So its octets are read as the same text in any encoding that extends ASCII, and no
line end in it is changed. Nor has it an escape for half of a surrogate pair alone.
-/
namespace StackFront

namespace Text

/-- A line feed or a printable ASCII character. -/
def IsPlain (c : Char) : Prop :=
  c = '\n' ∨ ' ' ≤ c ∧ c ≤ '~'

instance (c : Char) : Decidable (IsPlain c) :=
  inferInstanceAs (Decidable (_ ∨ _))

variable {s : List Char} {c : Char}

theorem IsPlain.toNat_lt (h : IsPlain c) : c.toNat < 0x80 := by
  rcases h with rfl | ⟨-, h⟩
  · decide
  · exact Nat.lt_of_le_of_lt h (by decide)

theorem IsPlain.ne_return (h : IsPlain c) : c ≠ '\r' := by
  rintro rfl
  exact absurd h (by decide)

theorem isPlain_of_all (h : s.all (IsPlain ·)) : ∀ c ∈ s, IsPlain c := by
  simpa using h

theorem isPlain_digitChar {d : Nat} (h : d < 16) : IsPlain (Nat.digitChar d) := by
  have hall : ∀ d : Fin 16, IsPlain (Nat.digitChar d) := by decide
  exact hall ⟨d, h⟩

theorem isPlain_of_mem_hex {w n : Nat} (h : c ∈ hex w n) : IsPlain c := by
  induction w generalizing n with
  | zero => cases h
  | succ w ih =>
    rcases List.mem_append.mp h with h | h
    · exact ih h
    · rw [List.mem_singleton.mp h]
      exact isPlain_digitChar (Nat.mod_lt _ (by decide))

theorem isPlain_of_isDigit (h : c.isDigit = true) : IsPlain c := by
  simp only [Char.isDigit, Bool.and_eq_true, decide_eq_true_eq] at h
  exact .inr ⟨Char.le_trans (by decide) h.1, Char.le_trans h.2 (by decide)⟩

/-- The octets of a plain text are its characters. -/
theorem decodeUtf8_encodeUtf8 (h : ∀ c ∈ s, IsPlain c) (position : Nat) :
    decodeUtf8 position (encodeUtf8 s) = .ok s := by
  induction s generalizing position with
  | nil => rfl
  | cons c s ih =>
    rw [List.forall_mem_cons] at h
    have hlt := h.1.toNat_lt
    have hoctet : (UInt8.ofNat c.toNat).toNat = c.toNat := by
      rw [UInt8.toNat_ofNat']
      omega
    have hchar : encodeChar c = [UInt8.ofNat c.toNat] := if_pos hlt
    have hfirst : UInt8.ofNat c.toNat < 0x80 := by
      rw [UInt8.lt_iff_toNat_lt, hoctet]
      exact hlt
    rw [encodeUtf8, List.flatMap_cons, hchar, List.singleton_append, decodeUtf8.eq_def]
    simp only [if_pos hfirst, hoctet, Char.ofNat_toNat]
    rw [← encodeUtf8, ih h.2]
    rfl

/-- Without carriage returns there are no line ends to change. -/
theorem unifyLineEnds_eq (h : ∀ c ∈ s, IsPlain c) : unifyLineEnds s = s := by
  induction s with
  | nil => rfl
  | cons c s ih =>
    rw [List.forall_mem_cons] at h
    rw [unifyLineEnds, if_neg h.1.ne_return, ih h.2]
    rintro rest rfl
    exact absurd rfl h.1.ne_return

end Text

namespace Json

open Text (IsPlain)

theorem isPlain_escapedUnit (n : Nat) : ∀ c ∈ escapedUnit n, IsPlain c := by
  rw [escapedUnit, List.forall_mem_cons, List.forall_mem_cons]
  exact ⟨by decide, by decide, fun c => Text.isPlain_of_mem_hex⟩

theorem isPlain_escapedChar (c : Char) : ∀ d ∈ escapedChar c, IsPlain d := by
  have hletter : ∀ e, IsPlain e → ∀ d ∈ ['\\', e], IsPlain d := by
    intro e he
    rw [List.forall_mem_cons, List.forall_mem_singleton]
    exact ⟨by decide, he⟩
  unfold escapedChar
  split
  next h => exact hletter c (by rcases h with rfl | rfl <;> decide)
  split_ifs with _ _ _ _ _ hplain
  · exact hletter 'n' (by decide)
  · exact hletter 'r' (by decide)
  · exact hletter 't' (by decide)
  · exact hletter 'b' (by decide)
  · exact hletter 'f' (by decide)
  · exact List.forall_mem_singleton.mpr (.inr hplain)
  · exact isPlain_escapedUnit _
  · exact List.forall_mem_append.mpr ⟨isPlain_escapedUnit _, isPlain_escapedUnit _⟩

theorem isPlain_printedString (s : String) : ∀ c ∈ printedString s, IsPlain c := by
  have hchars : ∀ c ∈ s.toList.flatMap escapedChar, IsPlain c := by
    intro c hc
    obtain ⟨d, -, hd⟩ := List.mem_flatMap.mp hc
    exact isPlain_escapedChar d c hd
  rw [printedString, List.forall_mem_append, List.forall_mem_cons, List.forall_mem_singleton]
  exact ⟨⟨by decide, hchars⟩, by decide⟩

theorem isPlain_printedNumber (n : Int) : ∀ c ∈ printedNumber n, IsPlain c := by
  have hdigits : ∀ n, ∀ c ∈ Nat.toDigits 10 n, IsPlain c := fun n c hc =>
    Text.isPlain_of_isDigit (Nat.isDigit_of_mem_toDigits (by decide) (by decide) hc)
  cases n with
  | ofNat n => exact hdigits n
  | negSucc n => exact List.forall_mem_cons.mpr ⟨by decide, hdigits _⟩

/-- The characters of a text that belong neither to a string nor to a number. -/
def marks : List Char :=
  ['n', 'u', 'l', 't', 'r', 'e', 'f', 'a', 's', '[', ']', '\x7b', '\x7d', ',', ':', ' ', '\n']

section Parts

variable {p : List Char → Prop} (append : ∀ s s', p s → p s' → p (s ++ s'))
  (mark : ∀ s, s ⊆ marks → p s) (string : ∀ s, p (printedString s))
  (number : ∀ n, p (printedNumber n))
include mark

theorem lineAt_of_parts (depth : Nat) : p (lineAt depth) := by
  refine mark _ (List.cons_subset.mpr ⟨by decide, fun c hc => ?_⟩)
  rw [List.eq_of_mem_replicate hc]
  decide

include append

theorem cons_of_parts {c : Char} {s : List Char} (hc : c ∈ marks) (h : p s) : p (c :: s) :=
  append [c] s (mark [c] (by simpa using hc)) h

theorem indentedItems_of_parts {items : List Json} (depth : Nat)
    (h : ∀ v ∈ items, p (indented depth v)) : p (indentedItems depth items) := by
  induction items with
  | nil => exact mark [] (List.nil_subset _)
  | cons v items ih =>
    rw [List.forall_mem_cons] at h
    have hitem := append _ _ (lineAt_of_parts mark depth) h.1
    cases items with
    | nil => exact hitem
    | cons w items => exact append _ _ hitem (cons_of_parts append mark (by decide) (ih h.2))

include string

theorem indentedMembers_of_parts {members : List (String × Json)} (depth : Nat)
    (h : ∀ m ∈ members, p (indented depth m.2)) : p (indentedMembers depth members) := by
  induction members with
  | nil => exact mark [] (List.nil_subset _)
  | cons m members ih =>
    rw [List.forall_mem_cons] at h
    have hkey := append _ _ (lineAt_of_parts mark depth) (string m.1)
    have hvalue := cons_of_parts append mark (c := ':') (by decide)
      (cons_of_parts append mark (c := ' ') (by decide) h.1)
    cases members with
    | nil => exact append _ _ hkey hvalue
    | cons n members =>
      exact append _ _ (append _ _ hkey hvalue) (cons_of_parts append mark (by decide) (ih h.2))

include number

/-- What holds of marks, strings and integers, and of texts put together, holds of the indented text
of a value without floats. -/
theorem indented_of_parts {v : Json} (hv : v.HasNoFloats) (depth : Nat) :
    p (indented depth v) := by
  induction hv generalizing depth with
  | null => exact mark _ (by simp [indented, marks])
  | @bool b => cases b <;> exact mark _ (by simp [indented, marks])
  | @number n h =>
    cases n with
    | integer n => exact number n
    | float x => exact h.elim
  | string => exact string _
  | @array items _ _ ih =>
    cases items with
    | nil => exact mark _ (by simp [indented, marks])
    | cons v items =>
      have hitems := indentedItems_of_parts append mark (depth + 1)
        fun v hv => ih v hv (depth + 1)
      have hopen := cons_of_parts append mark (c := '[') (by decide) hitems
      exact append _ _ (append _ _ hopen (lineAt_of_parts mark depth))
        (mark _ (by simp [marks]))
  | @object members _ _ ih =>
    cases members with
    | nil => exact mark _ (by simp [indented, marks])
    | cons m members =>
      have hmembers := indentedMembers_of_parts append mark string (depth + 1)
        fun m hm => ih m hm (depth + 1)
      have hopen := cons_of_parts append mark (c := '\x7b') (by decide) hmembers
      exact append _ _ (append _ _ hopen (lineAt_of_parts mark depth))
        (mark _ (by simp [marks]))

end Parts

/-- The indented text of a value without floats is plain. -/
theorem isPlain_indented {v : Json} (hv : v.HasNoFloats) (depth : Nat) :
    ∀ c ∈ indented depth v, IsPlain c := by
  have hmarks : ∀ c ∈ marks, IsPlain c := Text.isPlain_of_all (by decide)
  exact indented_of_parts (p := fun s => ∀ c ∈ s, IsPlain c)
    (fun s s' h h' => List.forall_mem_append.mpr ⟨h, h'⟩) (fun s h c hc => hmarks c (h hc))
    isPlain_printedString isPlain_printedNumber hv depth

/-- Halves of surrogate pairs stand together in the text of a value without floats. -/
theorem isHalfless_indented {v : Json} (hv : v.HasNoFloats) (depth : Nat) :
    IsHalfless (indented depth v) := by
  have hnumber : ∀ n, '\\' ∉ printedNumber n := by
    intro n h
    have hdigits : ∀ n, '\\' ∉ Nat.toDigits 10 n := fun n h =>
      absurd (Nat.isDigit_of_mem_toDigits (by decide) (by decide) h) (by decide)
    cases n with
    | ofNat n => exact hdigits n h
    | negSucc n => exact hdigits (n + 1) (by simpa [printedNumber] using h)
  exact indented_of_parts (fun _ _ h h' => h.append h')
    (fun s h => isHalfless_of_notMem fun hs => absurd (h hs) (by decide))
    isHalfless_printedString (fun n => isHalfless_of_notMem (hnumber n)) hv depth

end Json

end StackFront
