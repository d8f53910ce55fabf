import StackFront.Proofs.Json.Strings
import StackFront.Proofs.Json.Values
import StackFront.Text.Split

/-!
# Compact texts of different values

The compact text of a value holds nothing but the value, yet it can be told where it ends: a string
by its quote, an array or an object by its bracket, and an integer by the character that follows,
which does not go on with a number. So no two values without floats are written as one text.
-/
namespace StackFront.Json

/-- Whether a number may go on with a character. -/
def isNumeric (c : Char) : Bool :=
  c.isDigit || c = '.' || c = 'e' || c = 'E'

theorem isDigit_of_isNumeric {c : Char} (h : isNumeric c = false) : c.isDigit = false := by
  simp only [isNumeric, Bool.or_eq_false_iff] at h
  exact h.1.1.1

/-- What follows does not go on with a number. -/
def Ends (rest : List Char) : Prop :=
  ∀ c ∈ rest.head?, isNumeric c = false

theorem ends_nil : Ends [] := by
  simp [Ends]

theorem ends_cons {c : Char} {rest : List Char} (h : isNumeric c = false) : Ends (c :: rest) := by
  simpa [Ends] using h

/-- What is written for `a` can be told from all else with the property `p` that is written in this
way, whatever follows. -/
def Separable {α : Type} (p : α → Prop) (write : α → List Char) (a : α) : Prop :=
  ∀ b rest rest', p b → Ends rest → Ends rest' → write a ++ rest = write b ++ rest' →
    a = b ∧ rest = rest'

theorem takeWhile_toDigits (n : Nat) {rest : List Char} (h : Ends rest) :
    (Nat.toDigits 10 n ++ rest).takeWhile Char.isDigit = Nat.toDigits 10 n := by
  have hdigits : ∀ c ∈ Nat.toDigits 10 n, c.isDigit = true := fun c hc =>
    Nat.isDigit_of_mem_toDigits (by decide) (by decide) hc
  have hrest : rest.takeWhile Char.isDigit = [] := by
    cases rest with
    | nil => rfl
    | cons c rest =>
      rw [List.takeWhile_cons, isDigit_of_isNumeric (h c rfl), if_neg Bool.false_ne_true]
  rw [List.takeWhile_append_of_pos hdigits, hrest, List.append_nil]

/-- Digits are told from what follows them. -/
theorem separable_toDigits (n : Nat) : Separable (fun _ => True) (Nat.toDigits 10) n := by
  intro m rest rest' _ hrest hrest' h
  have hdigits : Nat.toDigits 10 n = Nat.toDigits 10 m := by
    rw [← takeWhile_toDigits n hrest, h, takeWhile_toDigits m hrest']
  refine ⟨?_, ?_⟩
  · have hback : ∀ k, Nat.ofDigitChars 10 (Nat.toDigits 10 k) 0 = k := fun k =>
      Nat.ofDigitChars_toDigits (by decide) (by decide)
    rw [← hback n, hdigits, hback m]
  · rwa [hdigits, List.append_cancel_left_eq] at h

/-- The digits of a number begin with a digit. -/
theorem exists_toDigits (n : Nat) :
    ∃ c digits, Nat.toDigits 10 n = c :: digits ∧ c.isDigit = true := by
  have hne : Nat.toDigits 10 n ≠ [] := Nat.toDigits_ne_nil
  obtain ⟨c, digits, h⟩ := List.exists_cons_of_ne_nil hne
  have hc : c ∈ Nat.toDigits 10 n := h ▸ List.mem_cons_self ..
  exact ⟨c, digits, h, Nat.isDigit_of_mem_toDigits (by decide) (by decide) hc⟩

theorem toDigits_append_ne (n : Nat) {rest rest' : List Char} :
    Nat.toDigits 10 n ++ rest ≠ '-' :: rest' := by
  obtain ⟨c, digits, h, hc⟩ := exists_toDigits n
  rw [h, List.cons_append]
  intro heq
  rw [(List.cons.inj heq).1] at hc
  exact absurd hc (by decide)

theorem separable_printedNumber (n : Int) : Separable (fun _ => True) printedNumber n := by
  intro m rest rest' _ hrest hrest' h
  cases n with
  | ofNat n =>
    cases m with
    | ofNat m =>
      obtain ⟨rfl, hsame⟩ := separable_toDigits n m rest rest' trivial hrest hrest' h
      exact ⟨rfl, hsame⟩
    | negSucc m => exact absurd h (toDigits_append_ne n)
  | negSucc n =>
    cases m with
    | ofNat m => exact absurd h.symm (toDigits_append_ne m)
    | negSucc m =>
      rw [printedNumber, printedNumber, List.cons_append, List.cons_append, List.cons.injEq] at h
      obtain ⟨hsucc, hsame⟩ := separable_toDigits _ _ rest rest' trivial hrest hrest' h.2
      rw [Nat.succ.inj hsucc]
      exact ⟨rfl, hsame⟩

section Items

variable {α : Type} {p : α → Prop} {write : α → List Char} {close : Char} {l l' : List α}
  {rest rest' : List Char}

/-- What stands after an item: the other items, each after a comma, and the closing bracket. -/
def afterItem (write : α → List Char) (close : Char) (rest : List Char) : List α → List Char
  | [] => close :: rest
  | a :: l => ',' :: (write a ++ afterItem write close rest l)

theorem joinWith_afterItem (a : α) (l : List α) :
    Text.joinWith ',' ((a :: l).map write) ++ close :: rest =
      write a ++ afterItem write close rest l := by
  induction l generalizing a with
  | nil => rfl
  | cons b l ih =>
    rw [List.map_cons, List.map_cons, Text.joinWith, List.append_assoc, List.cons_append,
      ← List.map_cons, ih, afterItem]

theorem ends_afterItem (hclose : isNumeric close = false) :
    Ends (afterItem write close rest l) := by
  cases l with
  | nil => exact ends_cons hclose
  | cons a l => exact ends_cons (by decide)

theorem afterItem_inj (hl : ∀ a ∈ l, Separable p write a) (hl' : ∀ b ∈ l', p b)
    (hcomma : close ≠ ',') (hclose : isNumeric close = false)
    (h : afterItem write close rest l = afterItem write close rest' l') :
    l = l' ∧ rest = rest' := by
  induction l generalizing l' with
  | nil =>
    cases l' with
    | nil => exact ⟨rfl, (List.cons.inj h).2⟩
    | cons b l' => exact absurd (List.cons.inj h).1 hcomma
  | cons a l ih =>
    cases l' with
    | nil => exact absurd (List.cons.inj h).1.symm hcomma
    | cons b l' =>
      rw [List.forall_mem_cons] at hl hl'
      obtain ⟨rfl, hafter⟩ := hl.1 b _ _ hl'.1 (ends_afterItem hclose) (ends_afterItem hclose)
        (List.cons.inj h).2
      obtain ⟨rfl, hrest⟩ := ih hl.2 hl'.2 hafter
      exact ⟨rfl, hrest⟩

/-- Items with commas between them and a bracket at the end are told from what follows. -/
theorem joinWith_inj (hl : ∀ a ∈ l, Separable p write a) (hl' : ∀ b ∈ l', p b)
    (hfirst : ∀ a, a ∈ l ∨ a ∈ l' → ∃ c cs, write a = c :: cs ∧ c ≠ close)
    (hcomma : close ≠ ',') (hclose : isNumeric close = false)
    (h : Text.joinWith ',' (l.map write) ++ close :: rest =
      Text.joinWith ',' (l'.map write) ++ close :: rest') : l = l' ∧ rest = rest' := by
  have hnil : ∀ {a : α} {tail : List α} {rest rest' : List Char}, a ∈ l ∨ a ∈ l' →
      close :: rest ≠ Text.joinWith ',' ((a :: tail).map write) ++ close :: rest' := by
    intro a tail rest rest' ha h
    obtain ⟨c, cs, hwrite, hc⟩ := hfirst a ha
    rw [joinWith_afterItem, hwrite] at h
    exact hc (List.cons.inj h).1.symm
  cases l with
  | nil =>
    cases l' with
    | nil => exact ⟨rfl, (List.cons.inj h).2⟩
    | cons b l' => exact absurd h (hnil (.inr (List.mem_cons_self ..)))
  | cons a l =>
    cases l' with
    | nil => exact absurd h.symm (hnil (.inl (List.mem_cons_self ..)))
    | cons b l' =>
      rw [List.forall_mem_cons] at hl hl'
      rw [joinWith_afterItem, joinWith_afterItem] at h
      obtain ⟨rfl, hafter⟩ := hl.1 b _ _ hl'.1 (ends_afterItem hclose) (ends_afterItem hclose) h
      obtain ⟨rfl, hrest⟩ := afterItem_inj hl.2 hl'.2 hcomma hclose hafter
      exact ⟨rfl, hrest⟩

end Items

/-- What the first character of a value tells. -/
inductive Shape where
  | null | bool (b : Bool) | number | string | array | object
  deriving DecidableEq

def Shape.ofFirst? (c : Char) : Option Shape :=
  if c = 'n' then some .null
  else if c = 't' then some (.bool true)
  else if c = 'f' then some (.bool false)
  else if c = '\x22' then some .string
  else if c = '[' then some .array
  else if c = '\x7b' then some .object
  else if c = '-' ∨ c.isDigit then some .number
  else none

def shape : Json → Shape
  | null => .null
  | bool b => .bool b
  | number _ => .number
  | string _ => .string
  | array _ => .array
  | object _ => .object

theorem ofFirst?_digit {c : Char} (h : c.isDigit = true) : Shape.ofFirst? c = some .number := by
  have hne : ∀ d : Char, d.isDigit = false → c ≠ d := by
    rintro d hd rfl
    simp [h] at hd
  rw [Shape.ofFirst?, if_neg (hne _ (by decide)), if_neg (hne _ (by decide)),
    if_neg (hne _ (by decide)), if_neg (hne _ (by decide)), if_neg (hne _ (by decide)),
    if_neg (hne _ (by decide)), if_pos (.inr h)]

/-- The first character of a value without floats tells its shape. -/
theorem exists_compact {v : Json} (h : v.HasNoFloats) :
    ∃ c cs, compact v = c :: cs ∧ Shape.ofFirst? c = some v.shape := by
  cases v with
  | null => exact ⟨_, _, rfl, rfl⟩
  | bool b => cases b <;> exact ⟨_, _, rfl, rfl⟩
  | number n =>
    obtain ⟨k, rfl⟩ := h.exists_integer
    cases k with
    | ofNat n =>
      obtain ⟨c, digits, hdigits, hc⟩ := exists_toDigits n
      exact ⟨c, digits, hdigits, ofFirst?_digit hc⟩
    | negSucc n => exact ⟨_, _, rfl, rfl⟩
  | string s => exact ⟨_, _, rfl, rfl⟩
  | array items => exact ⟨_, _, rfl, rfl⟩
  | object members => exact ⟨_, _, rfl, rfl⟩

/-- A member of an object without blanks. -/
def compactMember (m : String × Json) : List Char :=
  printedString m.1 ++ ':' :: compact m.2

theorem compactItems_eq (items : List Json) :
    compactItems items = Text.joinWith ',' (items.map compact) := by
  induction items with
  | nil => rw [compactItems, List.map_nil, Text.joinWith]
  | cons v items ih =>
    cases items with
    | nil => rw [compactItems, List.map_singleton, Text.joinWith]
    | cons w items =>
      rw [compactItems, ih]
      rfl

theorem compactMembers_eq (members : List (String × Json)) :
    compactMembers members = Text.joinWith ',' (members.map compactMember) := by
  induction members with
  | nil => rw [compactMembers, List.map_nil, Text.joinWith]
  | cons m members ih =>
    obtain ⟨key, v⟩ := m
    cases members with
    | nil => rw [compactMembers, List.map_singleton, Text.joinWith, compactMember]
    | cons n members =>
      rw [compactMembers, ih]
      rfl

theorem separable_compactMember {m : String × Json} (h : Separable HasNoFloats compact m.2) :
    Separable (fun m => m.2.HasNoFloats) compactMember m := by
  intro n rest rest' hn hrest hrest' hsame
  simp only [compactMember, List.append_assoc, List.cons_append] at hsame
  obtain ⟨hkey, hvalue⟩ := printedString_append hsame
  obtain ⟨hv, hrests⟩ := h n.2 rest rest' hn hrest hrest' (List.cons.inj hvalue).2
  exact ⟨Prod.ext hkey hv, hrests⟩

theorem shape_eq_of_compact {v w : Json} {rest rest' : List Char} (hv : v.HasNoFloats)
    (hw : w.HasNoFloats) (h : compact v ++ rest = compact w ++ rest') : v.shape = w.shape := by
  obtain ⟨c, cs, hv, hc⟩ := exists_compact hv
  obtain ⟨d, ds, hw, hd⟩ := exists_compact hw
  rw [hv, hw, List.cons_append, List.cons_append, List.cons.injEq] at h
  rw [h.1, hd, Option.some.injEq] at hc
  exact hc.symm

theorem exists_compact_ne {close : Char} (h : Shape.ofFirst? close = none) {v : Json}
    (hv : v.HasNoFloats) : ∃ c cs, compact v = c :: cs ∧ c ≠ close := by
  obtain ⟨c, cs, hv, hc⟩ := exists_compact hv
  refine ⟨c, cs, hv, ?_⟩
  rintro rfl
  rw [h] at hc
  cases hc

/-- Every value without floats is told from what follows it. -/
theorem separable_compact {v : Json} (hv : v.HasNoFloats) : Separable HasNoFloats compact v := by
  intro w rest rest' hw hrest hrest' h
  have hshape := shape_eq_of_compact hv hw h
  match v, w with
  | null, null => exact ⟨rfl, by simpa [compact] using h⟩
  | bool b, bool b' =>
    obtain rfl : b = b' := Shape.bool.inj hshape
    exact ⟨rfl, List.append_cancel_left h⟩
  | number n, number m =>
    obtain ⟨n, rfl⟩ := hv.exists_integer
    obtain ⟨m, rfl⟩ := hw.exists_integer
    obtain ⟨rfl, hsame⟩ := separable_printedNumber n m rest rest' trivial hrest hrest' h
    exact ⟨rfl, hsame⟩
  | string s, string t =>
    obtain ⟨rfl, hsame⟩ := printedString_append h
    exact ⟨rfl, hsame⟩
  | array items, array items' =>
    have hitems := (everywhere_array.mp hv).2
    have hitems' := (everywhere_array.mp hw).2
    simp only [compact, compactItems_eq, List.cons_append, List.append_assoc, List.nil_append,
      List.cons.injEq, true_and] at h
    obtain ⟨rfl, hsame⟩ := joinWith_inj (fun u hu => separable_compact (hitems u hu)) hitems'
      (fun u hu => exists_compact_ne (by decide) (hu.elim (hitems u) (hitems' u)))
      (by decide) (by decide) h
    exact ⟨rfl, hsame⟩
  | object members, object members' =>
    have hmembers := (everywhere_object.mp hv).2
    have hmembers' := (everywhere_object.mp hw).2
    simp only [compact, compactMembers_eq, List.cons_append, List.append_assoc, List.nil_append,
      List.cons.injEq, true_and] at h
    obtain ⟨rfl, hsame⟩ := joinWith_inj
      (fun m hm => separable_compactMember (separable_compact (hmembers m hm))) hmembers'
      (fun m _ => ⟨_, _, rfl, by decide⟩) (by decide) (by decide) h
    exact ⟨rfl, hsame⟩
termination_by v
decreasing_by
  · have hitem := List.sizeOf_lt_of_mem hu
    simp only [array.sizeOf_spec]
    omega
  · have hmember := List.sizeOf_lt_of_mem hm
    have hvalue : sizeOf m = 1 + sizeOf m.1 + sizeOf m.2 := by
      obtain ⟨key, u⟩ := m
      exact Prod.mk.sizeOf_spec key u
    simp only [object.sizeOf_spec]
    omega

/-- Different values without floats have different compact texts. -/
theorem compact_inj {v w : Json} (hv : v.HasNoFloats) (hw : w.HasNoFloats) :
    compact v = compact w ↔ v = w := by
  refine ⟨fun h => ?_, congrArg compact⟩
  exact (separable_compact hv w [] [] hw ends_nil ends_nil (by rw [h])).1

end StackFront.Json
