import StackFront.Proofs.Json.Compact
import StackFront.Proofs.Json.Plain

/-!
# Indented texts read back

A value that is written with every item on a line of its own is read back as it was, whatever stands
behind it but for a digit. The reader needs no more steps than there are characters, since each item
stands behind a line end. An object comes back with its members in their order as long as no key
stands twice in it, and a number as long as it has no more digits than are read.
-/
namespace StackFront.Json

variable {rest : List Char} {depth fuel : Nat} {v : Json}

theorem natOfDigits_toDigits (n : Nat) : natOfDigits (Nat.toDigits 10 n) = n := by
  have hback : Nat.ofDigitChars 10 (Nat.toDigits 10 n) 0 = n :=
    Nat.ofDigitChars_toDigits (by decide) (by decide)
  rw [Nat.ofDigitChars_eq_foldl] at hback
  rwa [natOfDigits, Text.ofDigits, List.foldl_map]

/-- Only the digits of zero begin with a zero. -/
theorem eq_zero_of_toDigits {n : Nat} {digits : List Char}
    (h : Nat.toDigits 10 n = '0' :: digits) : n = 0 := by
  induction n using Nat.strongRecOn generalizing digits with
  | ind n ih =>
    by_cases hn : n < 10
    · have hdigit : ∀ d : Fin 10, Nat.digitChar d = '0' → d.val = 0 := by decide
      rw [Nat.toDigits_of_lt_base hn] at h
      exact hdigit ⟨n, hn⟩ (List.cons.inj h).1
    · obtain ⟨c, high, hhigh, -⟩ := exists_toDigits (n / 10)
      rw [Nat.toDigits_of_base_le (by decide) (by omega), hhigh, List.cons_append] at h
      rw [(List.cons.inj h).1] at hhigh
      have := ih (n / 10) (by omega) hhigh
      omega

theorem readDigits_toDigits (n : Nat) (hrest : Ends rest) :
    readDigits (Nat.toDigits 10 n ++ rest) = (Nat.toDigits 10 n, rest) := by
  by_cases hn : n = 0
  · subst hn
    rfl
  · have hdrop : (Nat.toDigits 10 n ++ rest).dropWhile Char.isDigit = rest := by
      have hall := List.takeWhile_append_dropWhile (p := Char.isDigit)
        (l := Nat.toDigits 10 n ++ rest)
      rw [takeWhile_toDigits n hrest] at hall
      exact List.append_cancel_left hall
    unfold readDigits
    split
    next digits h =>
      obtain ⟨c, high, hhigh, -⟩ := exists_toDigits n
      rw [hhigh, List.cons_append] at h
      rw [(List.cons.inj h).1] at hhigh
      exact absurd (eq_zero_of_toDigits hhigh) hn
    next => rw [takeWhile_toDigits n hrest, hdrop]

theorem readFraction_of_ends (h : Ends rest) : readFraction rest = ([], rest) := by
  unfold readFraction
  split
  next tail => exact absurd (h '.' rfl) (by decide)
  next => rfl

theorem readPower_of_ends (h : Ends rest) : readPower rest = (none, rest) := by
  cases rest with
  | nil => rfl
  | cons c rest =>
    have hc := h c rfl
    have hpower : ¬ (c = 'e' ∨ c = 'E') := by
      rintro (rfl | rfl) <;> exact absurd hc (by decide)
    simp only [readPower, if_neg hpower]

theorem readWord?_of_isDigit {c : Char} {s : List Char} (h : c.isDigit = true) :
    readWord? (c :: s) = none ∧ readWord? ('-' :: c :: s) = none := by
  have hne : ∀ d : Char, d.isDigit = false → c ≠ d := by
    rintro d hd rfl
    simp [h] at hd
  constructor
  all_goals
    unfold readWord?
    split
    all_goals simp_all

theorem readUnsigned_toDigits {signed : List Char} (negative : Bool) (n : Nat)
    (hrest : Ends rest) :
    readUnsigned signed negative (Nat.toDigits 10 n ++ rest) =
      if (Nat.toDigits 10 n).length > Text.maxDigits then
        .error (.numberTooLong (Nat.toDigits 10 n).length)
      else .ok (.integer (if negative then -(n : Int) else n), rest) := by
  simp only [readUnsigned, readDigits_toDigits n hrest, readFraction_of_ends hrest,
    readPower_of_ends hrest, Nat.toDigits_ne_nil, if_false, numberOf, natOfDigits_toDigits]
  split <;> rfl

/-- An integer is read back unless it has too many digits. -/
theorem readNumber_printedNumber (n : Int) (hrest : Ends rest) :
    readNumber (printedNumber n ++ rest) =
      if (Nat.toDigits 10 n.natAbs).length > Text.maxDigits then
        .error (.numberTooLong (Nat.toDigits 10 n.natAbs).length)
      else .ok (.integer n, rest) := by
  cases n with
  | ofNat n =>
    obtain ⟨c, digits, hdigits, hc⟩ := exists_toDigits n
    have hsign : readSign (Nat.toDigits 10 n ++ rest) = (false, Nat.toDigits 10 n ++ rest) := by
      unfold readSign
      split
      next tail h => exact absurd h (toDigits_append_ne n)
      next => rfl
    have hword : readWord? (Nat.toDigits 10 n ++ rest) = none := by
      rw [hdigits]
      exact (readWord?_of_isDigit hc).1
    simp only [printedNumber, readNumber, hword, hsign, readUnsigned_toDigits _ _ hrest]
    rfl
  | negSucc n =>
    obtain ⟨c, digits, hdigits, hc⟩ := exists_toDigits (n + 1)
    have hneg : Int.negSucc n = -((n + 1 : Nat) : Int) := rfl
    have hword : readWord? ('-' :: (Nat.toDigits 10 (n + 1) ++ rest)) = none := by
      rw [hdigits]
      exact (readWord?_of_isDigit hc).2
    simp only [printedNumber, List.cons_append, readNumber, hword, readSign,
      readUnsigned_toDigits _ _ hrest, hneg, if_true]
    rfl

theorem readValue_number {c : Char} {cs : List Char} (hc : c = '-' ∨ c.isDigit = true) :
    readValue (fuel + 1) (c :: cs) =
      (readNumber (c :: cs)).map fun read => (.number read.1, read.2) := by
  rw [readValue]
  all_goals
    intro rest h
    rw [(List.cons.inj h).1] at hc
    simp at hc

theorem exists_printedNumber (n : Int) :
    ∃ c cs, printedNumber n = c :: cs ∧ (c = '-' ∨ c.isDigit = true) := by
  cases n with
  | ofNat n =>
    obtain ⟨c, cs, hdigits, hc⟩ := exists_toDigits n
    exact ⟨c, cs, hdigits, .inr hc⟩
  | negSucc n => exact ⟨'-', _, rfl, .inl rfl⟩

/-- The first character of a value tells its shape also where the value is indented. -/
theorem exists_indented (hv : v.HasNoFloats) (depth : Nat) :
    ∃ c cs, indented depth v = c :: cs ∧ Shape.ofFirst? c = some v.shape := by
  cases v with
  | null => exact ⟨_, _, rfl, rfl⟩
  | bool b => cases b <;> exact ⟨_, _, rfl, rfl⟩
  | number n => exact exists_compact hv
  | string s => exact ⟨_, _, rfl, rfl⟩
  | array items => cases items <;> exact ⟨_, _, rfl, rfl⟩
  | object members => cases members <;> exact ⟨_, _, rfl, rfl⟩

theorem skipBlanks_cons {c : Char} {cs : List Char} (h : isBlank c = false) :
    skipBlanks (c :: cs) = c :: cs := by
  simp [skipBlanks, h]

theorem skipBlanks_lineAt (depth : Nat) (s : List Char) :
    skipBlanks (lineAt depth ++ s) = skipBlanks s := by
  have hall : ∀ c ∈ lineAt depth, isBlank c = true := by
    intro c hc
    rcases List.mem_cons.mp hc with rfl | hc
    · decide
    · rw [List.eq_of_mem_replicate hc]
      decide
  exact List.dropWhile_append_of_pos hall

/-- No value without floats begins with a blank. -/
theorem skipBlanks_indented (hv : v.HasNoFloats) (depth : Nat) (rest : List Char) :
    skipBlanks (indented depth v ++ rest) = indented depth v ++ rest := by
  obtain ⟨c, cs, hv, hc⟩ := exists_indented hv depth
  rw [hv, List.cons_append]
  apply skipBlanks_cons
  cases hblank : isBlank c with
  | false => rfl
  | true =>
    simp only [isBlank, Bool.or_eq_true, decide_eq_true_eq] at hblank
    rcases hblank with ((rfl | rfl) | rfl) | rfl <;> cases hc

theorem ends_lineAt (depth : Nat) (s : List Char) : Ends (lineAt depth ++ s) :=
  ends_cons (by decide)

/-- An indented value without floats is taken off the front of a text, with a step for each of its
characters at most. -/
structure IsReadBack (depth : Nat) (v : Json) : Prop where
  noFloats : v.HasNoFloats
  read : ∀ fuel rest, Ends rest → (indented depth v).length ≤ fuel →
    readValue fuel (indented depth v ++ rest) = .ok (v, rest)

/-- No text is empty, so there is a step for every value. -/
theorem isReadBack_of_succ (hv : v.HasNoFloats)
    (h : ∀ fuel rest, Ends rest → (indented depth v).length ≤ fuel + 1 →
      readValue (fuel + 1) (indented depth v ++ rest) = .ok (v, rest)) : IsReadBack depth v := by
  refine ⟨hv, fun fuel rest hrest hfuel => ?_⟩
  cases fuel with
  | zero =>
    obtain ⟨c, cs, hv, -⟩ := exists_indented hv depth
    rw [hv] at hfuel
    cases hfuel
  | succ fuel => exact h fuel rest hrest hfuel

section Items

variable {tail : List Char}

/-- What is read from an item on that has been read already. -/
def itemsBehind (fuel : Nat) (v : Json) (tail : List Char) : Except Stop (List Json × List Char) :=
  match skipBlanks tail with
  | ']' :: rest => .ok ([v], rest)
  | ',' :: rest => (readItems fuel (skipBlanks rest)).map fun read => (v :: read.1, read.2)
  | rest => .error (.malformed .comma rest)

theorem readItems_cons (hv : IsReadBack depth v) (hfuel : (indented depth v).length ≤ fuel)
    (htail : Ends tail) :
    readItems (fuel + 1) (skipBlanks (lineAt depth ++ indented depth v ++ tail)) =
      itemsBehind fuel v tail := by
  rw [List.append_assoc, skipBlanks_lineAt, skipBlanks_indented hv.noFloats, readItems,
    hv.read fuel tail htail hfuel]
  rfl

/-- Items on lines of their own are read back up to the closing bracket. -/
theorem readItems_indented {items : List Json} (hne : items ≠ [])
    (h : ∀ v ∈ items, IsReadBack depth v) (outer : Nat)
    (hfuel : (indentedItems depth items).length ≤ fuel) :
    readItems fuel (skipBlanks (indentedItems depth items ++ (lineAt outer ++ ']' :: rest))) =
      .ok (items, rest) := by
  induction items generalizing fuel with
  | nil => exact absurd rfl hne
  | cons v items ih =>
    rw [List.forall_mem_cons] at h
    cases items with
    | nil =>
      simp only [indentedItems, lineAt, List.length_append, List.length_cons] at hfuel
      obtain ⟨fuel, rfl⟩ : ∃ f, fuel = f + 1 := ⟨fuel - 1, by omega⟩
      rw [indentedItems, readItems_cons h.1 (by omega) (ends_lineAt _ _), itemsBehind,
        skipBlanks_lineAt, skipBlanks_cons (by decide)]
      rfl
    | cons w items =>
      simp only [indentedItems.eq_3, lineAt, List.length_append, List.length_cons] at hfuel
      obtain ⟨fuel, rfl⟩ : ∃ f, fuel = f + 1 := ⟨fuel - 1, by omega⟩
      have hnext := @ih fuel (by simp) h.2 (by omega)
      rw [indentedItems, List.append_assoc, List.cons_append, readItems_cons h.1 (by omega)
        (ends_cons (by decide)), itemsBehind, skipBlanks_cons (by decide)]
      simp only [hnext, Except.map]

end Items

section Members

variable {tail : List Char} {m : String × Json} {known members : List (String × Json)}

theorem setMember_of_notMem {key : String} (h : key ∉ members.map Prod.fst) :
    setMember key v members = members ++ [(key, v)] := by
  induction members with
  | nil => rfl
  | cons m members ih =>
    rw [List.map_cons, List.mem_cons, not_or] at h
    rw [setMember, if_neg (Ne.symm h.1), ih h.2, List.cons_append]

/-- What is read from the end of a member on, where it and those before it are known. -/
def membersBehind (fuel : Nat) (known : List (String × Json)) (tail : List Char) :
    Except Stop (List (String × Json) × List Char) :=
  match skipBlanks tail with
  | '\x7d' :: rest => .ok (known, rest)
  | ',' :: rest => readMembers fuel known (skipBlanks rest)
  | rest => .error (.malformed .comma rest)

theorem readMembers_cons (hv : IsReadBack depth m.2) (hfuel : (indented depth m.2).length ≤ fuel)
    (hnew : m.1 ∉ known.map Prod.fst) (htail : Ends tail) :
    readMembers (fuel + 1) known
        (skipBlanks (lineAt depth ++ printedString m.1 ++
          ':' :: ' ' :: indented depth m.2 ++ tail)) =
      membersBehind fuel (known ++ [m]) tail := by
  have hblank : ∀ s, skipBlanks (' ' :: s) = skipBlanks s := fun _ => rfl
  simp only [printedString, List.append_assoc, List.cons_append, List.nil_append]
  rw [skipBlanks_lineAt, skipBlanks_cons (by decide), readMembers]
  simp only [readString_escaped, skipBlanks_cons (c := ':') (by decide), hblank,
    skipBlanks_indented hv.noFloats, String.ofList_toList, hv.read fuel tail htail hfuel,
    setMember_of_notMem hnew]
  rfl

/-- Members on lines of their own are read back up to the closing brace, behind those that are
known. -/
theorem readMembers_indented (hne : members ≠ []) (h : ∀ m ∈ members, IsReadBack depth m.2)
    (hkeys : ((known ++ members).map Prod.fst).Nodup) (outer : Nat)
    (hfuel : (indentedMembers depth members).length ≤ fuel) :
    readMembers fuel known
        (skipBlanks (indentedMembers depth members ++ (lineAt outer ++ '\x7d' :: rest))) =
      .ok (known ++ members, rest) := by
  induction members generalizing fuel known with
  | nil => exact absurd rfl hne
  | cons m members ih =>
    rw [List.forall_mem_cons] at h
    have hnew : m.1 ∉ known.map Prod.fst := by
      intro hmem
      rw [List.map_append, List.map_cons, List.nodup_append] at hkeys
      exact hkeys.2.2 m.1 hmem m.1 (List.mem_cons_self ..) rfl
    cases members with
    | nil =>
      simp only [indentedMembers, lineAt, List.length_append, List.length_cons] at hfuel
      obtain ⟨fuel, rfl⟩ : ∃ f, fuel = f + 1 := ⟨fuel - 1, by omega⟩
      rw [indentedMembers, readMembers_cons h.1 (by omega) hnew (ends_lineAt _ _), membersBehind,
        skipBlanks_lineAt, skipBlanks_cons (by decide)]
      rfl
    | cons n members =>
      simp only [indentedMembers, lineAt, List.length_append, List.length_cons] at hfuel
      obtain ⟨fuel, rfl⟩ : ∃ f, fuel = f + 1 := ⟨fuel - 1, by omega⟩
      have hnext := @ih fuel (known ++ [m]) (by simp) h.2 (by simpa using hkeys) (by omega)
      rw [indentedMembers, List.append_assoc, List.cons_append, readMembers_cons h.1 (by omega) hnew
        (ends_cons (by decide)), membersBehind, skipBlanks_cons (by decide)]
      simpa using hnext

end Members

/-- A text that items are read from does not begin with the closing bracket. -/
theorem readValue_array {s : List Char} {items : List Json}
    (h : readItems fuel (skipBlanks s) = .ok (items, rest)) :
    readValue (fuel + 1) ('[' :: s) = .ok (.array items, rest) := by
  rw [readValue]
  split
  next tail hclose =>
    rw [hclose] at h
    cases fuel with
    | zero => cases h
    | succ fuel => cases fuel <;> cases h
  next => rw [h]; rfl

/-- A text that members are read from does not begin with the closing brace. -/
theorem readValue_object {s : List Char} {members : List (String × Json)}
    (h : readMembers fuel [] (skipBlanks s) = .ok (members, rest)) :
    readValue (fuel + 1) ('\x7b' :: s) = .ok (.object members, rest) := by
  rw [readValue]
  split
  next tail hclose =>
    rw [hclose] at h
    cases fuel <;> cases h
  next => rw [h]; rfl

/-- Every value is read back from its indented text. -/
theorem isReadBack (hkeys : v.HasDistinctKeys) (hdigits : v.HasFewDigits) (hfloats : v.HasNoFloats)
    (depth : Nat) : IsReadBack depth v := by
  induction hkeys generalizing depth with
  | null => exact isReadBack_of_succ hfloats fun _ _ _ _ => rfl
  | @bool b => cases b <;> exact isReadBack_of_succ hfloats fun _ _ _ _ => rfl
  | @number n =>
    apply isReadBack_of_succ hfloats
    intro fuel rest hrest _
    obtain ⟨n, rfl⟩ := hfloats.exists_integer
    obtain ⟨c, cs, hn, hc⟩ := exists_printedNumber n
    have hfew : ¬ (Nat.toDigits 10 n.natAbs).length > Text.maxDigits := by
      simpa [DigitsFew, isLong] using everywhere_number.mp hdigits
    rw [indented, Number.printed, hn, List.cons_append, readValue_number hc, ← List.cons_append,
      ← hn, readNumber_printedNumber n hrest, if_neg hfew]
    rfl
  | @string s =>
    apply isReadBack_of_succ hfloats
    intro fuel rest _ _
    simp only [indented, printedString, List.cons_append, List.append_assoc, List.nil_append]
    rw [readValue, readString_escaped]
    simp [Except.map]
  | @array items _ _ ih =>
    apply isReadBack_of_succ hfloats
    intro fuel rest _ hfuel
    have hread : ∀ v ∈ items, IsReadBack (depth + 1) v := fun v hv =>
      ih v hv ((everywhere_array.mp hdigits).2 v hv) ((everywhere_array.mp hfloats).2 v hv)
        (depth + 1)
    cases items with
    | nil => rfl
    | cons v items =>
      simp only [indented, List.length_append, List.length_cons] at hfuel
      simp only [indented, List.cons_append, List.append_assoc, List.nil_append]
      exact readValue_array (readItems_indented (by simp) hread depth (by omega))
  | @object members hkeys _ ih =>
    apply isReadBack_of_succ hfloats
    intro fuel rest _ hfuel
    have hread : ∀ m ∈ members, IsReadBack (depth + 1) m.2 := fun m hm =>
      ih m hm ((everywhere_object.mp hdigits).2 m hm) ((everywhere_object.mp hfloats).2 m hm)
        (depth + 1)
    have hkeys : (([] ++ members).map Prod.fst).Nodup := hkeys
    cases members with
    | nil => rfl
    | cons m members =>
      simp only [indented, List.length_append, List.length_cons] at hfuel
      simp only [indented, List.cons_append, List.append_assoc, List.nil_append]
      exact readValue_object (readMembers_indented (by simp) hread hkeys depth (by omega))

/-- The whole text of a value is read back. -/
theorem read_indented (hkeys : v.HasDistinctKeys) (hdigits : v.HasFewDigits)
    (hfloats : v.HasNoFloats) : read (indented 0 v) = .ok v := by
  have hmark : (indented 0 v).head? ≠ some '\ufeff' := by
    obtain ⟨c, cs, hv, hc⟩ := exists_indented hfloats 0
    rw [hv, List.head?_cons, ne_eq, Option.some.injEq]
    rintro rfl
    cases hc
  have hblank := skipBlanks_indented hfloats 0 []
  have hvalue := (isReadBack hkeys hdigits hfloats 0).read (readFuel (indented 0 v)) [] ends_nil
    (by rw [readFuel]; omega)
  have hhalf : hasLoneHalf (indented 0 v) = false := by
    rw [← List.append_nil (indented 0 v), isHalfless_indented hfloats 0, hasLoneHalf]
  have hempty : skipBlanks [] = [] := rfl
  rw [List.append_nil] at hblank hvalue
  rw [read, readAll, if_neg hmark, hblank, hvalue]
  simp only [hempty, hhalf]
  rfl

end StackFront.Json
