import StackFront.Proofs.Program.RoundTrip

/-!
# Tokens of a text

A text is read operation by operation, as far as its characters belong to the alphabet. What is read
stands for the longest beginning of the text that is made of such characters, and it is written as
just this beginning. Reading breaks off exactly if the text goes on behind it.
-/
namespace StackFront.Op

variable {first rest text : List Char} {ops : List Op} {c : Char} {column : Nat}
  {line : Option Int}

/-- The longest beginning of a text that is made of characters of the alphabet. -/
structure IsLongestPrefix (text first : List Char) : Prop where
  isPrefix : first <+: text
  mem_alphabet : ∀ c ∈ first, c ∈ alphabet
  length_le : ∀ other, other <+: text → (∀ c ∈ other, c ∈ alphabet) → other.length ≤ first.length

/-- No beginning goes beyond a character outside of the alphabet. -/
theorem isLongestPrefix_of_stop (hfirst : ∀ c ∈ first, c ∈ alphabet)
    (hstop : ∀ c ∈ rest.head?, c ∉ alphabet) : IsLongestPrefix (first ++ rest) first := by
  refine ⟨List.prefix_append .., hfirst, fun other hother hmem => ?_⟩
  rcases List.prefix_or_prefix_of_prefix hother (List.prefix_append first rest) with h | h
  · exact h.length_le
  · obtain ⟨more, rfl⟩ := h
    rw [List.prefix_append_right_inj] at hother
    cases more with
    | nil => simp
    | cons c more =>
      obtain ⟨behind, rfl⟩ := hother
      exact absurd (hmem c (by simp)) (hstop c rfl)

/-- Every text has such a beginning, and a character outside of the alphabet follows if it goes
on. -/
theorem exists_isLongestPrefix (text : List Char) : ∃ first rest, text = first ++ rest ∧
    IsLongestPrefix text first ∧ ∀ c ∈ rest.head?, c ∉ alphabet := by
  have hfirst : ∀ c ∈ text.takeWhile (· ∈ alphabet), c ∈ alphabet := by
    intro c hc
    simpa using List.mem_takeWhile_imp hc
  have hstop : ∀ c ∈ (text.dropWhile (· ∈ alphabet)).head?, c ∉ alphabet := by
    intro c hc
    have hnot := List.head?_dropWhile_not (· ∈ alphabet) text
    rw [hc] at hnot
    simpa using hnot
  have hlongest := isLongestPrefix_of_stop hfirst hstop
  rw [List.takeWhile_append_dropWhile] at hlongest
  exact ⟨_, _, List.takeWhile_append_dropWhile.symm, hlongest, hstop⟩

/-! ## Single characters -/

theorem toList_char (c : Char) : c.toString.toList = [c] := by
  rw [Char.toString, String.toList_singleton]

theorem ofChar?_eq_none (h : c ∉ alphabet) : ofChar? c = none := by
  rw [mem_alphabet, ← Option.isSome_iff_exists] at h
  exact Option.not_isSome_iff_eq_none.mp h

/-- A character that stands for an operation is decoded as it. -/
theorem decode_of_ofChar? {op : Op} (h : ofChar? c = some op) : decode c.toString = .ok op := by
  simp only [decode, toList_char, h]

/-- A character outside of the alphabet is refused, and nothing is said about its place. -/
theorem decode_of_not_mem (h : c ∉ alphabet) :
    decode c.toString = .error { reason := .unrecognized c.toString } := by
  simp only [decode, toList_char, ofChar?_eq_none h]

theorem map_decode (h : first.map ofChar? = ops.map some) :
    first.map (fun c => decode c.toString) = ops.map .ok := by
  induction first generalizing ops with
  | nil => rw [List.map_eq_nil_iff.mp h.symm]; rfl
  | cons c first ih =>
    cases ops with
    | nil => cases h
    | cons op ops =>
      rw [List.map_cons, List.map_cons, List.cons.injEq] at h
      rw [List.map_cons, List.map_cons, decode_of_ofChar? h.1, ih h.2]

/-! ## Whole texts -/

/-- Reading passes the characters that stand for operations one by one. -/
theorem scan_append (h : first.map ofChar? = ops.map some) : scan column (first ++ rest) =
    (ops ++ (scan (column + first.length) rest).1, (scan (column + first.length) rest).2) := by
  induction first generalizing ops column with
  | nil => rw [List.map_eq_nil_iff.mp h.symm]; rfl
  | cons c first ih =>
    cases ops with
    | nil => cases h
    | cons op ops =>
      rw [List.map_cons, List.map_cons, List.cons.injEq] at h
      rw [List.cons_append, scan, h.1]
      simp only [ih h.2, List.length_cons, Nat.add_assoc, Nat.add_comm 1, List.cons_append]

/-- What is read of a text that goes on with a character outside of the alphabet. -/
theorem tokenize_of_stop (h : first.map ofChar? = ops.map some) (hc : c ∉ alphabet) :
    tokenize (first ++ c :: rest) line = (ops, some
      { reason := .unrecognized c.toString, line, column := some (first.length + 1 : Nat) }) := by
  rw [tokenize, scan_append h, scan, ofChar?_eq_none hc]
  simp [Nat.add_comm]

/-- The operations that are read are those of the longest beginning that is made of characters of
the alphabet. Reading comes to an end exactly if this is the whole text; it breaks off otherwise,
for the reason for which the character behind the beginning is refused on its own, at the column of
that character. -/
theorem tokenize_longestPrefix (text : List Char) (line : Option Int) :
    ∃ first ops stop, IsLongestPrefix text first ∧ tokenize text line = (ops, stop) ∧
      first.map (fun c => decode c.toString) = ops.map .ok ∧ encodeAll ops = .ok first ∧
      (stop = none ↔ first = text) ∧
      ∀ c rest, text = first ++ c :: rest → ∃ e, decode c.toString = .error e ∧
        stop = some { e with line, column := some (first.length + 1 : Nat) } := by
  obtain ⟨first, rest, htext, hlongest, hstop⟩ := exists_isLongestPrefix text
  obtain ⟨ops, hops⟩ := exists_map_ofChar? hlongest.mem_alphabet
  have hdecode := map_decode hops
  have hencode := encodeAll_of_map hops
  cases rest with
  | nil =>
    rw [List.append_nil] at htext
    subst htext
    refine ⟨text, ops, none, hlongest, tokenize_eq_iff.mpr hops, hdecode, hencode, by simp, ?_⟩
    intro c rest h
    simp at h
  | cons d after =>
    have hd : d ∉ alphabet := hstop d rfl
    subst htext
    refine ⟨first, ops, _, hlongest, tokenize_of_stop hops hd, hdecode, hencode, by simp, ?_⟩
    intro c rest h
    obtain ⟨rfl, rfl⟩ := List.cons.inj (List.append_cancel_left h)
    exact ⟨_, decode_of_not_mem hd, rfl⟩

example : tokenize "1s_ 2".toList (some 7) = ([.literal 1, .opcode .arcsine, .opcode .truncate],
    some { reason := .unrecognized " ", line := some 7, column := some 4 }) := by decide

end StackFront.Op
