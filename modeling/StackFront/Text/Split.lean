/-!
# Texts cut at a separator

`splitAt sep` cuts a text at every separator and keeps empty parts; `joinWith sep` puts the parts
together again. Cutting undoes joining for parts that are free of the separator, and joining always
undoes cutting.
-/
namespace StackFront.Text

/-- The parts of a text between its separators; there is always at least one. -/
def splitAt (sep : Char) : List Char → List (List Char)
  | [] => [[]]
  | c :: rest =>
    if c = sep then [] :: splitAt sep rest
    else match splitAt sep rest with
      | [] => [[c]]
      | part :: parts => (c :: part) :: parts

/-- The parts with one separator between any two neighbours. -/
def joinWith (sep : Char) : List (List Char) → List Char
  | [] => []
  | [part] => part
  | part :: next :: parts => part ++ sep :: joinWith sep (next :: parts)

theorem splitAt_ne_nil (sep : Char) (s : List Char) : splitAt sep s ≠ [] := by
  cases s with
  | nil => simp [splitAt]
  | cons c rest =>
    simp only [splitAt]
    split
    · simp
    · split <;> simp

@[simp] theorem joinWith_splitAt (sep : Char) (s : List Char) :
    joinWith sep (splitAt sep s) = s := by
  induction s with
  | nil => rfl
  | cons c rest ih =>
    simp only [splitAt]
    cases h : splitAt sep rest with
    | nil => exact absurd h (splitAt_ne_nil sep rest)
    | cons part parts =>
      rw [h] at ih
      by_cases hc : c = sep
      · simp [hc, joinWith, ih]
      · cases parts <;> simp_all [joinWith]

theorem not_mem_of_mem_splitAt {sep : Char} {s part : List Char} (h : part ∈ splitAt sep s) :
    sep ∉ part := by
  induction s generalizing part with
  | nil =>
    simp only [splitAt, List.mem_singleton] at h
    simp [h]
  | cons c rest ih =>
    simp only [splitAt] at h
    split at h
    · rcases List.mem_cons.mp h with rfl | h
      · simp
      · exact ih h
    next hc =>
      cases hs : splitAt sep rest with
      | nil => exact absurd hs (splitAt_ne_nil sep rest)
      | cons first others =>
        rw [hs] at h ih
        rcases List.mem_cons.mp h with rfl | h
        · simp only [List.mem_cons, not_or]
          exact ⟨fun e => hc e.symm, ih (List.mem_cons_self ..)⟩
        · exact ih (List.mem_cons_of_mem _ h)

theorem splitAt_eq_singleton {sep : Char} {s : List Char} (h : sep ∉ s) :
    splitAt sep s = [s] := by
  induction s with
  | nil => rfl
  | cons c rest ih =>
    simp only [List.mem_cons, not_or] at h
    simp [splitAt, Ne.symm h.1, ih h.2]

theorem splitAt_append_cons {sep : Char} {s rest : List Char} (h : sep ∉ s) :
    splitAt sep (s ++ sep :: rest) = s :: splitAt sep rest := by
  induction s with
  | nil => simp [splitAt]
  | cons c s ih =>
    simp only [List.mem_cons, not_or] at h
    simp [splitAt, Ne.symm h.1, ih h.2]

theorem splitAt_joinWith {sep : Char} {parts : List (List Char)} (hne : parts ≠ [])
    (h : ∀ part ∈ parts, sep ∉ part) : splitAt sep (joinWith sep parts) = parts := by
  induction parts with
  | nil => exact absurd rfl hne
  | cons part parts ih =>
    have hpart := h part (List.mem_cons_self ..)
    cases parts with
    | nil => exact splitAt_eq_singleton hpart
    | cons next parts =>
      rw [joinWith, splitAt_append_cons hpart,
        ih (by simp) fun p hp => h p (List.mem_cons_of_mem _ hp)]

/-- Drops the empty parts at the end. -/
def dropTrailingEmpty : List (List Char) → List (List Char)
  | [] => []
  | part :: parts =>
    match dropTrailingEmpty parts with
    | [] => if part = [] then [] else [part]
    | rest => part :: rest

/-- Every line end, a carriage return, a line feed or both in this order, as one line feed. -/
def unifyLineEnds : List Char → List Char
  | [] => []
  | '\r' :: '\n' :: rest => '\n' :: unifyLineEnds rest
  | c :: rest => (if c = '\r' then '\n' else c) :: unifyLineEnds rest

end StackFront.Text
