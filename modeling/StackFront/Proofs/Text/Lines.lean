import Mathlib.Data.List.DropRight
import StackFront.Program.Printer
import StackFront.Program.Reader

/-!
# Lines of a text

Cutting a text and dropping empty lines at its end are the list operations `splitOn` and
`rdropWhile`. Lines that were written with a line feed after each of them are read back, as long as
none of them holds a line feed and the last one is not empty.
-/
namespace StackFront

namespace Text

theorem map_ofList_toList (texts : List String) :
    (texts.map String.toList).map String.ofList = texts := by
  simp [Function.comp_def]

theorem map_toList_ofList (lines : List (List Char)) :
    (lines.map String.ofList).map String.toList = lines := by
  simp [Function.comp_def]

theorem splitAt_eq_splitOn (sep : Char) (s : List Char) : splitAt sep s = s.splitOn sep := by
  induction s with
  | nil => rfl
  | cons c rest ih =>
    rw [splitAt, List.splitOn_cons_eq_if_modifyHead, ih]
    by_cases hc : c = sep
    · simp [hc]
    · have hbeq : (c == sep) = false := by simpa using hc
      rw [if_neg hc, hbeq]
      cases h : rest.splitOn sep with
      | nil => exact absurd h (List.splitOn_ne_nil sep rest)
      | cons part parts => rfl

theorem dropTrailingEmpty_append_singleton (parts : List (List Char)) (part : List Char) :
    dropTrailingEmpty (parts ++ [part]) =
      if part = [] then dropTrailingEmpty parts else parts ++ [part] := by
  induction parts with
  | nil =>
    by_cases h : part = [] <;> simp [dropTrailingEmpty, h]
  | cons first parts ih =>
    rw [List.cons_append, dropTrailingEmpty, ih]
    by_cases h : part = []
    · simp only [h, if_true, dropTrailingEmpty]
    · simp only [if_neg h]
      cases parts <;> rfl

theorem dropTrailingEmpty_eq_rdropWhile (parts : List (List Char)) :
    dropTrailingEmpty parts = parts.rdropWhile (· = []) := by
  induction parts using List.reverseRecOn with
  | nil => rfl
  | append_singleton parts part ih =>
    rw [dropTrailingEmpty_append_singleton, List.rdropWhile_concat, ih]
    simp only [decide_eq_true_eq]

/-- A separator at the end stands before an empty last part. -/
theorem intercalate_append_empty (sep : Char) {parts : List (List Char)} (hne : parts ≠ []) :
    List.intercalate [sep] (parts ++ [[]]) = List.intercalate [sep] parts ++ [sep] := by
  induction parts with
  | nil => exact absurd rfl hne
  | cons part parts ih =>
    by_cases hp : parts = []
    · subst hp
      simp
    · rw [List.cons_append, List.intercalate_cons_of_ne_nil (by simp), ih hp,
        List.intercalate_cons_of_ne_nil hp]
      simp only [List.append_assoc]

theorem exists_intercalate_append (sep : Char) (parts : List (List Char)) (part : List Char) :
    ∃ front, List.intercalate [sep] (parts ++ [part]) = front ++ part := by
  induction parts with
  | nil => exact ⟨[], by simp⟩
  | cons first parts ih =>
    obtain ⟨front, hfront⟩ := ih
    refine ⟨first ++ [sep] ++ front, ?_⟩
    rw [List.cons_append, List.intercalate_cons_of_ne_nil (by simp), hfront]
    simp only [List.append_assoc]

/-- To leave out the empty parts at the end is to leave out the separators at the end. -/
theorem intercalate_rdropWhile {sep : Char} {parts : List (List Char)}
    (h : ∀ part ∈ parts, sep ∉ part) :
    List.intercalate [sep] (parts.rdropWhile (· = [])) =
      (List.intercalate [sep] parts).rdropWhile (· = sep) := by
  induction parts using List.reverseRecOn with
  | nil => rfl
  | append_singleton parts part ih =>
    by_cases hpart : part = []
    · subst hpart
      have hrest : ∀ part ∈ parts, sep ∉ part := fun p hp => h p (List.mem_append_left _ hp)
      rw [List.rdropWhile_concat_pos _ _ _ (by simp), ih hrest]
      by_cases hne : parts = []
      · simp [hne]
      · rw [intercalate_append_empty sep hne, List.rdropWhile_concat_pos _ _ _ (by simp)]
    · rw [List.rdropWhile_concat_neg _ _ _ (by simpa using hpart)]
      -- what is joined ends with the last character of the last part, which is no separator
      obtain ⟨front, hfront⟩ := exists_intercalate_append sep parts part
      have hsep : sep ∉ part := h part (List.mem_append_right _ (List.mem_singleton_self _))
      symm
      rw [List.rdropWhile_eq_self_iff]
      intro hne hlast
      simp only [hfront, List.getLast_append_of_ne_nil _ hpart, decide_eq_true_eq] at hlast
      exact hsep (hlast ▸ List.getLast_mem hpart)

end Text

namespace Program

theorem sourceLines_eq (text : List Char) :
    sourceLines text = (text.splitOn '\n').rdropWhile (· = []) := by
  rw [sourceLines, Text.splitAt_eq_splitOn, Text.dropTrailingEmpty_eq_rdropWhile]

theorem toList_unlines (lines : List String) :
    (unlines lines).toList = List.intercalate ['\n'] (lines.map String.toList) ++ ['\n'] := by
  rw [unlines, String.toList_append, String.toList_intercalate]
  rfl

/-- What `unlines` writes is read back line by line. -/
theorem sourceLines_unlines {lines : List String} (hne : lines ≠ [])
    (hfeed : ∀ line ∈ lines, '\n' ∉ line.toList)
    (hlast : (lines.map String.toList).getLast? ≠ some []) :
    sourceLines (unlines lines).toList = lines.map String.toList := by
  have hcut : (unlines lines).toList.splitOn '\n' = lines.map String.toList ++ [[]] := by
    rw [toList_unlines, ← Text.intercalate_append_empty _ (by simpa using hne)]
    apply List.splitOn_intercalate
    · intro line hline
      simp only [List.mem_append, List.mem_map, List.mem_singleton] at hline
      rcases hline with ⟨s, hs, rfl⟩ | rfl
      · exact hfeed s hs
      · exact List.not_mem_nil
    · simp
  rw [sourceLines_eq, hcut, List.rdropWhile_concat_pos _ _ _ (by simp),
    List.rdropWhile_eq_self_iff]
  intro hl
  rw [List.getLast?_eq_some_getLast hl] at hlast
  simpa using hlast

end Program

end StackFront
