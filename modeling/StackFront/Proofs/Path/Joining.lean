import Mathlib.Data.List.DropRight
import StackFront.Proofs.Path.NormalForm

/-!
# Directories and what is joined to them

The proper parts of a path are what counts of it. A path has those of its directory and, behind
them, its last part; and what is joined to a directory has its own parts behind those of the
directory. So the parts of a target as seen from a file are known without looking at slashes again.
-/
namespace StackFront

namespace Text

theorem splitAt_append (sep : Char) (s rest : List Char) :
    splitAt sep (s ++ sep :: rest) = splitAt sep s ++ splitAt sep rest := by
  induction s with
  | nil => simp [splitAt]
  | cons c s ih =>
    rw [List.cons_append, splitAt, splitAt, ih]
    by_cases hc : c = sep
    · rw [if_pos hc, if_pos hc, List.cons_append]
    · rw [if_neg hc, if_neg hc]
      cases hs : splitAt sep s with
      | nil => exact absurd hs (splitAt_ne_nil sep s)
      | cons part parts => rfl

theorem joinWith_append {sep : Char} {first second : List (List Char)} (hfirst : first ≠ [])
    (hsecond : second ≠ []) :
    joinWith sep (first ++ second) = joinWith sep first ++ sep :: joinWith sep second := by
  induction first with
  | nil => exact absurd rfl hfirst
  | cons part first ih =>
    cases first with
    | nil =>
      obtain ⟨next, rest, rfl⟩ := List.exists_cons_of_ne_nil hsecond
      rfl
    | cons next first =>
      rw [List.cons_append, List.cons_append, joinWith, ← List.cons_append, ih (by simp), joinWith,
        List.append_assoc, List.cons_append]

end Text

namespace Path

variable {path directory target : List Char}

@[simp] theorem properParts_nil : properParts [] = [] := rfl

theorem properParts_append (first second : List Char) :
    properParts (first ++ '/' :: second) = properParts first ++ properParts second := by
  rw [properParts, Text.splitAt_append, List.filter_append]
  rfl

/-- Slashes at the end do not count. -/
theorem properParts_trimSlashes (path : List Char) :
    properParts (trimSlashes path) = properParts path := by
  have htrim : ∀ path, trimSlashes path = path.rdropWhile (· = '/') := fun _ => rfl
  rw [htrim]
  induction path using List.reverseRecOn with
  | nil => rfl
  | append_singleton path c ih =>
    by_cases hc : c = '/'
    · subst hc
      rw [List.rdropWhile_concat_pos _ _ _ (by simp), ih, properParts_append, properParts_nil,
        List.append_nil]
    · rw [List.rdropWhile_concat_neg _ _ _ (by simpa using hc)]

/-- All up to the last slash. -/
def upToSlash (path : List Char) : List Char :=
  path.rdropWhile (· ≠ '/')

theorem directory_eq (path : List Char) :
    Path.directory path = if (upToSlash path).all (· = '/') then upToSlash path
      else trimSlashes (upToSlash path) := rfl

/-- A path is cut at its last slash. -/
theorem exists_last (path : List Char) :
    ∃ last, path = upToSlash path ++ last ∧ '/' ∉ last ∧
      (upToSlash path = [] ∨ ∃ front, upToSlash path = front ++ ['/']) := by
  refine ⟨path.rtakeWhile (· ≠ '/'), List.rdropWhile_append_rtakeWhile.symm, fun hmem => ?_, ?_⟩
  · simpa using List.mem_rtakeWhile_imp hmem
  · by_cases hne : upToSlash path = []
    · exact .inl hne
    · have hlast := List.rdropWhile_last_not (fun c : Char => decide (c ≠ '/')) path hne
      have hslash : (upToSlash path).getLast hne = '/' := by simpa [upToSlash] using hlast
      exact .inr ⟨(upToSlash path).dropLast, by rw [← hslash, List.dropLast_append_getLast]⟩

theorem properParts_of_not_mem {last : List Char} (h : '/' ∉ last) :
    properParts last = if last = [] ∨ last = here then [] else [last] := by
  rw [properParts, Text.splitAt_eq_singleton h]
  by_cases hlast : last = [] ∨ last = here
  · rw [if_pos hlast]
    rcases hlast with rfl | rfl <;> rfl
  · rw [if_neg hlast]
    rw [not_or] at hlast
    simp [hlast]

theorem properParts_directory (path : List Char) :
    properParts (Path.directory path) = properParts (upToSlash path) := by
  rw [directory_eq]
  split
  · rfl
  · exact properParts_trimSlashes _

/-- A path has the parts of its directory and its last part, if that is a proper one. -/
theorem properParts_eq_directory (path : List Char) :
    ∃ last, (Text.splitAt '/' path).getLast? = some last ∧
      properParts path = properParts (Path.directory path) ++
        if last = [] ∨ last = here then [] else [last] := by
  obtain ⟨last, hpath, hlast, hfront⟩ := exists_last path
  refine ⟨last, ?_, ?_⟩
  · rcases hfront with hnil | ⟨front, hfront⟩
    · rw [hnil, List.nil_append] at hpath
      rw [hpath, Text.splitAt_eq_singleton hlast, List.getLast?_singleton]
    · rw [hpath, hfront, List.append_assoc, List.singleton_append, Text.splitAt_append,
        Text.splitAt_eq_singleton hlast, List.getLast?_concat]
  · rw [properParts_directory, ← properParts_of_not_mem hlast]
    rcases hfront with hnil | ⟨front, hfront⟩
    · rw [hnil, List.nil_append] at hpath
      rw [hnil, ← hpath]
      rfl
    · conv_lhs => rw [hpath]
      rw [hfront, List.append_assoc, List.singleton_append, properParts_append,
        properParts_append]
      rw [properParts_nil, List.append_nil]

theorem head?_of_prefix {first : List Char} (h : first <+: path) (hne : first ≠ []) :
    first.head? = path.head? := by
  obtain ⟨rest, rfl⟩ := h
  rw [List.head?_append_of_ne_nil _ hne]

/-- The directory of a path is absolute if the path is. -/
theorem isAbsolute_directory (path : List Char) :
    isAbsolute (Path.directory path) = isAbsolute path := by
  have hup : upToSlash path <+: path := List.rdropWhile_prefix _ _
  have htrim : trimSlashes (upToSlash path) <+: upToSlash path := List.rdropWhile_prefix _ _
  by_cases hnil : upToSlash path = []
  · have hslash : '/' ∉ path := fun hmem => by
      simpa using List.rdropWhile_eq_nil_iff.mp hnil '/' hmem
    have hrel : isAbsolute path = false := by
      cases path with
      | nil => rfl
      | cons c rest =>
        have hc : c ≠ '/' := fun e => hslash (e ▸ List.mem_cons_self ..)
        simp [isAbsolute, hc]
    rw [directory_eq, hnil, hrel]
    rfl
  · rw [directory_eq]
    split
    · rw [isAbsolute, isAbsolute, head?_of_prefix hup hnil]
    next hall =>
      have hne : trimSlashes (upToSlash path) ≠ [] := fun h => by
        apply hall
        rw [List.all_eq_true]
        exact List.rdropWhile_eq_nil_iff.mp h
      rw [isAbsolute, isAbsolute, head?_of_prefix htrim hne, head?_of_prefix hup hnil]

/-- What is joined to a directory has its parts behind those of the directory. -/
theorem properParts_join (hrel : isAbsolute target = false) :
    properParts (join directory target) = properParts directory ++ properParts target := by
  rw [join, hrel, if_neg Bool.false_ne_true]
  split
  next h =>
    rcases h with rfl | hslash
    · rfl
    · obtain ⟨front, rfl⟩ := List.getLast?_eq_some_iff.mp hslash
      rw [List.append_assoc, List.singleton_append, properParts_append, properParts_append,
        properParts_nil, List.append_nil]
  · exact properParts_append directory target

theorem isAbsolute_join (hrel : isAbsolute target = false) :
    isAbsolute (join directory target) = isAbsolute directory := by
  rw [join, hrel, if_neg Bool.false_ne_true]
  by_cases hnil : directory = []
  · rw [if_pos (.inl hnil), hnil, List.nil_append, hrel]
    rfl
  · split
    · rw [isAbsolute, isAbsolute, List.head?_append_of_ne_nil _ hnil]
    · rw [isAbsolute, isAbsolute, List.head?_append_of_ne_nil _ hnil]

theorem join_of_absolute (habs : isAbsolute target = true) : join directory target = target := by
  rw [join, if_pos habs]

/-- A way up that cannot be taken back stays. -/
theorem parent_mem_foldl {parts stack : List (List Char)} (h : parent ∈ stack) :
    parent ∈ parts.foldl (push false) stack := by
  induction parts generalizing stack with
  | nil => exact h
  | cons part parts ih =>
    apply ih
    unfold push
    split
    · exact h
    · split
      · exact List.mem_cons_of_mem _ h
      next hparent =>
        rw [Decidable.not_not] at hparent
        cases stack with
        | nil => simp at h
        | cons top rest =>
          by_cases htop : top = parent
          · simp [htop, hparent]
          · have hrest : parent ∈ rest := by
              rcases List.mem_cons.mp h with h | h
              · exact absurd h.symm htop
              · exact h
            simpa [htop] using hrest

/-- Parts that lead to a place below where they begin lead there from every place. -/
theorem foldl_push_append {parts stack base : List (List Char)}
    (h : parent ∉ parts.foldl (push false) stack) :
    parts.foldl (push false) (stack ++ base) = parts.foldl (push false) stack ++ base := by
  induction parts generalizing stack with
  | nil => rfl
  | cons part parts ih =>
    rw [List.foldl_cons] at h
    have hstep : push false (stack ++ base) part = push false stack part ++ base := by
      have hup : parent ∉ push false stack part := fun hmem => h (parent_mem_foldl hmem)
      unfold push at hup ⊢
      split
      · rfl
      next hproper =>
        rw [if_neg hproper] at hup
        split
        · rfl
        next hparent =>
          rw [if_neg hparent] at hup
          rw [Decidable.not_not] at hparent
          cases stack with
          | nil => simp [hparent] at hup
          | cons top rest =>
            by_cases htop : top = parent
            · simp [htop] at hup
            · simp [htop]
    rw [List.foldl_cons, List.foldl_cons, hstep, ih h]

end Path

end StackFront
