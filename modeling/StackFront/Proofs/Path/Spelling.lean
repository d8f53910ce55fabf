import StackFront.Proofs.Path.Stepwise

/-!
# Spellings of a target

A target may be spelled in many ways that have one canonical form. From whichever file it is seen,
only this form counts: its parts are pushed one after the other, and it makes no difference whether
they have been pushed upon each other before. So all spellings of a target, in whichever files of
one directory, denote the same program.
-/
namespace StackFront.Path

variable {absolute : Bool} {part : List Char} {parts stack rest : List (List Char)}
  {path path' base base' target target' : List Char}

theorem push_of_isName (h : IsName part) : push absolute parts part = part :: parts := by
  simp [push, h.1.1, h.1.2.1, h.2]

/-- A way up takes a name back. -/
theorem push_parent_of_isName (h : IsName part) :
    push absolute (part :: rest) parent = rest := by
  have hproper : ¬ (parent = [] ∨ parent = here) := by decide
  simp [push, hproper, h.2]

theorem push_parent_parent :
    push absolute (parent :: rest) parent = parent :: parent :: rest := by
  have hproper : ¬ (parent = [] ∨ parent = here) := by decide
  simp [push, hproper]

/-- Parts that were pushed upon each other first lead, from everywhere, where they lead when they
are pushed at once. -/
theorem foldl_push_settled (h : ∀ p ∈ parts, IsProper p) :
    (parts.foldl (push false) []).reverse.foldl (push absolute) stack =
      parts.foldl (push absolute) stack := by
  induction parts using List.reverseRecOn with
  | nil => rfl
  | append_singleton parts part ih =>
    rw [List.forall_mem_append, List.forall_mem_singleton] at h
    have hinner : ∀ p ∈ parts.foldl (push false) [], IsProper p :=
      isProper_foldl_push (fun p hp => (h.1 p hp).2.2) (by simp)
    simp only [List.foldl_append, List.foldl_cons, List.foldl_nil]
    rw [← ih h.1]
    generalize parts.foldl (push false) [] = inner at hinner
    by_cases hparent : part = parent
    · subst hparent
      cases inner with
      | nil => rfl
      | cons top rest =>
        by_cases htop : top = parent
        · rw [htop, push_parent_parent, List.reverse_cons, List.foldl_append]
          rfl
        · have hname : IsName top := ⟨hinner top (List.mem_cons_self ..), htop⟩
          rw [push_parent_of_isName hname, List.reverse_cons, List.foldl_append, List.foldl_cons,
            List.foldl_nil, push_of_isName hname, push_parent_of_isName hname]
    · rw [push_of_isName ⟨h.2, hparent⟩, List.reverse_cons, List.foldl_append]
      rfl

theorem isAbsolute_normalize (path : List Char) :
    isAbsolute (normalize path) = isAbsolute path := by
  rw [isAbsolute_eq_root, isAbsolute_eq_root, root_normalize]

/-- A reference leads to an absolute name if the target or the name of the referrer is absolute. -/
theorem isAbsolute_canonical (target : String) (referrer : Name) :
    isAbsolute (canonical target (some referrer)).toList =
      (isAbsolute target.toList || isAbsolute referrer.toList) := by
  rw [canonical, String.toList_ofList, Option.map_some, canonicalChars, isAbsolute_normalize]
  cases hkind : isAbsolute target.toList with
  | true => rw [join_of_absolute hkind, hkind, Bool.true_or]
  | false => rw [isAbsolute_join hkind, isAbsolute_directory, Bool.false_or]

/-- The parts of a relative path as they are pushed are those of its normal form. -/
theorem foldl_push_normalize (hrel : isAbsolute path = false) :
    (properParts (normalize path)).foldl (push absolute) stack =
      (properParts path).foldl (push absolute) stack := by
  rw [properParts_normalize, normalParts_eq, hrel, foldl_push_settled (isProper_properParts path)]

/-- Of a directory and of what is joined to it only the normal forms count. -/
theorem normalize_join_congr (hbase : normalize base = normalize base')
    (htarget : normalize target = normalize target') :
    normalize (join base target) = normalize (join base' target') := by
  have habs : isAbsolute target = isAbsolute target' := by
    rw [← isAbsolute_normalize target, htarget, isAbsolute_normalize]
  cases hrel : isAbsolute target with
  | true => rw [join_of_absolute hrel, join_of_absolute (habs ▸ hrel), htarget]
  | false =>
    have hrel' : isAbsolute target' = false := habs ▸ hrel
    have hroot : root base = root base' := by rw [← root_normalize base, hbase, root_normalize]
    have hbaseParts : normalParts base = normalParts base' := by
      rw [← properParts_normalize base, hbase, properParts_normalize]
    have hparts : normalParts (join base target) = normalParts (join base' target') := by
      rw [normalParts_append (isAbsolute_join hrel) (properParts_join hrel),
        normalParts_append (isAbsolute_join hrel') (properParts_join hrel'), hbaseParts,
        isAbsolute_eq_root base, hroot, ← isAbsolute_eq_root, ← foldl_push_normalize hrel,
        htarget, foldl_push_normalize hrel']
    rw [normalize, normalize, root_join hrel, root_join hrel', hroot, hparts]

/-- Two files stand in one directory, however it is spelled. -/
def InOneDirectory (file file' : Name) : Prop :=
  normalize (directory file.toList) = normalize (directory file'.toList)

theorem normalize_congr_of_canonical {spelled spelled' : String}
    (h : canonical spelled none = canonical spelled' none) :
    normalize spelled.toList = normalize spelled'.toList := by
  rw [canonical, canonical, String.ofList_inj] at h
  exact h

/-- From wherever a target is seen, its canonical form is seen as the target itself. So targets with
one canonical form are seen alike from all files of one directory. -/
theorem canonical_respelled :
    (∀ target referrer, canonical (canonical target none) referrer = canonical target referrer) ∧
      ∀ target target' file file', canonical target none = canonical target' none →
        InOneDirectory file file' →
        canonical target (some file) = canonical target' (some file') := by
  have hseen : ∀ {target target' file file'}, canonical target none = canonical target' none →
      InOneDirectory file file' →
      canonical target (some file) = canonical target' (some file') := by
    intro target target' file file' htarget hfile
    exact congrArg String.ofList
      (normalize_join_congr hfile (normalize_congr_of_canonical htarget))
  refine ⟨fun target referrer => ?_, fun _ _ _ _ => hseen⟩
  have hself : canonical (canonical target none) none = canonical target none :=
    IsCanonical.canonical_eq ⟨target, none, rfl⟩
  cases referrer with
  | none => exact hself
  | some file => exact hseen hself rfl

/-- Targets that climb above the directory of the file, seen from two files of it. -/
theorem canonical_respelled_climbing :
    canonical "x/../../..//q/./r.vt/" none = canonical "./../../q/r.vt" none ∧
      InOneDirectory "//a/b.vt" "//a/../a//c.vt" ∧
      canonical "x/../../..//q/./r.vt/" (some "//a/b.vt") =
        canonical "./../../q/r.vt" (some "//a/../a//c.vt") ∧
      canonical "./../../q/r.vt" (some "//a/../a//c.vt") = "//q/r.vt" := by
  have htarget : canonical "x/../../..//q/./r.vt/" none = canonical "./../../q/r.vt" none := by
    decide
  have hfile : InOneDirectory "//a/b.vt" "//a/../a//c.vt" := by
    unfold InOneDirectory
    decide
  exact ⟨htarget, hfile, canonical_respelled.2 _ _ _ _ htarget hfile, by decide⟩

end StackFront.Path
