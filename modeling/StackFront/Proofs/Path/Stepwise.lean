import StackFront.Proofs.Path.Joining

/-!
# References followed one after the other

All that counts of a path are its leading slashes and its proper parts. Normalizing a path that ends
with the name of a file normalizes the directory of the file and keeps its name. So a target that is
seen from the normal form is where the target is that is seen from the path itself: following two
references one after the other leads where their joined path leads at once.
-/
namespace StackFront.Path

/-- The last part of a path is a name: it leads neither nowhere nor up. -/
def EndsWithName (path : List Char) : Prop :=
  ∃ name, (Text.splitAt '/' path).getLast? = some name ∧ name ≠ [] ∧ name ≠ here ∧ name ≠ parent

variable {path path' first base target name : List Char} {rest : List (List Char)}

/-- Only the leading slashes of a path matter for its root. -/
theorem root_takeWhile (path : List Char) : root (path.takeWhile (· = '/')) = root path := by
  match path with
  | [] => rfl
  | [a] => by_cases ha : a = '/' <;> simp [root, ha]
  | [a, b] =>
    by_cases ha : a = '/'
    · by_cases hb : b = '/' <;> simp [root, ha, hb]
    · simp [root, ha]
  | a :: b :: c :: path =>
    by_cases ha : a = '/'
    · by_cases hb : b = '/'
      · by_cases hc : c = '/' <;> simp [root, ha, hb, hc]
      · simp [root, ha, hb]
    · simp [root, ha]

/-- What is put behind a path does not change its root, unless slashes follow on slashes. -/
theorem root_append {second : List Char}
    (h : first.all (· = '/') = false ∨ isAbsolute second = false) :
    root (first ++ second) = root first := by
  have hslashes : (first ++ second).takeWhile (· = '/') = first.takeWhile (· = '/') := by
    by_cases hall : first.all (· = '/') = true
    · have hrel : isAbsolute second = false := by simpa [hall] using h
      have hsecond : second.takeWhile (· = '/') = [] := by
        cases second with
        | nil => rfl
        | cons c second => simpa [isAbsolute] using hrel
      rw [List.all_eq_true] at hall
      rw [List.takeWhile_append_of_pos hall, hsecond, List.append_nil,
        List.takeWhile_eq_self_iff.mpr hall]
    · rw [List.takeWhile_append, if_neg]
      intro hlength
      apply hall
      rw [List.all_eq_true]
      exact List.takeWhile_eq_self_iff.mp ((List.takeWhile_prefix _).eq_of_length hlength)
  rw [← root_takeWhile, hslashes, root_takeWhile]

theorem root_directory (path : List Char) : root (directory path) = root path := by
  obtain ⟨last, hpath, hlast, -⟩ := exists_last path
  have hup : root path = root (upToSlash path) := by
    conv_lhs => rw [hpath]
    apply root_append
    right
    cases last with
    | nil => rfl
    | cons c last =>
      have hc : c ≠ '/' := fun e => hlast (e ▸ List.mem_cons_self ..)
      simp [isAbsolute, hc]
  rw [directory_eq, hup]
  split
  · rfl
  next hall =>
    -- the slashes that are trimmed follow on something else
    have htrim : trimSlashes (upToSlash path) ++ (upToSlash path).rtakeWhile (· = '/') =
        upToSlash path := List.rdropWhile_append_rtakeWhile
    conv_rhs => rw [← htrim]
    refine (root_append (.inl ?_)).symm
    by_contra htrimmed
    rw [Bool.not_eq_false, List.all_eq_true] at htrimmed
    apply hall
    rw [← htrim, List.all_append, Bool.and_eq_true, List.all_eq_true, List.all_eq_true]
    exact ⟨htrimmed, fun c hc => by simpa using List.mem_rtakeWhile_imp hc⟩

theorem root_join (hrel : isAbsolute target = false) : root (join base target) = root base := by
  rw [join, hrel, if_neg Bool.false_ne_true]
  split
  · exact root_append (.inr hrel)
  next h =>
    rw [not_or] at h
    refine root_append (.inl ?_)
    by_contra hall
    rw [Bool.not_eq_false, List.all_eq_true] at hall
    obtain ⟨hne, hlast⟩ := h
    rw [List.getLast?_eq_some_getLast hne] at hlast
    exact hlast (congrArg some (by simpa using hall _ (List.getLast_mem hne)))

/-- The normal form of a path is told by its root and its proper parts. -/
theorem normalize_congr (hroot : root path = root path')
    (hparts : properParts path = properParts path') : normalize path = normalize path' := by
  rw [normalize, normalize, normalParts_eq, normalParts_eq, isAbsolute_eq_root, isAbsolute_eq_root,
    hroot, hparts]

theorem normalParts_append (habs : isAbsolute path = isAbsolute first)
    (hparts : properParts path = properParts first ++ rest) :
    normalParts path =
      (rest.foldl (push (isAbsolute first)) (normalParts first).reverse).reverse := by
  rw [normalParts_eq, hparts, List.foldl_append, habs, normalParts_eq first, List.reverse_reverse]

theorem properParts_normalize (path : List Char) :
    properParts (normalize path) = normalParts path :=
  properParts_render (isRoot_root path) (isProper_normalParts path)

theorem root_normalize (path : List Char) : root (normalize path) = root path :=
  root_render (isRoot_root path) (isProper_normalParts path)

theorem isAbsolute_directory_normalize (path : List Char) :
    isAbsolute (directory (normalize path)) = isAbsolute (directory path) := by
  rw [isAbsolute_directory, isAbsolute_directory, isAbsolute_eq_root, isAbsolute_eq_root path,
    root_normalize]

/-- The last part of a path that is rendered from proper parts is the last of these. -/
theorem getLast?_splitAt_render {r : List Char} (hr : IsRoot r) (hne : rest ≠ [])
    (h : ∀ p ∈ rest, IsProper p) :
    (Text.splitAt '/' (render r rest)).getLast? = rest.getLast? := by
  have hsplit : Text.splitAt '/' (Text.joinWith '/' rest) = rest :=
    Text.splitAt_joinWith hne fun p hp => (h p hp).2.2
  rcases hr with rfl | rfl | rfl
  · rw [render_nil hne h, hsplit]
  · simp [render_cons, Text.splitAt, hsplit, List.getLast?_cons, List.getLast?_eq_some_getLast hne]
  · simp [render_cons, Text.splitAt, hsplit, List.getLast?_cons, List.getLast?_eq_some_getLast hne]

section Name

variable (hname : (Text.splitAt '/' path).getLast? = some name)
  (hproper : name ≠ [] ∧ name ≠ here ∧ name ≠ parent)
include hname hproper

theorem properParts_of_name :
    properParts path = properParts (directory path) ++ [name] := by
  obtain ⟨last, hlast, hparts⟩ := properParts_eq_directory path
  rw [hname, Option.some.injEq] at hlast
  rwa [← hlast, if_neg (not_or.mpr ⟨hproper.1, hproper.2.1⟩)] at hparts

/-- Normalizing a path that ends with a name keeps the name. -/
theorem normalParts_of_name :
    normalParts path = normalParts (directory path) ++ [name] := by
  rw [normalParts_append (isAbsolute_directory path).symm (properParts_of_name hname hproper)]
  simp [push, hproper]

theorem name_of_normalize : (Text.splitAt '/' (normalize path)).getLast? = some name := by
  have hparts := normalParts_of_name hname hproper
  rw [normalize, getLast?_splitAt_render (isRoot_root path) (by simp [hparts])
    (isProper_normalParts path), hparts, List.getLast?_concat]

/-- The directory of the normal form is the normal form of the directory. -/
theorem normalParts_directory_normalize :
    normalParts (directory (normalize path)) = normalParts (directory path) := by
  have hparts : properParts (directory (normalize path)) =
      normalParts (directory path) := by
    have hlast := properParts_of_name (name_of_normalize hname hproper) hproper
    rw [properParts_normalize, normalParts_of_name hname hproper] at hlast
    exact (List.append_cancel_right hlast).symm
  have hsettled := settled_normalParts (directory path)
  rw [← List.append_nil (normalParts (directory path)).reverse] at hsettled
  rw [normalParts_eq, hparts, isAbsolute_directory_normalize, hsettled.foldl_push, List.append_nil,
    List.reverse_reverse]

/-- A target is seen from the normal form of a path as it is seen from the path. -/
theorem normalize_join_normalize (hrel : isAbsolute target = false) :
    normalize (join (directory (normalize path)) target) =
      normalize (join (directory path) target) := by
  have hroot : root (join (directory (normalize path)) target) =
      root (join (directory path) target) := by
    simp only [root_join hrel, root_directory, root_normalize]
  have hparts : normalParts (join (directory (normalize path)) target) =
      normalParts (join (directory path) target) := by
    rw [normalParts_append (isAbsolute_join hrel) (properParts_join hrel),
      normalParts_append (isAbsolute_join hrel) (properParts_join hrel),
      isAbsolute_directory_normalize, normalParts_directory_normalize hname hproper]
  exact congrArg₂ render hroot hparts

omit hproper in
/-- What is joined to a directory still ends with its name. -/
theorem name_of_join (base : List Char) :
    (Text.splitAt '/' (join base path)).getLast? = some name := by
  unfold join
  split
  · exact hname
  · split
    next h =>
      rcases h with rfl | hslash
      · exact hname
      · obtain ⟨front, rfl⟩ := List.getLast?_eq_some_iff.mp hslash
        rw [List.append_assoc, List.singleton_append, Text.splitAt_append,
          List.getLast?_append_of_ne_nil _ (Text.splitAt_ne_nil '/' path), hname]
    · rw [Text.splitAt_append, List.getLast?_append_of_ne_nil _ (Text.splitAt_ne_nil '/' path),
        hname]

/-- Joining a target to the directory of a joined path is joining it in two steps. -/
theorem normalize_join_join (hrel : isAbsolute target = false) (base : List Char) :
    normalize (join (directory (join base path)) target) =
      normalize (join base (join (directory path) target)) := by
  cases habs : isAbsolute path with
  | true =>
    have hjoin : isAbsolute (join (directory path) target) = true := by
      rw [isAbsolute_join hrel, isAbsolute_directory, habs]
    rw [join_of_absolute habs, join_of_absolute hjoin]
  | false =>
    have hjoin : isAbsolute (join (directory path) target) = false := by
      rw [isAbsolute_join hrel, isAbsolute_directory, habs]
    have hdirectory : properParts (directory (join base path)) =
        properParts base ++ properParts (directory path) := by
      have hlast := properParts_of_name (name_of_join hname base) hproper
      rw [properParts_join habs, properParts_of_name hname hproper, ← List.append_assoc] at hlast
      exact (List.append_cancel_right hlast).symm
    apply normalize_congr
    · rw [root_join hrel, root_directory, root_join habs, root_join hjoin]
    · rw [properParts_join hrel, hdirectory, properParts_join hjoin, properParts_join hrel,
        List.append_assoc]

end Name

/-- A target that is seen from the canonical name of a file is seen from where the file is:
following both references one after the other is following the joined path. -/
theorem canonical_canonical {file : String} (hfile : EndsWithName file.toList) (target : String)
    (referrer : Option Name) :
    canonical target (some (canonical file referrer)) =
      canonical (String.ofList (join (directory file.toList) target.toList)) referrer := by
  obtain ⟨name, hname, hproper⟩ := hfile
  simp only [canonical, Option.map_some, String.toList_ofList]
  congr 1
  cases habs : isAbsolute target.toList with
  | true =>
    rw [canonicalChars, join_of_absolute habs, join_of_absolute habs]
    cases referrer with
    | none => rfl
    | some r => rw [Option.map_some, canonicalChars, join_of_absolute habs]
  | false =>
    cases referrer with
    | none => exact normalize_join_normalize hname hproper habs
    | some r =>
      rw [Option.map_some, canonicalChars, canonicalChars, canonicalChars,
        normalize_join_normalize (name_of_join hname _) hproper habs,
        normalize_join_join hname hproper habs]

/-- Ways up that go beyond the referring file, doubled slashes and a root of its own. -/
theorem canonical_canonical_detour :
    EndsWithName ".././/x/../y.vt".toList ∧
      canonical "../..//./z.vt/" (some (canonical ".././/x/../y.vt" (some "//a/b/c.vt"))) =
        canonical ".././/x/../../..//./z.vt/" (some "//a/b/c.vt") ∧
      canonical ".././/x/../../..//./z.vt/" (some "//a/b/c.vt") = "//z.vt" := by
  have hfile : EndsWithName ".././/x/../y.vt".toList := ⟨"y.vt".toList, by decide⟩
  exact ⟨hfile, canonical_canonical hfile "../..//./z.vt/" (some "//a/b/c.vt"), by decide⟩

end StackFront.Path
