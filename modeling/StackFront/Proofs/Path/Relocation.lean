import StackFront.Proofs.Path.Joining

/-!
# Relocation

Names that stay below the directory where they begin are the same from every directory: put behind
the name of another directory, they and all targets that are seen from them are put behind it as
well, as long as no target leads up out of the directory.
-/
namespace StackFront.Path

/-- The name of the current directory or of something below it. -/
structure IsBelow (name : Name) : Prop where
  relative : isAbsolute name.toList = false
  not_above : (Text.splitAt '/' name.toList).head? ≠ some parent

/-- The name of something below the current directory. -/
structure IsInside (name : Name) : Prop extends IsBelow name where
  ne_here : name ≠ "."

/-- The canonical name of a directory below the current one. -/
structure IsDescent (directory : Name) : Prop where
  canonical : IsCanonical directory
  relative : isAbsolute directory.toList = false
  ne_here : directory ≠ "."
  no_parent : parent ∉ Text.splitAt '/' directory.toList

/-- A name as it is seen from above a directory. -/
def under (directory name : Name) : Name :=
  directory ++ "/" ++ name

theorem toList_under (directory name : Name) :
    (under directory name).toList = directory.toList ++ '/' :: name.toList := by
  rw [under, String.toList_append, String.toList_append, List.append_assoc]
  rfl

theorem under_injective (directory : Name) : Function.Injective (under directory) := by
  intro m n h
  have hchars := congrArg String.toList h
  rw [toList_under, toList_under, List.append_cancel_left_eq, List.cons.injEq] at hchars
  exact String.toList_injective hchars.2

/-- Settled parts of a relative path lead up only if the outermost one does. -/
theorem Settled.not_mem_parent {parts : List (List Char)} (h : Settled false parts)
    (hlast : parts.getLast? ≠ some parent) : parent ∉ parts := by
  induction h with
  | nil => exact List.not_mem_nil
  | @name part parts hpart hname h ih =>
    rw [List.mem_cons, not_or]
    refine ⟨Ne.symm hname, ?_⟩
    cases parts with
    | nil => exact List.not_mem_nil
    | cons next parts =>
      rw [List.getLast?_cons_cons] at hlast
      exact ih hlast
  | @up parts _ h =>
    have hall : ∀ p ∈ parent :: parts, p = parent := List.forall_mem_cons.mpr ⟨rfl, h⟩
    rw [List.getLast?_eq_some_getLast (by simp)] at hlast
    exact absurd (congrArg some (hall _ (List.getLast_mem _))) hlast

/-- The parts of a relative path that is rendered from proper parts. -/
theorem splitAt_render {parts : List (List Char)} (hne : parts ≠ [])
    (h : ∀ p ∈ parts, IsProper p) : Text.splitAt '/' (render [] parts) = parts := by
  rw [render_nil hne h, Text.splitAt_joinWith hne fun p hp => (h p hp).2.2]

theorem root_of_relative {path : List Char} (h : isAbsolute path = false) : root path = [] := by
  have habs := isAbsolute_eq_root path
  rw [h] at habs
  simpa using habs

/-- A path in normal form below the current directory has only parts that lead down. -/
theorem parts_of_isBelow {path : List Char} (h : IsBelow (String.ofList (normalize path))) :
    isAbsolute path = false ∧ normalize path = render [] (normalParts path) ∧
      parent ∉ normalParts path := by
  have hproper := isProper_normalParts path
  have hrel : isAbsolute path = false := by
    have habs := h.relative
    rw [String.toList_ofList, normalize, isAbsolute_render (isRoot_root path) hproper,
      ← isAbsolute_eq_root] at habs
    exact habs
  have hroot : root path = [] := root_of_relative hrel
  have hrender : normalize path = render [] (normalParts path) := by rw [normalize, hroot]
  refine ⟨hrel, hrender, ?_⟩
  by_cases hne : normalParts path = []
  · rw [hne]
    exact List.not_mem_nil
  · have hfirst := h.not_above
    rw [String.toList_ofList, hrender, splitAt_render hne hproper, ← List.getLast?_reverse]
      at hfirst
    have hsettled := settled_normalParts path
    rw [hrel] at hsettled
    have hnot := hsettled.not_mem_parent hfirst
    rwa [List.mem_reverse] at hnot

/-- A canonical name below the current directory is written with parts that lead down. -/
theorem IsBelow.exists_parts {name : Name} (h : IsBelow name) (hc : IsCanonical name) :
    ∃ parts, name.toList = render [] parts ∧ (∀ p ∈ parts, IsProper p) ∧ parent ∉ parts := by
  have hname : normalize name.toList = name.toList := by
    have hcanonical := congrArg String.toList hc.canonical_eq
    rwa [canonical, String.toList_ofList, Option.map_none, canonicalChars] at hcanonical
  have hbelow : IsBelow (String.ofList (normalize name.toList)) := by
    rwa [hname, String.ofList_toList]
  obtain ⟨-, hrender, hup⟩ := parts_of_isBelow hbelow
  rw [hname] at hrender
  exact ⟨_, hrender, isProper_normalParts _, hup⟩

theorem ne_nil_of_ne_here {name : Name} {parts : List (List Char)}
    (h : name.toList = render [] parts) (hne : name ≠ ".") : parts ≠ [] := by
  rintro rfl
  apply hne
  apply String.toList_injective
  rw [h]
  rfl

section Descent

variable {d name : Name} {path path' : List Char} {target : String}

theorem IsDescent.isBelow (hd : IsDescent d) : IsBelow d where
  relative := hd.relative
  not_above h := hd.no_parent (List.mem_of_mem_head? h)

/-- The parts of a directory below the current one stay when others are pushed upon them. -/
theorem IsDescent.exists_parts (hd : IsDescent d) :
    ∃ parts, d.toList = render [] parts ∧ parts ≠ [] ∧ (∀ p ∈ parts, IsProper p) ∧
      parts.foldl (push false) [] = parts.reverse := by
  obtain ⟨parts, hparts, hproper, hup⟩ := hd.isBelow.exists_parts hd.canonical
  have hsettled : Settled false parts.reverse := .of_names fun p hp =>
    ⟨hproper p (List.mem_reverse.mp hp), fun e => hup (e ▸ List.mem_reverse.mp hp)⟩
  refine ⟨parts, hparts, ne_nil_of_ne_here hparts hd.ne_here, hproper, ?_⟩
  rw [← List.append_nil parts.reverse] at hsettled ⊢
  exact hsettled.foldl_push

theorem IsDescent.isAbsolute_under (hd : IsDescent d) (name : Name) :
    isAbsolute (under d name).toList = false := by
  obtain ⟨ds, hds, hne, hproper, -⟩ := hd.exists_parts
  obtain ⟨c, rest, hj, -⟩ := joinWith_head hne hproper
  have hcons : d.toList ≠ [] := by
    rw [hds, render_nil hne hproper, hj]
    exact List.cons_ne_nil c rest
  rw [toList_under, isAbsolute, List.head?_append_of_ne_nil _ hcons]
  exact hd.relative

/-- A path that stays below the current directory leads to the same place below another one. -/
theorem normalize_under (hd : IsDescent d) (hpath : IsInside (String.ofList (normalize path)))
    (hrel : isAbsolute path' = false)
    (hparts : properParts path' = properParts d.toList ++ properParts path) :
    normalize path' = d.toList ++ '/' :: normalize path := by
  obtain ⟨hpathrel, hrender, hup⟩ := parts_of_isBelow hpath.toIsBelow
  obtain ⟨ds, hds, hne, hproper, hfold⟩ := hd.exists_parts
  have hnormal : normalParts path' = ds ++ normalParts path := by
    have hpush : parent ∉ (properParts path).foldl (push false) [] := by
      rwa [normalParts_eq, hpathrel, List.mem_reverse] at hup
    rw [normalParts_eq, hrel, hparts, hds, properParts_render (.inl rfl) hproper,
      List.foldl_append, hfold, ← List.nil_append ds.reverse, foldl_push_append hpush,
      List.reverse_append, List.reverse_reverse, normalParts_eq, hpathrel]
  have hroot : root path' = [] := root_of_relative hrel
  have hinside : normalParts path ≠ [] :=
    ne_nil_of_ne_here (by rw [String.toList_ofList, hrender]) hpath.ne_here
  have hall : ∀ p ∈ ds ++ normalParts path, IsProper p := by
    intro p hp
    rcases List.mem_append.mp hp with hp | hp
    · exact hproper p hp
    · exact isProper_normalParts path p hp
  rw [normalize, hroot, hnormal, render_nil (by simp [hne]) hall,
    Text.joinWith_append hne hinside, hds, render_nil hne hproper, hrender,
    render_nil hinside (isProper_normalParts path)]

/-- A spelled name under a directory. -/
theorem canonical_under (hd : IsDescent d) {spelled : String}
    (h : IsInside (canonical spelled none)) :
    canonical (under d spelled) none = under d (canonical spelled none) := by
  have hparts : properParts (under d spelled).toList =
      properParts d.toList ++ properParts spelled.toList := by
    rw [toList_under, properParts_append]
  apply String.toList_injective
  rw [toList_under, canonical, canonical, String.toList_ofList, String.toList_ofList]
  exact normalize_under hd h (hd.isAbsolute_under spelled) hparts

/-- The directory of a name under a directory. -/
theorem properParts_directory_under (d : Name) (hname : IsInside name)
    (hc : IsCanonical name) :
    properParts (directory (under d name).toList) =
      properParts d.toList ++ properParts (directory name.toList) := by
  obtain ⟨ps, hps, hproper, -⟩ := hname.toIsBelow.exists_parts hc
  have hne := ne_nil_of_ne_here hps hname.ne_here
  obtain ⟨last, hlast, hparts⟩ := properParts_eq_directory name.toList
  obtain ⟨last', hlast', hparts'⟩ := properParts_eq_directory (under d name).toList
  -- both end with the same part, which is a proper one
  have hsplit : Text.splitAt '/' name.toList = ps := by rw [hps, splitAt_render hne hproper]
  have hsame : last' = last := by
    rw [toList_under, Text.splitAt_append, hsplit, List.getLast?_append_of_ne_nil _ hne, ← hsplit,
      hlast, Option.some.injEq] at hlast'
    exact hlast'.symm
  rw [toList_under, properParts_append, hparts, hsame, ← List.append_assoc] at hparts'
  rw [← toList_under] at hparts'
  exact (List.append_cancel_right hparts').symm

/-- A target as seen from a name under a directory. -/
theorem canonical_under_some (hd : IsDescent d) (hname : IsInside name) (hc : IsCanonical name)
    (h : IsInside (canonical target (some name))) :
    canonical target (some (under d name)) = under d (canonical target (some name)) := by
  have hjoin := (parts_of_isBelow h.toIsBelow).1
  have htarget : isAbsolute target.toList = false := by
    by_contra habs
    rw [Bool.not_eq_false] at habs
    rw [join_of_absolute habs, habs] at hjoin
    cases hjoin
  have hrel : isAbsolute (join (directory (under d name).toList) target.toList) = false := by
    rw [isAbsolute_join htarget, isAbsolute_directory, hd.isAbsolute_under]
  have hparts : properParts (join (directory (under d name).toList) target.toList) =
      properParts d.toList ++ properParts (join (directory name.toList) target.toList) := by
    rw [properParts_join htarget, properParts_join htarget, properParts_directory_under d hname hc,
      List.append_assoc]
  apply String.toList_injective
  rw [toList_under, canonical, canonical, String.toList_ofList, String.toList_ofList]
  exact normalize_under hd h hrel hparts

end Descent

end StackFront.Path
