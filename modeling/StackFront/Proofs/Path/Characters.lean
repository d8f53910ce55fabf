import StackFront.Proofs.Path.Joining

/-!
# Characters of names

Besides slashes and dots, a canonical name has only characters of the target and of the referrer
that it was made from.
-/
namespace StackFront

namespace Text

theorem mem_of_mem_splitAt {sep c : Char} {s part : List Char} (hpart : part ∈ splitAt sep s)
    (hc : c ∈ part) : c ∈ s := by
  induction s generalizing part with
  | nil =>
    rw [splitAt, List.mem_singleton] at hpart
    exact hpart ▸ hc
  | cons d s ih =>
    rw [splitAt] at hpart
    split at hpart
    · rcases List.mem_cons.mp hpart with rfl | hpart
      · cases hc
      · exact List.mem_cons_of_mem _ (ih hpart hc)
    · cases hs : splitAt sep s with
      | nil => exact absurd hs (splitAt_ne_nil sep s)
      | cons first others =>
        rw [hs] at hpart ih
        rcases List.mem_cons.mp hpart with rfl | hpart
        · rcases List.mem_cons.mp hc with rfl | hc
          · exact List.mem_cons_self ..
          · exact List.mem_cons_of_mem _ (ih (List.mem_cons_self ..) hc)
        · exact List.mem_cons_of_mem _ (ih (List.mem_cons_of_mem _ hpart) hc)

theorem mem_joinWith {sep c : Char} {parts : List (List Char)} (hc : c ∈ joinWith sep parts) :
    c = sep ∨ ∃ part ∈ parts, c ∈ part := by
  induction parts with
  | nil => cases hc
  | cons part parts ih =>
    cases parts with
    | nil => exact .inr ⟨part, List.mem_cons_self .., hc⟩
    | cons next parts =>
      rw [joinWith, List.mem_append, List.mem_cons] at hc
      rcases hc with hc | rfl | hc
      · exact .inr ⟨part, List.mem_cons_self .., hc⟩
      · exact .inl rfl
      · rcases ih hc with rfl | ⟨p, hp, hc⟩
        · exact .inl rfl
        · exact .inr ⟨p, List.mem_cons_of_mem _ hp, hc⟩

theorem mem_joinWith_of_mem {sep c : Char} {parts : List (List Char)} {part : List Char}
    (hpart : part ∈ parts) (hc : c ∈ part) : c ∈ joinWith sep parts := by
  induction parts with
  | nil => cases hpart
  | cons first parts ih =>
    cases parts with
    | nil => exact List.mem_singleton.mp hpart ▸ hc
    | cons next parts =>
      rw [joinWith, List.mem_append, List.mem_cons]
      rcases List.mem_cons.mp hpart with rfl | hpart
      · exact .inl hc
      · exact .inr (.inr (ih hpart))

/-- The characters of a text, separators apart, are those of its parts. -/
theorem exists_mem_splitAt_iff {sep c : Char} (hc : c ≠ sep) (s : List Char) :
    (∃ part ∈ splitAt sep s, c ∈ part) ↔ c ∈ s := by
  constructor
  · rintro ⟨part, hpart, hmem⟩
    exact mem_of_mem_splitAt hpart hmem
  · intro hmem
    rw [← joinWith_splitAt sep s] at hmem
    exact (mem_joinWith hmem).resolve_left hc

end Text

namespace Path

variable {c : Char} {path r : List Char} {parts : List (List Char)}

/-- What is added to the parts of a path is one of the parts that are pushed. -/
theorem mem_foldl_push {absolute : Bool} {given stack : List (List Char)} {part : List Char}
    (h : part ∈ given.foldl (push absolute) stack) : part ∈ stack ∨ part ∈ given := by
  induction given generalizing stack with
  | nil => exact .inl h
  | cons next given ih =>
    rcases ih h with hstack | hgiven
    · have hpush : part ∈ stack ∨ part = next := by
        unfold push at hstack
        split at hstack
        · exact .inl hstack
        · split at hstack
          · exact (List.mem_cons.mp hstack).symm
          · split at hstack
            · split at hstack
              · cases hstack
              · exact .inr (List.mem_singleton.mp hstack)
            · split at hstack
              · exact (List.mem_cons.mp hstack).symm
              · exact .inl (List.mem_cons_of_mem _ hstack)
      rcases hpush with hold | rfl
      · exact .inl hold
      · exact .inr (List.mem_cons_self ..)
    · exact .inr (List.mem_cons_of_mem _ hgiven)

theorem mem_render (hr : IsRoot r) (hc : c ∈ render r parts) :
    c = '/' ∨ c = '.' ∨ ∃ part ∈ parts, c ∈ part := by
  have hmem : c = '.' ∨ c ∈ r ++ Text.joinWith '/' parts := by
    unfold render at hc
    split at hc
    · exact .inl (List.mem_singleton.mp hc)
    · exact .inr hc
  rcases hmem with hdot | hmem
  · exact .inr (.inl hdot)
  · rcases List.mem_append.mp hmem with hmem | hmem
    · left
      rcases hr with rfl | rfl | rfl
      · cases hmem
      · exact List.mem_singleton.mp hmem
      · simpa using hmem
    · rcases Text.mem_joinWith hmem with hslash | hpart
      · exact .inl hslash
      · exact .inr (.inr hpart)

theorem mem_render_iff (hr : IsRoot r) (hslash : c ≠ '/') (hdot : c ≠ '.') :
    c ∈ render r parts ↔ ∃ part ∈ parts, c ∈ part := by
  constructor
  · exact fun hc => ((mem_render hr hc).resolve_left hslash).resolve_left hdot
  · rintro ⟨part, hpart, hc⟩
    have hmem : c ∈ r ++ Text.joinWith '/' parts :=
      List.mem_append_right r (Text.mem_joinWith_of_mem hpart hc)
    unfold render
    split
    next hnil =>
      rw [hnil] at hmem
      cases hmem
    next => exact hmem

theorem exists_mem_properParts_iff (hslash : c ≠ '/') (hdot : c ≠ '.') :
    (∃ part ∈ properParts path, c ∈ part) ↔ c ∈ path := by
  rw [← Text.exists_mem_splitAt_iff hslash path]
  constructor
  · rintro ⟨part, hpart, hc⟩
    exact ⟨part, (List.mem_filter.mp hpart).1, hc⟩
  · rintro ⟨part, hpart, hc⟩
    have hne : part ≠ [] := List.ne_nil_of_mem hc
    have hhere : part ≠ here := by
      rintro rfl
      exact hdot (List.mem_singleton.mp hc)
    exact ⟨part, List.mem_filter.mpr ⟨hpart, by simp [hne, hhere]⟩, hc⟩

/-- Slashes and dots apart, nothing is lost when a path is made tidy, and nothing is added. -/
theorem mem_tidy_iff (hslash : c ≠ '/') (hdot : c ≠ '.') : c ∈ tidy path ↔ c ∈ path := by
  rw [tidy, mem_render_iff (isRoot_root path) hslash hdot, exists_mem_properParts_iff hslash hdot]

/-- A relative path is put below the base directory. -/
theorem mem_tidyBelow_iff {base : List Char} (hslash : c ≠ '/') (hdot : c ≠ '.') :
    c ∈ tidyBelow base path ↔ c ∈ path ∨ (isAbsolute path = false ∧ c ∈ base) := by
  rw [tidyBelow]
  cases hkind : isAbsolute path with
  | true => simp [mem_tidy_iff hslash hdot]
  | false =>
    simp only [Bool.false_eq_true, if_false, true_and,
      mem_render_iff (isRoot_root base) hslash hdot, List.mem_append, or_and_right, exists_or,
      exists_mem_properParts_iff hslash hdot]
    exact or_comm

theorem mem_normalize (hc : c ∈ normalize path) : c = '/' ∨ c = '.' ∨ c ∈ path := by
  rcases mem_render (isRoot_root path) hc with hslash | hdot | ⟨part, hpart, hmem⟩
  · exact .inl hslash
  · exact .inr (.inl hdot)
  · rw [normalParts, List.mem_reverse] at hpart
    rcases mem_foldl_push hpart with hnil | hpart
    · cases hnil
    · exact .inr (.inr (Text.mem_of_mem_splitAt hpart hmem))

theorem mem_directory (hc : c ∈ directory path) : c ∈ path := by
  have hup : upToSlash path <+: path := List.rdropWhile_prefix _ _
  have htrim : trimSlashes (upToSlash path) <+: upToSlash path := List.rdropWhile_prefix _ _
  rw [directory_eq] at hc
  split at hc
  · exact hup.subset hc
  · exact hup.subset (htrim.subset hc)

theorem mem_join {directory target : List Char} (hc : c ∈ join directory target) :
    c = '/' ∨ c ∈ directory ∨ c ∈ target := by
  unfold join at hc
  split at hc
  · exact .inr (.inr hc)
  · split at hc
    · exact .inr (List.mem_append.mp hc)
    · rw [List.mem_append, List.mem_cons] at hc
      rcases hc with hc | hc | hc
      · exact .inr (.inl hc)
      · exact .inl hc
      · exact .inr (.inr hc)

/-- The characters of a canonical name. -/
theorem mem_canonical {target : String} {referrer : Option Name}
    (hc : c ∈ (canonical target referrer).toList) :
    c = '/' ∨ c = '.' ∨ c ∈ target.toList ∨ ∃ name ∈ referrer, c ∈ name.toList := by
  rw [canonical, String.toList_ofList] at hc
  cases referrer with
  | none =>
    rcases mem_normalize hc with hslash | hdot | hmem
    · exact .inl hslash
    · exact .inr (.inl hdot)
    · exact .inr (.inr (.inl hmem))
  | some name =>
    rcases mem_normalize hc with hslash | hdot | hmem
    · exact .inl hslash
    · exact .inr (.inl hdot)
    · rcases mem_join hmem with hslash | hname | htarget
      · exact .inl hslash
      · exact .inr (.inr (.inr ⟨name, rfl, mem_directory hname⟩))
      · exact .inr (.inr (.inl htarget))

end Path

end StackFront
