import StackFront.Proofs.FileTree.Following

/-!
# Files read after they are written

A file is put where no directory stands, and what was a directory stays one. So every path leads
where it led before, and what was written at a path is read there if it may be. Whether a path can
be written does not depend on what is written.
-/
namespace StackFront

namespace FileTree

variable {t t' : FileTree} {place q q' : Location} {entry : Entry} {parts : List (List Char)}
  {path : List Char} {octets : List UInt8}

theorem lookup_put (t : FileTree) (place : Location) (entry : Entry) :
    (t.put place entry).lookup place = some entry := by
  have hnone : (t.entries.filter fun e => e.1 ≠ place).find? (fun e => e.1 = place) = none := by
    rw [List.find?_eq_none]
    intro e he
    simpa using (List.mem_filter.mp he).2
  have hfind : (t.put place entry).entries.find? (fun e => e.1 = place) = some (place, entry) := by
    rw [put, List.find?_append, hnone, Option.none_or, List.find?_singleton, if_pos (by simp)]
  simp only [lookup, hfind]

/-- What is found elsewhere is not changed. -/
theorem find?_put (hne : q ≠ place) :
    (t.put place entry).entries.find? (fun e => e.1 = q) = t.entries.find? fun e => e.1 = q := by
  have hsame : ∀ e : Location × Entry, e.1 ≠ place ∧ e.1 = q ↔ e.1 = q := by
    intro e
    refine and_iff_right_of_imp ?_
    rintro rfl
    exact hne
  rw [put, List.find?_append, List.find?_filter, List.find?_singleton,
    if_neg (by simpa using hne.symm), Option.or_none]
  simp only [decide_eq_true_eq, hsame]

/-- A directory elsewhere stays one. -/
theorem lookup_put_of_directory (hne : q ≠ place) (h : t.lookup q = some .directory) :
    (t.put place entry).lookup q = some .directory := by
  rw [lookup] at h
  rw [lookup, find?_put hne]
  split at h
  · exact h
  · split at h
    next habove =>
      rw [if_pos]
      rw [Bool.or_eq_true, List.any_eq_true] at habove ⊢
      refine habove.imp_right ?_
      rintro ⟨e, he, hprefix⟩
      -- the entry is still there, or the new one stands in its place
      by_cases hplace : e.1 = place
      · exact ⟨(place, entry), by simp [put], hplace ▸ hprefix⟩
      · exact ⟨e, by simp [put, he, hplace], hprefix⟩
    next => cases h

/-- A way that leads somewhere leads there also when a file is put where no directory was. -/
theorem follow_put (hplace : t.lookup place ≠ some .directory) (h : t.follow q parts = .ok q') :
    (t.put place entry).follow q parts = .ok q' := by
  induction parts generalizing q with
  | nil => exact h
  | cons part parts ih =>
    obtain ⟨hq, hpass, hlength, hnext⟩ := follow_cons_eq_ok_iff.mp h
    have hne : q ≠ place := by
      rintro rfl
      exact hplace hq
    exact follow_cons_eq_ok_iff.mpr ⟨lookup_put_of_directory hne hq, hpass, hlength, ih hnext⟩

theorem findParent_eq_ok {last : List Char} (h : t.findParent path = .ok (place, last)) :
    checkPath path = .ok () ∧ (partsOf path).getLast? = some last ∧
      t.follow (t.start path) (partsOf path).dropLast = .ok place ∧
      t.lookup place = some .directory ∧ t.allows place .pass = true := by
  rw [findParent] at h
  cases hcheck : checkPath path with
  | error r => simp [hcheck] at h
  | ok =>
    cases hlast : (partsOf path).getLast? with
    | none => simp [hcheck, hlast] at h
    | some part =>
      cases hfollow : t.follow (t.start path) (partsOf path).dropLast with
      | error r => simp [hcheck, hlast, hfollow] at h
      | ok q =>
        simp only [hcheck, hlast, hfollow] at h
        split at h
        · cases h
        · cases h
        next hq =>
          split at h
          next hpass =>
            cases h
            exact ⟨rfl, rfl, rfl, hq, hpass⟩
          next => cases h

/-- A path at which a file can be put: the directory that it is put into and what it is called. -/
structure IsTarget (t : FileTree) (path : List Char) (place : Location) (part : List Char) :
    Prop where
  parent : t.findParent path = .ok (place, part)
  no_slash : path.getLast? ≠ some '/'
  ne_here : part ≠ Path.here
  ne_parent : part ≠ Path.parent
  length : octetCount part ≤ maxPart
  vacant : t.lookup (place ++ [part]) ≠ some .directory
  permitted :
    t.allows (if (t.lookup (place ++ [part])).isSome then place ++ [part] else place) .write = true

theorem write_eq_ok_iff : t.write path octets = .ok t' ↔
    ∃ place part, t.IsTarget path place part ∧ t' = t.put (place ++ [part]) (.file octets) := by
  constructor
  · intro h
    rw [write] at h
    split at h
    · cases h
    next place part hparent =>
      by_cases hname : path.getLast? = some '/' ∨ part = Path.here ∨ part = Path.parent
      · rw [if_pos hname] at h
        cases h
      by_cases hlength : octetCount part > maxPart
      · rw [if_neg hname, if_pos hlength] at h
        cases h
      rw [if_neg hname, if_neg hlength] at h
      rw [not_or, not_or] at hname
      have hlength := Nat.not_lt.mp hlength
      simp only at h
      split at h
      · cases h
      next hfile =>
        split_ifs at h with hpermitted
        cases h
        exact ⟨place, part, ⟨hparent, hname.1, hname.2.1, hname.2.2, hlength, by simp [hfile],
          by simpa [hfile] using hpermitted⟩, rfl⟩
      next hnone =>
        split_ifs at h with hpermitted
        cases h
        exact ⟨place, part, ⟨hparent, hname.1, hname.2.1, hname.2.2, hlength, by simp [hnone],
          by simpa [hnone] using hpermitted⟩, rfl⟩
  · rintro ⟨place, part, h, rfl⟩
    have hname : ¬ (path.getLast? = some '/' ∨ part = Path.here ∨ part = Path.parent) := by
      simp [h.no_slash, h.ne_here, h.ne_parent]
    have hpermitted := h.permitted
    rw [write, h.parent]
    simp only [if_neg hname, if_neg (Nat.not_lt.mpr h.length)]
    split
    next hdirectory => exact absurd hdirectory h.vacant
    next hfile =>
      simp only [hfile, Option.isSome_some, if_true] at hpermitted
      exact if_pos hpermitted
    next hnone =>
      simp only [hnone, Option.isSome_none, Bool.false_eq_true, if_false] at hpermitted
      exact if_pos hpermitted

/-- What was written at a path is read there, if it may be read. -/
theorem IsTarget.read_put {part : List Char} (h : t.IsTarget path place part) :
    (t.put (place ++ [part]) (.file octets)).read path =
      if t.allows (place ++ [part]) .read then .ok octets else .error .denied := by
  obtain ⟨hcheck, hlast, hfollow, hdirectory, hpass⟩ := findParent_eq_ok h.parent
  have hgo : go place part = place ++ [part] := by
    rw [go, if_neg h.ne_here, if_neg h.ne_parent]
  have hne : place ≠ place ++ [part] := by simp
  have hparts : partsOf path = (partsOf path).dropLast ++ [part] :=
    (List.dropLast_append_getLast? part hlast).symm
  have hwhole : (t.put (place ++ [part]) (.file octets)).follow (t.start path) (partsOf path) =
      .ok (place ++ [part]) := by
    rw [hparts, follow_append, follow_put h.vacant hfollow]
    exact follow_cons_eq_ok_iff.mpr ⟨lookup_put_of_directory hne hdirectory, hpass, h.length,
      by rw [hgo]; rfl⟩
  have hstart : (t.put (place ++ [part]) (.file octets)).start path = t.start path := rfl
  have hallows : (t.put (place ++ [part]) (.file octets)).allows (place ++ [part]) .read =
      t.allows (place ++ [part]) .read := rfl
  rw [read, find, hcheck]
  simp only [if_neg h.no_slash, hstart, hwhole, lookup_put, hallows]
  cases t.allows (place ++ [part]) .read <;> rfl

/-- Where something is read after it was written, everything is that is written. -/
theorem read_of_write {other : List UInt8} {t'' : FileTree} (h : t.write path octets = .ok t')
    (hother : t.write path other = .ok t'') (hread : t''.read path = .ok other) :
    t'.read path = .ok octets := by
  obtain ⟨place, part, htarget, rfl⟩ := write_eq_ok_iff.mp h
  obtain ⟨place', part', htarget', rfl⟩ := write_eq_ok_iff.mp hother
  obtain ⟨rfl, rfl⟩ := Prod.mk.inj (Except.ok.inj (htarget.parent.symm.trans htarget'.parent))
  rw [htarget'.read_put] at hread
  rw [htarget.read_put]
  split_ifs at hread ⊢
  rfl

end FileTree

end StackFront
