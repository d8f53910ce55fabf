import StackFront.Store

/-!
# Normal forms are kept

Normalizing a path a second time does not change it any more. The parts that normalizing leaves are
settled: none of them takes another one back. Pushing settled parts one after the other therefore
only stacks them up, and a path that is written with settled parts is its own normal form.
-/
namespace StackFront.Path

/-- Parts, innermost first, none of which takes another one back: `..` occurs in relative paths
only, and there only above other `..`. -/
inductive Settled (absolute : Bool) : List (List Char) → Prop
  | nil : Settled absolute []
  | name {part : List Char} {parts : List (List Char)} (hpart : IsProper part)
      (hname : part ≠ parent) (h : Settled absolute parts) : Settled absolute (part :: parts)
  | up {parts : List (List Char)} (hrel : absolute = false) (h : ∀ p ∈ parts, p = parent) :
      Settled absolute (parent :: parts)

/-- A part that names something below where it stands. -/
def IsName (part : List Char) : Prop :=
  IsProper part ∧ part ≠ parent

theorem isProper_parent : IsProper parent := by
  unfold IsProper
  decide

namespace Settled

variable {absolute : Bool} {part : List Char} {parts first : List (List Char)}

theorem isProper (h : Settled absolute parts) : ∀ p ∈ parts, IsProper p := by
  induction h with
  | nil => simp
  | name hpart _ _ ih => exact List.forall_mem_cons.mpr ⟨hpart, ih⟩
  | up _ h =>
    refine List.forall_mem_cons.mpr ⟨isProper_parent, fun p hp => ?_⟩
    rw [h p hp]
    exact isProper_parent

theorem parents (hrel : absolute = false) (h : ∀ p ∈ parts, p = parent) :
    Settled absolute parts := by
  cases parts with
  | nil => exact .nil
  | cons part rest =>
    rw [List.forall_mem_cons] at h
    rw [h.1]
    exact .up hrel h.2

/-- What is below settled parts is settled. -/
theorem tail (h : Settled absolute (part :: parts)) : Settled absolute parts := by
  cases h with
  | name _ _ h => exact h
  | up hrel h => exact parents hrel h

theorem of_append (h : Settled absolute (first ++ parts)) : Settled absolute parts := by
  induction first with
  | nil => exact h
  | cons part first ih => exact ih h.tail

/-- Names are settled above settled parts. -/
theorem names_append (h : Settled absolute parts)
    (hnames : ∀ p ∈ first, IsName p) : Settled absolute (first ++ parts) := by
  induction first with
  | nil => exact h
  | cons part first ih =>
    rw [List.forall_mem_cons] at hnames
    exact .name hnames.1.1 hnames.1.2 (ih hnames.2)

theorem of_names (h : ∀ p ∈ parts, IsName p) : Settled absolute parts := by
  rw [← List.append_nil parts]
  exact names_append .nil h

/-- `..` is settled above settled parts if it cannot be taken back. -/
theorem above_parent (h : Settled absolute (parent :: parts)) :
    Settled absolute (parent :: parent :: parts) := by
  cases h with
  | name _ hname _ => exact absurd rfl hname
  | up hrel h => exact .up hrel (List.forall_mem_cons.mpr ⟨rfl, h⟩)

theorem push (h : Settled absolute parts) (hpart : '/' ∉ part) :
    Settled absolute (push absolute parts part) := by
  unfold Path.push
  split
  · exact h
  next hproper =>
    rw [not_or] at hproper
    split
    next hname => exact .name ⟨hproper.1, hproper.2, hpart⟩ hname h
    next hparent =>
      rw [Decidable.not_not] at hparent
      subst hparent
      cases parts with
      | nil =>
        cases absolute with
        | true => exact .nil
        | false => exact .up rfl (by simp)
      | cons top rest =>
        by_cases htop : top = parent
        · subst htop
          simpa using h.above_parent
        · simpa [htop] using h.tail

/-- Nothing happens to settled parts when they are pushed. -/
theorem push_eq_cons (h : Settled absolute (part :: parts)) :
    Path.push absolute parts part = part :: parts := by
  cases h with
  | name hpart hname _ => simp [Path.push, hpart.1, hpart.2.1, hname]
  | up hrel h =>
    have hproper : ¬ (parent = [] ∨ parent = here) := by decide
    cases parts with
    | nil => simp [Path.push, hproper, hrel]
    | cons top rest =>
      have htop : top = parent := h top (List.mem_cons_self ..)
      simp [Path.push, hproper, htop]

theorem foldl_push (h : Settled absolute (first.reverse ++ parts)) :
    first.foldl (Path.push absolute) parts = first.reverse ++ parts := by
  induction first generalizing parts with
  | nil => rfl
  | cons part first ih =>
    rw [List.reverse_cons, List.append_assoc, List.singleton_append] at h ⊢
    rw [List.foldl_cons, push_eq_cons h.of_append]
    exact ih h

end Settled

theorem settled_normalParts (path : List Char) :
    Settled (isAbsolute path) (normalParts path).reverse := by
  have fold : ∀ given parts : List (List Char), (∀ p ∈ given, '/' ∉ p) →
      Settled (isAbsolute path) parts →
      Settled (isAbsolute path) (given.foldl (push (isAbsolute path)) parts) := by
    intro given
    induction given with
    | nil => exact fun _ _ h => h
    | cons part given ih =>
      intro parts hgiven h
      rw [List.forall_mem_cons] at hgiven
      exact ih _ hgiven.2 (h.push hgiven.1)
  rw [normalParts, List.reverse_reverse]
  exact fold _ _ (fun p hp => Text.not_mem_of_mem_splitAt hp) .nil

/-- Empty and `.` parts do not count. -/
theorem normalParts_eq (path : List Char) :
    normalParts path = ((properParts path).foldl (push (isAbsolute path)) []).reverse := by
  rw [normalParts, properParts, List.foldl_filter]
  congr 2
  funext parts part
  by_cases h : part = [] ∨ part = here
  · rcases h with rfl | rfl <;> simp [push]
  · rw [not_or] at h
    simp [h]

theorem isAbsolute_eq_root (path : List Char) : isAbsolute path = (root path ≠ [] : Bool) := by
  unfold isAbsolute root
  split
  · simp
  · simp
  · simp
  next hrel =>
    cases path with
    | nil => simp
    | cons c rest =>
      have hc : c ≠ '/' := fun e => hrel rest (e ▸ rfl)
      simp [hc]

theorem isAbsolute_render {r : List Char} {parts : List (List Char)} (hr : IsRoot r)
    (h : ∀ p ∈ parts, IsProper p) : isAbsolute (render r parts) = (r ≠ [] : Bool) := by
  rw [isAbsolute_eq_root, root_render hr h]

/-- A path in normal form: a root with settled parts. -/
structure IsNormal (path : List Char) (r : List Char) (parts : List (List Char)) : Prop where
  eq : path = render r parts
  isRoot : IsRoot r
  settled : Settled (r ≠ []) parts.reverse

theorem isNormal_normalize (path : List Char) :
    IsNormal (normalize path) (root path) (normalParts path) := by
  refine ⟨rfl, isRoot_root path, ?_⟩
  rw [← isAbsolute_eq_root]
  exact settled_normalParts path

namespace IsNormal

variable {path r : List Char} {parts : List (List Char)}

theorem isProper (h : IsNormal path r parts) : ∀ p ∈ parts, IsProper p :=
  fun p hp => h.settled.isProper p (List.mem_reverse.mpr hp)

theorem normalParts_eq (h : IsNormal path r parts) : normalParts path = parts := by
  have hsettled := h.settled
  rw [← List.append_nil parts.reverse] at hsettled
  rw [Path.normalParts_eq, h.eq, isAbsolute_render h.isRoot h.isProper,
    properParts_render h.isRoot h.isProper, hsettled.foldl_push, List.append_nil,
    List.reverse_reverse]

/-- A path in normal form is left as it is. -/
theorem normalize_eq (h : IsNormal path r parts) : normalize path = path := by
  have hroot : root path = r := by rw [h.eq, root_render h.isRoot h.isProper]
  rw [normalize, h.normalParts_eq, hroot, ← h.eq]

end IsNormal

theorem normalize_normalize (path : List Char) : normalize (normalize path) = normalize path :=
  (isNormal_normalize path).normalize_eq

/-- A canonical name is its own canonical form. -/
theorem IsCanonical.canonical_eq {name : Name} (h : IsCanonical name) :
    canonical name none = name := by
  obtain ⟨target, referrer, rfl⟩ := h
  have hchars : ∀ r, canonicalChars (canonicalChars target.toList r) none =
      canonicalChars target.toList r := by
    intro r
    cases r <;> exact normalize_normalize _
  rw [canonical, canonical, String.toList_ofList, Option.map_none, hchars]

end StackFront.Path
