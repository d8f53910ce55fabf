import Mathlib.Data.List.Basic
import StackFront.Proofs.Path.NormalForm

/-!
# The shape of canonical names

Normalizing leads to paths of a certain shape, which can be told without pushing a single part: the
current directory, a root, or parts with single slashes between them that go up at most at their
beginning, and behind a root never. A path is left as it is exactly if it has this shape.
-/
namespace StackFront

namespace Text

theorem joinWith_eq_intercalate (sep : Char) (parts : List (List Char)) :
    joinWith sep parts = List.intercalate [sep] parts := by
  induction parts using joinWith.induct with
  | case1 => rfl
  | case2 part => simp [joinWith]
  | case3 part next parts ih =>
    rw [joinWith, ih, List.intercalate_cons_of_ne_nil (List.cons_ne_nil next parts),
      List.append_assoc, List.singleton_append]

end Text

namespace Path

/-- The paths that go nowhere in vain: they stay where they are or at a root, or they go up and then
down by names, or down from a root by names. -/
inductive IsDirect : List Char → Prop
  | here : IsDirect ['.']
  | root {r : List Char} (hr : r = ['/'] ∨ r = ['/', '/']) : IsDirect r
  | relative {ups : Nat} {names : List (List Char)} (hne : ups ≠ 0 ∨ names ≠ [])
      (hnames : ∀ p ∈ names, IsName p) :
      IsDirect (List.intercalate ['/'] (List.replicate ups ['.', '.'] ++ names))
  | absolute {r : List Char} {names : List (List Char)} (hr : r = ['/'] ∨ r = ['/', '/'])
      (hne : names ≠ []) (hnames : ∀ p ∈ names, IsName p) :
      IsDirect (r ++ List.intercalate ['/'] names)

variable {path r : List Char} {parts : List (List Char)}

theorem render_relative (hne : parts ≠ []) (h : ∀ p ∈ parts, IsProper p) :
    render [] parts = List.intercalate ['/'] parts := by
  rw [render_nil hne h, Text.joinWith_eq_intercalate]

theorem render_absolute (hr : r = ['/'] ∨ r = ['/', '/']) (parts : List (List Char)) :
    render r parts = r ++ List.intercalate ['/'] parts := by
  rw [← Text.joinWith_eq_intercalate]
  rcases hr with rfl | rfl <;> rfl

namespace Settled

/-- Settled parts of a relative path are ways up and then names. -/
theorem exists_ups (h : Settled false parts.reverse) :
    ∃ ups names, parts = List.replicate ups parent ++ names ∧ ∀ p ∈ names, IsName p := by
  generalize hinner : parts.reverse = inner at h
  rw [List.reverse_eq_iff] at hinner
  subst hinner
  induction h with
  | nil => exact ⟨0, [], rfl, by simp⟩
  | @name part inner hpart hname _ ih =>
    obtain ⟨ups, names, hinner, hnames⟩ := ih
    refine ⟨ups, names ++ [part], ?_, List.forall_mem_append.mpr ⟨hnames, ?_⟩⟩
    · rw [List.reverse_cons, hinner, List.append_assoc]
    · exact List.forall_mem_singleton.mpr ⟨hpart, hname⟩
  | @up inner _ h =>
    have hups : inner = List.replicate inner.length parent := List.eq_replicate_of_mem h
    refine ⟨inner.length + 1, [], ?_, by simp⟩
    rw [hups, ← List.replicate_succ, List.reverse_replicate, List.length_replicate, List.append_nil]

theorem of_ups (ups : Nat) {names : List (List Char)} (h : ∀ p ∈ names, IsName p) :
    Settled false (List.replicate ups parent ++ names).reverse := by
  rw [List.reverse_append, List.reverse_replicate]
  have hups : Settled false (List.replicate ups parent) :=
    .parents rfl fun p hp => List.eq_of_mem_replicate hp
  exact hups.names_append fun p hp => h p (List.mem_reverse.mp hp)

/-- Settled parts of an absolute path are names. -/
theorem absolute_iff : Settled true parts.reverse ↔ ∀ p ∈ parts, IsName p := by
  constructor
  · intro h p hp
    rw [← List.mem_reverse] at hp
    generalize parts.reverse = inner at h hp
    induction inner with
    | nil => cases hp
    | cons part inner ih =>
      cases h with
      | name hpart hname h =>
        rcases List.mem_cons.mp hp with rfl | hp
        · exact ⟨hpart, hname⟩
        · exact ih h hp
      | up hrel _ => cases hrel
  · exact fun h => .of_names fun p hp => h p (List.mem_reverse.mp hp)

end Settled

theorem IsNormal.isDirect (h : IsNormal path r parts) : IsDirect path := by
  obtain ⟨rfl, hr, hsettled⟩ := h
  have hproper : ∀ p ∈ parts, IsProper p := fun p hp =>
    hsettled.isProper p (List.mem_reverse.mpr hp)
  rcases hr with rfl | hr
  · by_cases hne : parts = []
    · rw [hne]
      exact .here
    · obtain ⟨ups, names, rfl, hnames⟩ := Settled.exists_ups hsettled
      rw [render_relative hne hproper]
      refine .relative ?_ hnames
      by_contra hnone
      rw [not_or, not_not, not_not] at hnone
      exact hne (by rw [hnone.1, hnone.2]; rfl)
  · have hroot : r ≠ [] := by rcases hr with rfl | rfl <;> simp
    rw [decide_eq_true hroot, Settled.absolute_iff] at hsettled
    rw [render_absolute hr]
    by_cases hne : parts = []
    · rw [hne, List.intercalate_nil, List.append_nil]
      exact .root hr
    · exact .absolute hr hne hsettled

theorem IsDirect.exists_isNormal (h : IsDirect path) : ∃ r parts, IsNormal path r parts := by
  cases h with
  | here => exact ⟨[], [], rfl, .inl rfl, .nil⟩
  | root hr => exact ⟨path, [], by rw [render_absolute hr]; simp, .inr hr, .nil⟩
  | @relative ups names hne hnames =>
    have hsettled : Settled false (List.replicate ups parent ++ names).reverse :=
      .of_ups ups hnames
    have hparts : List.replicate ups parent ++ names ≠ [] := by
      rw [ne_eq, List.append_eq_nil_iff, List.replicate_eq_nil_iff]
      exact fun hnil => hne.elim (· hnil.1) (· hnil.2)
    refine ⟨[], _, ?_, .inl rfl, hsettled⟩
    exact (render_relative hparts fun p hp => hsettled.isProper p (List.mem_reverse.mpr hp)).symm
  | @absolute r names hr _ hnames =>
    exact ⟨r, names, (render_absolute hr names).symm, .inr hr,
      .of_names fun p hp => hnames p (List.mem_reverse.mp hp)⟩

/-- Canonical names have the shape of direct paths, and a path is its own canonical name if and only
if it has this shape. -/
theorem canonical_isDirect :
    (∀ target referrer, IsDirect (canonical target referrer).toList) ∧
      ∀ path, canonical path none = path ↔ IsDirect path.toList := by
  have hnormal : ∀ path, IsDirect (normalize path) := fun path =>
    (isNormal_normalize path).isDirect
  refine ⟨fun target referrer => ?_, fun path => ?_⟩
  · rw [canonical, String.toList_ofList]
    cases referrer <;> exact hnormal _
  · rw [canonical, Option.map_none, canonicalChars]
    constructor
    · intro hpath
      rw [← hpath, String.toList_ofList]
      exact hnormal _
    · intro hdirect
      obtain ⟨r, parts, h⟩ := hdirect.exists_isNormal
      rw [h.normalize_eq, String.ofList_toList]

example : canonical "..//.././a/../../b/" (some "/x/y") = "/b" := by decide

end Path

end StackFront
