import StackFront.Image
import StackFront.Proofs.Lookup

/-!
# The outer shape of images

The check of a document looks at one thing after the other: that it is an object, its version, its
programs, its root. It ends at the first thing that is wrong with a refusal of its own, or passes.
The one exception is a root that is a list or an object. Such a root cannot be looked up among the
programs at all, so that the check breaks off before it can refuse it.
-/
namespace StackFront.Image

/-- The members have the supported version and hold some programs. -/
structure Holds (members programs : List (String × Json)) : Prop where
  version_eq : Json.member? members versionKey = some (.string version)
  programs_eq : Json.member? members programsKey = some (.object programs)
  programs_ne : programs ≠ []

/-- The document is an object that holds programs, and its root is the name of one of them. -/
def IsEnvelope (doc : Json) (parts : Parts) : Prop :=
  ∃ members, doc = .object members ∧ Holds members parts.programs ∧
    Json.member? members rootKey = some (.string parts.root) ∧
    parts.root ∈ parts.programs.map Prod.fst

/-- The document is an object that holds programs, but its root is a list or an object. -/
def HasCompoundRoot (doc : Json) : Prop :=
  ∃ members programs root, doc = .object members ∧ Holds members programs ∧
    Json.member? members rootKey = some root ∧ isKey root = false

/-- How the check of a document ends. -/
inductive Checks : Json → Except Fault Parts → Prop
  | notObject {doc : Json} (h : ∀ members, doc ≠ .object members) :
      Checks doc (.error BadValue.imageNotObject)
  | version {members : List (String × Json)}
      (h : Json.member? members versionKey ≠ some (.string Image.version)) :
      Checks (.object members)
        (.error (BadValue.imageVersion ((Json.member? members versionKey).getD .null)))
  | empty {members : List (String × Json)}
      (hversion : Json.member? members versionKey = some (.string Image.version))
      (h : ∀ programs, ¬ Holds members programs) :
      Checks (.object members) (.error BadValue.imageEmpty)
  | root {members programs : List (String × Json)} (hholds : Holds members programs)
      (hkey : isKey ((Json.member? members rootKey).getD .null))
      (h : ∀ name, Json.member? members rootKey = some (.string name) →
        name ∉ programs.map Prod.fst) :
      Checks (.object members)
        (.error (BadValue.imageRoot ((Json.member? members rootKey).getD .null)))
  | compound {members programs : List (String × Json)} {root : Json}
      (hholds : Holds members programs) (hroot : Json.member? members rootKey = some root)
      (hkey : isKey root = false) : Checks (.object members) (.error Misfit.wrongType)
  | envelope {members programs : List (String × Json)} {root : Name}
      (hholds : Holds members programs)
      (hroot : Json.member? members rootKey = some (.string root))
      (hmem : root ∈ programs.map Prod.fst) : Checks (.object members) (.ok ⟨root, programs⟩)

variable {members programs : List (String × Json)} {doc root : Json} {name : Name} {parts : Parts}

theorem isVersion_iff {value : Option Json} :
    isVersion (value.getD .null) ↔ value = some (.string Image.version) := by
  rcases value with _ | v
  · simp [isVersion]
  · cases v <;> simp [isVersion]

theorem isSome_member?_iff :
    (Json.member? programs name).isSome ↔ name ∈ programs.map Prod.fst := by
  simp [Json.member?]

/-- The last step of the check, which is about the root. -/
def checkRoot (programs : List (String × Json)) (root : Json) : Except Fault Parts :=
  match root with
  | .string name =>
    if (Json.member? programs name).isSome then .ok ⟨name, programs⟩
    else .error (BadValue.imageRoot (.string name))
  | root => if isKey root then .error (BadValue.imageRoot root) else .error Misfit.wrongType

namespace Holds

variable (h : Holds members programs)
include h

/-- Once the programs are held, the check is one of the root. -/
theorem check_eq :
    check (.object members) = checkRoot programs ((Json.member? members rootKey).getD .null) := by
  obtain ⟨p, rest, rfl⟩ := List.exists_cons_of_ne_nil h.programs_ne
  simp only [check, isVersion_iff.mpr h.version_eq, h.programs_eq, Bool.not_true,
    Bool.false_eq_true, if_false]
  rfl

theorem check_envelope (hroot : Json.member? members rootKey = some (.string name))
    (hmem : name ∈ programs.map Prod.fst) :
    check (.object members) = .ok ⟨name, programs⟩ := by
  simp only [h.check_eq, hroot, Option.getD_some, checkRoot, isSome_member?_iff.mpr hmem, if_true]

theorem check_compound (hroot : Json.member? members rootKey = some root)
    (hkey : isKey root = false) :
    check (.object members) = .error Misfit.wrongType := by
  rw [h.check_eq, hroot, Option.getD_some]
  cases root with
  | array | object => rfl
  | null | bool | number | string => cases hkey

theorem check_root (hkey : isKey ((Json.member? members rootKey).getD .null))
    (hroot : ∀ name, Json.member? members rootKey = some (.string name) →
      name ∉ programs.map Prod.fst) :
    check (.object members) =
      .error (BadValue.imageRoot ((Json.member? members rootKey).getD .null)) := by
  rw [h.check_eq]
  cases hvalue : Json.member? members rootKey with
  | none => rfl
  | some root =>
    rw [hvalue, Option.getD_some] at hkey
    cases root with
    | array | object => cases hkey
    | null | bool | number => rfl
    | string name =>
      have hunknown : ¬ (Json.member? programs name).isSome :=
        isSome_member?_iff.not.mpr (hroot name hvalue)
      simp only [Option.getD_some, checkRoot, if_neg hunknown]

theorem checks : Checks (.object members) (check (.object members)) := by
  by_cases hkey : isKey ((Json.member? members rootKey).getD .null)
  · by_cases hnamed : ∃ name, Json.member? members rootKey = some (.string name) ∧
        name ∈ programs.map Prod.fst
    · obtain ⟨name, hroot, hmem⟩ := hnamed
      rw [h.check_envelope hroot hmem]
      exact .envelope h hroot hmem
    · have hroot : ∀ name, Json.member? members rootKey = some (.string name) →
          name ∉ programs.map Prod.fst := fun name hroot hmem => hnamed ⟨name, hroot, hmem⟩
      rw [h.check_root hkey hroot]
      exact .root h hkey hroot
  · cases hroot : Json.member? members rootKey with
    | none =>
      rw [hroot] at hkey
      exact absurd rfl hkey
    | some root =>
      rw [hroot, Option.getD_some, Bool.not_eq_true] at hkey
      rw [h.check_compound hroot hkey]
      exact .compound h hroot hkey

end Holds

theorem check_version (h : Json.member? members versionKey ≠ some (.string Image.version)) :
    check (.object members) =
      .error (BadValue.imageVersion ((Json.member? members versionKey).getD .null)) := by
  have hother : isVersion ((Json.member? members versionKey).getD .null) = false := by
    rw [← Bool.not_eq_true]
    exact isVersion_iff.not.mpr h
  simp only [check, hother, Bool.not_false, if_true]

theorem check_empty (hversion : Json.member? members versionKey = some (.string Image.version))
    (h : ∀ programs, ¬ Holds members programs) :
    check (.object members) = .error BadValue.imageEmpty := by
  simp only [check, isVersion_iff.mpr hversion, Bool.not_true, Bool.false_eq_true, if_false]
  split
  next p rest hprograms => exact absurd ⟨hversion, hprograms, List.cons_ne_nil _ _⟩ (h _)
  next => rfl

/-- The check ends in one of these ways. -/
theorem checks (doc : Json) : Checks doc (check doc) := by
  cases doc with
  | object members =>
    by_cases hversion : Json.member? members versionKey = some (.string Image.version)
    · by_cases h : ∃ programs, Holds members programs
      · exact h.choose_spec.checks
      · rw [not_exists] at h
        rw [check_empty hversion h]
        exact .empty hversion h
    · rw [check_version hversion]
      exact .version hversion
  | null | bool | number | string | array => exact .notObject fun members h => by cases h

theorem check_eq_ok_iff : check doc = .ok parts ↔ IsEnvelope doc parts := by
  constructor
  · intro h
    have hchecks := checks doc
    rw [h] at hchecks
    cases hchecks with
    | envelope hholds hroot hmem => exact ⟨_, rfl, hholds, hroot, hmem⟩
  · rintro ⟨members, rfl, hholds, hroot, hmem⟩
    exact hholds.check_envelope hroot hmem

theorem check_eq_wrongType_iff : check doc = .error Misfit.wrongType ↔ HasCompoundRoot doc := by
  constructor
  · intro h
    have hchecks := checks doc
    rw [h] at hchecks
    cases hchecks with
    | compound hholds hroot hkey => exact ⟨_, _, _, rfl, hholds, hroot, hkey⟩
  · rintro ⟨members, programs, root, rfl, hholds, hroot, hkey⟩
    exact hholds.check_compound hroot hkey

/-- The check passes exactly the documents of the right shape. Of the others it refuses all but
those with a list or an object for a root, on which it breaks off. -/
theorem check_outcomes (doc : Json) :
    (∀ parts, check doc = .ok parts ↔ IsEnvelope doc parts) ∧
      (check doc = .error Misfit.wrongType ↔ HasCompoundRoot doc) ∧
      ((∃ e : BadValue, check doc = .error e) ↔
        (∀ parts, ¬ IsEnvelope doc parts) ∧ ¬ HasCompoundRoot doc) := by
  refine ⟨fun parts => check_eq_ok_iff, check_eq_wrongType_iff, ?_⟩
  simp only [← check_eq_ok_iff, ← check_eq_wrongType_iff]
  have hchecks := checks doc
  generalize check doc = result at hchecks
  constructor
  · rintro ⟨e, rfl⟩
    exact ⟨fun parts h => (by cases h), fun h => (by cases h)⟩
  · rintro ⟨hok, htype⟩
    cases hchecks with
    | notObject | version | empty | root => exact ⟨_, rfl⟩
    | compound => exact absurd rfl htype
    | envelope => exact absurd rfl (hok _)

/-- A document whose root is an empty list neither passes nor is refused. -/
theorem check_root_list :
    let doc : Json := .object [("vt_version", .string "0.1"), ("root", .array []),
      ("programs", .object [("a", .object [("methods", .array [.string "1"])])])]
    ¬ ((∃ parts, check doc = .ok parts) ∨ ∃ e : BadValue, check doc = .error e) := by
  intro doc
  have hcheck : check doc = .error Misfit.wrongType := rfl
  rw [hcheck]
  rintro (⟨parts, h⟩ | ⟨e, h⟩)
  · cases h
  · cases h

end StackFront.Image
