import StackFront.Proofs.Json.Compact
import StackFront.Proofs.Json.Sorting

/-!
# Documents with one digest

The text that a digest is taken of leaves out the time at the top of a document and the order of
keys, and nothing else: two documents have the same text if and only if they are the same value but
for that time, where objects count as tables of values under keys.
-/
namespace StackFront

namespace Json

/-- The same value, where the members of an object have no order. -/
inductive Same : Json → Json → Prop where
  | null : Same null null
  | bool (b : Bool) : Same (bool b) (bool b)
  | number (n : Number) : Same (number n) (number n)
  | string (s : String) : Same (string s) (string s)
  | array {items items' : List Json} (h : List.Forall₂ Same items items') :
    Same (array items) (array items')
  | object {members members' : List (String × Json)}
    (h : ∀ key, Option.Rel Same (member? members key) (member? members' key)) :
    Same (object members) (object members')

variable {v w : Json} {items items' : List Json} {members members' : List (String × Json)}

@[simp] theorem same_null : Same null w ↔ w = null :=
  ⟨fun h => by cases h; rfl, fun h => h ▸ .null⟩

@[simp] theorem same_bool {b : Bool} : Same (bool b) w ↔ w = bool b :=
  ⟨fun h => by cases h; rfl, fun h => h ▸ .bool b⟩

@[simp] theorem same_number {n : Number} : Same (number n) w ↔ w = number n :=
  ⟨fun h => by cases h; rfl, fun h => h ▸ .number n⟩

@[simp] theorem same_string {s : String} : Same (string s) w ↔ w = string s :=
  ⟨fun h => by cases h; rfl, fun h => h ▸ .string s⟩

@[simp] theorem same_array :
    Same (array items) w ↔ ∃ items', w = array items' ∧ List.Forall₂ Same items items' := by
  constructor
  · rintro (_ | _ | _ | _ | h)
    exact ⟨_, rfl, h⟩
  · rintro ⟨items', rfl, h⟩
    exact .array h

@[simp] theorem same_object : Same (object members) w ↔ ∃ members', w = object members' ∧
    ∀ key, Option.Rel Same (member? members key) (member? members' key) := by
  constructor
  · rintro (_ | _ | _ | _ | _ | h)
    exact ⟨_, rfl, h⟩
  · rintro ⟨members', rfl, h⟩
    exact .object h

/-- Every value is the same as itself. -/
theorem same_refl (v : Json) : Same v v := by
  induction everywhere_of_forall (p := fun _ => True) (fun _ => trivial) v with
  | null => exact .null
  | bool => exact .bool _
  | number => exact .number _
  | string => exact .string _
  | array _ _ ih => exact .array (List.forall₂_same.mpr ih)
  | @object members _ _ ih =>
    refine .object fun key => ?_
    cases hm : member? members key with
    | none => exact .none
    | some v => exact .some (ih _ (mem_of_member? hm))

end Json

namespace Image
open Json

variable {v w : Json} {items items' : List Json} {members members' : List (String × Json)}

theorem map_sortKeys_eq_iff (hitems' : ∀ w ∈ items', w.HasDistinctKeys)
    (h : ∀ v ∈ items, ∀ w : Json, w.HasDistinctKeys → (sortKeys v = sortKeys w ↔ v.Same w)) :
    items.map sortKeys = items'.map sortKeys ↔ List.Forall₂ Same items items' := by
  induction items generalizing items' with
  | nil => simp [eq_comm]
  | cons v items ih =>
    cases items' with
    | nil => simp
    | cons w items' =>
      rw [List.forall_mem_cons] at h hitems'
      rw [List.map_cons, List.map_cons, List.cons.injEq, h.1 w hitems'.1, ih hitems'.2 h.2,
        List.forall₂_cons]

theorem optionMap_sortKeys_eq_iff {value value' : Option Json}
    (hvalue' : ∀ w ∈ value', w.HasDistinctKeys)
    (h : ∀ v ∈ value, ∀ w : Json, w.HasDistinctKeys → (sortKeys v = sortKeys w ↔ v.Same w)) :
    value.map sortKeys = value'.map sortKeys ↔ Option.Rel Same value value' := by
  cases value with
  | none => cases value' <;> simp
  | some v =>
    cases value' with
    | none => simp
    | some w => simpa using h v rfl w (hvalue' w rfl)

/-- Values have the same sorted form if and only if they are the same. -/
theorem sortKeys_eq_iff_same (h : v.HasDistinctKeys) (h' : w.HasDistinctKeys) :
    sortKeys v = sortKeys w ↔ v.Same w := by
  induction h generalizing w with
  | null => cases w <;> simp [sortKeys]
  | bool => cases w <;> simp [sortKeys, eq_comm]
  | number => cases w <;> simp [sortKeys, eq_comm]
  | string => cases w <;> simp [sortKeys, eq_comm]
  | @array items _ _ ih =>
    cases w with
    | array items' =>
      have hitems' := (everywhere_array.mp h').2
      simpa [sortKeys, sortItems_eq] using
        map_sortKeys_eq_iff hitems' fun v hv w hw => ih v hv hw
    | _ => simp [sortKeys]
  | @object members hkeys _ ih =>
    cases w with
    | object members' =>
      obtain ⟨hkeys', hmembers'⟩ := everywhere_object.mp h'
      -- sorted objects are compared key by key
      have hvalues : ∀ key, (member? members key).map sortKeys =
          (member? members' key).map sortKeys ↔
            Option.Rel Same (member? members key) (member? members' key) := fun key =>
        optionMap_sortKeys_eq_iff (fun w hw => hmembers' _ (mem_of_member? hw)) fun v hv w hw =>
          ih _ (mem_of_member? hv) hw
      have hsorted := sorted_eq_iff hkeys hkeys'
      simpa [sortKeys, sorted, hvalues] using hsorted
    | _ => simp [sortKeys]

/-- The members of a document without its time. -/
def untimed (members : List (String × Json)) : List (String × Json) :=
  members.filter fun m => m.1 ≠ timestampKey

theorem hasDistinctKeys_untimed (h : (object members).HasDistinctKeys) :
    (object (untimed members)).HasDistinctKeys := by
  rw [HasDistinctKeys, everywhere_object] at h ⊢
  have hsub : (untimed members).Sublist members := List.filter_sublist
  exact ⟨h.1.sublist (hsub.map Prod.fst), fun m hm => h.2 m (hsub.subset hm)⟩

/-- What holds everywhere in a document holds everywhere in what is left without its time. -/
theorem everywhere_untimed {p : Json → Prop} (hp : ∀ members, p (object members))
    (h : (object members).Everywhere p) : (object (untimed members)).Everywhere p := by
  rw [everywhere_object] at h ⊢
  exact ⟨hp _, fun m hm => h.2 m (List.mem_of_mem_filter hm)⟩

/-- There is a text that a digest is taken of unless an integer in it has too many digits. -/
theorem payload_object (members : List (String × Json)) : payload (object members) =
    if (object (untimed members)).hasLong then .error BadValue.longInteger
    else .ok (sortKeys (object (untimed members))).compact := by
  rw [← hasLong_sortKeys]
  rfl

/-- A document that is checked has a digest, unless an integer in it has too many digits. -/
theorem exists_digest {doc : Json} {parts : Parts} (hcheck : check doc = .ok parts)
    (hdigits : doc.HasFewDigits) : ∃ text, digest doc = .ok text := by
  cases doc with
  | object members =>
    have hfew : (object (untimed members)).HasFewDigits :=
      everywhere_untimed (fun _ => trivial) hdigits
    rw [digest, payload_object, hfew.hasLong_eq_false]
    exact ⟨_, rfl⟩
  | _ => cases hcheck

/-- Documents have the same text that a digest is taken of if and only if they are the same but for
the time at their top. -/
theorem payload_eq_iff_same (h : (object members).HasDistinctKeys)
    (h' : (object members').HasDistinctKeys) (hfloats : (object members).HasNoFloats)
    (hfloats' : (object members').HasNoFloats)
    (hdigits : (object (untimed members)).HasFewDigits)
    (hdigits' : (object (untimed members')).HasFewDigits) :
    ∃ text text', payload (object members) = .ok text ∧ payload (object members') = .ok text' ∧
      (text = text' ↔ (object (untimed members)).Same (object (untimed members'))) := by
  have hsorted : ∀ {members : List (String × Json)}, (object members).HasNoFloats →
      (sortKeys (object (untimed members))).HasNoFloats := fun h =>
    hasNoFloats_sortKeys (everywhere_untimed (fun _ => trivial) h)
  rw [payload_object, payload_object, hdigits.hasLong_eq_false, hdigits'.hasLong_eq_false]
  refine ⟨_, _, rfl, rfl, ?_⟩
  rw [compact_inj (hsorted hfloats) (hsorted hfloats')]
  exact sortKeys_eq_iff_same (hasDistinctKeys_untimed h) (hasDistinctKeys_untimed h')

/-- Another time and another order of keys leave the text as it is; a time below the top, the order
of an array and the kind of a value do not. -/
theorem payload_eq_iff_same_nested :
    let inner (n : Int) := object [("x", number (.integer 1)), ("timestamp", number n)]
    let members := [("b", inner 2), ("timestamp", string "now"), ("a", array [bool true, null])]
    let reordered := [("timestamp", null), ("a", array [bool true, null]),
      ("b", object [("timestamp", number (.integer 2)), ("x", number (.integer 1))])]
    let retimed := [("b", inner 4), ("a", array [bool true, null])]
    let turned := [("b", inner 2), ("a", array [null, bool true])]
    let recast := [("b", inner 2), ("a", array [number (.integer 1), null])]
    (∀ l ∈ [members, reordered, retimed, turned, recast], (object l).HasDistinctKeys) ∧
      ∃ text, payload (object members) = .ok text ∧ payload (object reordered) = .ok text ∧
        ∀ l ∈ [retimed, turned, recast],
          ∃ other, payload (object l) = .ok other ∧ text ≠ other := by
  intro inner members reordered retimed turned recast
  have hkeys : ∀ l ∈ [members, reordered, retimed, turned, recast],
      (object l).HasDistinctKeys := by
    simp [members, reordered, retimed, turned, recast, inner, HasDistinctKeys, KeysDistinct,
      -Prod.forall]
  have hfloats : ∀ l ∈ [members, reordered, retimed, turned, recast],
      (object l).HasNoFloats := by
    simp [members, reordered, retimed, turned, recast, inner, HasNoFloats, NotFloat,
      -Prod.forall]
  have hdigits : ∀ l ∈ [members, reordered, retimed, turned, recast],
      (object (untimed l)).HasFewDigits := by
    have hshort : isLong 1 = false ∧ isLong 2 = false ∧ isLong 4 = false := by decide
    intro l hl
    refine everywhere_untimed (fun _ => trivial) ?_
    revert l
    simp [members, reordered, retimed, turned, recast, inner, DigitsFew, hshort,
      -Prod.forall]
  have hmembers := hkeys members (by simp)
  have hreordered : (object (untimed members)).Same (object (untimed reordered)) := by
    refine .object fun key => ?_
    by_cases ha : "a" = key
    · subst ha
      simp [untimed, members, reordered, member?, timestampKey]
    by_cases hb : "b" = key
    · subst hb
      have hinner : (inner 2).Same
          (object [("timestamp", number (.integer 2)), ("x", number (.integer 1))]) := by
        refine .object fun key => ?_
        by_cases hx : "x" = key
        · subst hx
          simp [member?]
        by_cases ht : "timestamp" = key
        · subst ht
          simp [member?]
        simp [member?, hx, ht]
      simpa [untimed, members, reordered, member?, timestampKey] using hinner
    simp [untimed, members, reordered, member?, timestampKey, ha, hb]
  have hothers : ∀ l ∈ [retimed, turned, recast],
      ¬ (object (untimed members)).Same (object (untimed l)) := by
    intro l hl hsame
    have hvalues : ∀ key, Option.Rel Same (member? (untimed members) key)
        (member? (untimed l) key) := by simpa using hsame
    have ha := hvalues "a"
    have hb := hvalues "b"
    simp only [List.mem_cons, List.not_mem_nil, or_false] at hl
    rcases hl with rfl | rfl | rfl
    · have hinner : (inner 2).Same (inner 4) := by
        simpa [untimed, members, retimed, member?, timestampKey] using hb
      let inners (n : Int) := [("x", number (.integer 1)), ("timestamp", number n)]
      have htimes : ∀ key, Option.Rel Same (member? (inners 2) key) (member? (inners 4) key) := by
        simpa [inner, inners] using hinner
      have ht := htimes "timestamp"
      simp [member?, inners] at ht
    · simp [untimed, members, turned, member?, timestampKey] at ha
    · simp [untimed, members, recast, member?, timestampKey] at ha
  obtain ⟨text, text', htext, htext', hsame⟩ :=
    payload_eq_iff_same hmembers (hkeys reordered (by simp)) (hfloats members (by simp))
      (hfloats reordered (by simp)) (hdigits members (by simp)) (hdigits reordered (by simp))
  obtain rfl := hsame.mpr hreordered
  refine ⟨hkeys, text, htext, htext', fun l hl => ?_⟩
  have hmem : l ∈ [members, reordered, retimed, turned, recast] :=
    List.mem_cons_of_mem _ (List.mem_cons_of_mem _ hl)
  obtain ⟨text', other, htext', hother, hsame⟩ :=
    payload_eq_iff_same hmembers (hkeys l hmem) (hfloats members (by simp)) (hfloats l hmem)
      (hdigits members (by simp)) (hdigits l hmem)
  obtain rfl := Except.ok.inj (htext.symm.trans htext')
  exact ⟨other, hother, fun h => hothers l hl (hsame.mp h)⟩

/-- A document with an integer of one digit too many has no such text, so there is none that it
shares with itself. -/
theorem payload_eq_iff_same_tooLong :
    let members := [("n", number (.integer (10 ^ Text.maxDigits)))]
    (object members).HasDistinctKeys ∧ (object members).HasNoFloats ∧
      (object (untimed members)).Same (object (untimed members)) ∧
      payload (object members) = .error BadValue.longInteger := by
  intro members
  have huntimed : untimed members = members := rfl
  refine ⟨?_, ?_, ?_, ?_⟩
  · simp [members, HasDistinctKeys, KeysDistinct]
  · simp [members, HasNoFloats, NotFloat]
  · exact same_refl _
  · have hlong : (object members).hasLong := by
      rw [hasLong, hasLongMembers, hasLong, isLong_pow, Bool.true_or]
    rw [payload_object, huntimed, if_pos hlong]

end Image

end StackFront
