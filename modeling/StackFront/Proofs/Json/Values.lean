import Mathlib.Algebra.Group.Int.Defs
import Mathlib.Algebra.Group.Nat.Defs
import StackFront.Json.Printer

/-!
# What holds all through a value

A property holds everywhere in a value if it holds of the value and of all that stands inside it,
at any depth. Three such properties are what a text needs to give a value back: that no key stands
twice in an object, that no integer has more digits than are written, and that no number is a float.
-/
namespace StackFront.Json

/-- The property holds of a value and of every value inside it. -/
inductive Everywhere (p : Json → Prop) : Json → Prop where
  | null (h : p null) : Everywhere p null
  | bool {b : Bool} (h : p (bool b)) : Everywhere p (bool b)
  | number {n : Number} (h : p (number n)) : Everywhere p (number n)
  | string {s : String} (h : p (string s)) : Everywhere p (string s)
  | array {items : List Json} (h : p (array items)) (hitems : ∀ v ∈ items, Everywhere p v) :
    Everywhere p (array items)
  | object {members : List (String × Json)} (h : p (object members))
    (hmembers : ∀ m ∈ members, Everywhere p m.2) : Everywhere p (object members)

section Everywhere

variable {p : Json → Prop}

@[simp] theorem everywhere_null : Everywhere p null ↔ p null :=
  ⟨fun h => by cases h; assumption, .null⟩

@[simp] theorem everywhere_bool {b : Bool} : Everywhere p (bool b) ↔ p (bool b) :=
  ⟨fun h => by cases h; assumption, .bool⟩

@[simp] theorem everywhere_number {n : Number} : Everywhere p (number n) ↔ p (number n) :=
  ⟨fun h => by cases h; assumption, .number⟩

@[simp] theorem everywhere_string {s : String} : Everywhere p (string s) ↔ p (string s) :=
  ⟨fun h => by cases h; assumption, .string⟩

@[simp] theorem everywhere_array {items : List Json} :
    Everywhere p (array items) ↔ p (array items) ∧ ∀ v ∈ items, Everywhere p v :=
  ⟨fun h => by cases h; constructor <;> assumption, fun h => .array h.1 h.2⟩

@[simp] theorem everywhere_object {members : List (String × Json)} :
    Everywhere p (object members) ↔ p (object members) ∧ ∀ m ∈ members, Everywhere p m.2 :=
  ⟨fun h => by cases h; constructor <;> assumption, fun h => .object h.1 h.2⟩

/-- What holds of every value holds everywhere in each. Induction on this is induction on values. -/
theorem everywhere_of_forall (h : ∀ v, p v) : ∀ v, Everywhere p v
  | null => .null (h _)
  | bool _ => .bool (h _)
  | number _ => .number (h _)
  | string _ => .string (h _)
  | array items => .array (h _) fun v hv => by
    have := List.sizeOf_lt_of_mem hv
    exact everywhere_of_forall h v
  | object members => .object (h _) fun m hm => by
    have := List.sizeOf_lt_of_mem hm
    have : sizeOf m = 1 + sizeOf m.1 + sizeOf m.2 := by
      obtain ⟨key, v⟩ := m
      exact Prod.mk.sizeOf_spec key v
    exact everywhere_of_forall h m.2

theorem Everywhere.mono {q : Json → Prop} {v : Json} (h : v.Everywhere p)
    (hpq : ∀ v, p v → q v) : v.Everywhere q := by
  induction h with
  | null h => exact .null (hpq _ h)
  | bool h => exact .bool (hpq _ h)
  | number h => exact .number (hpq _ h)
  | string h => exact .string (hpq _ h)
  | array h _ ih => exact .array (hpq _ h) ih
  | object h _ ih => exact .object (hpq _ h) ih

end Everywhere

/-- The keys of an object, if the value is one, are distinct. -/
def KeysDistinct : Json → Prop
  | object members => (members.map Prod.fst).Nodup
  | _ => True

/-- An integer, if the value is one, has no more digits than are written. -/
def DigitsFew : Json → Prop
  | number (.integer n) => isLong n = false
  | _ => True

/-- The value is not a float. -/
def NotFloat : Json → Prop
  | number (.float _) => False
  | _ => True

/-- The value is not a number. -/
def NotNumber : Json → Prop
  | number _ => False
  | _ => True

/-- No key stands twice in any object. -/
def HasDistinctKeys (v : Json) : Prop :=
  v.Everywhere KeysDistinct

/-- No integer is too long to be written. -/
def HasFewDigits (v : Json) : Prop :=
  v.Everywhere DigitsFew

/-- All numbers are integers. -/
def HasNoFloats (v : Json) : Prop :=
  v.Everywhere NotFloat

/-- There is no number at all. -/
def HasNoNumbers (v : Json) : Prop :=
  v.Everywhere NotNumber

theorem HasNoNumbers.hasFewDigits {v : Json} (h : v.HasNoNumbers) : v.HasFewDigits :=
  h.mono fun v hv => by cases v <;> first | exact hv.elim | trivial

theorem HasNoNumbers.hasNoFloats {v : Json} (h : v.HasNoNumbers) : v.HasNoFloats :=
  h.mono fun v hv => by cases v <;> first | exact hv.elim | trivial

theorem hasNoNumbers_strings (texts : List String) : (array (texts.map .string)).HasNoNumbers :=
  .array trivial (List.forall_mem_map.mpr fun _ _ => .string trivial)

theorem HasNoFloats.exists_integer {n : Number} (h : (number n).HasNoFloats) :
    ∃ k, n = .integer k := by
  cases n with
  | integer k => exact ⟨k, rfl⟩
  | float x => exact (everywhere_number.mp h).elim

/-- The powers of ten are the least numbers of their lengths. -/
theorem length_toDigits_pow (k : Nat) : (Nat.toDigits 10 (10 ^ k)).length = k + 1 := by
  have hle : (Nat.toDigits 10 (10 ^ k)).length ≤ k + 1 :=
    (Nat.length_toDigits_le_iff (by decide) (Nat.succ_pos k)).mpr
      (Nat.pow_lt_pow_right (by decide) (Nat.lt_succ_self k))
  have hpos : 0 < (Nat.toDigits 10 (10 ^ k)).length :=
    List.length_pos_iff.mpr Nat.toDigits_ne_nil
  have hlt : ¬ (Nat.toDigits 10 (10 ^ k)).length ≤ k := by
    intro h
    rw [Nat.length_toDigits_le_iff (by decide) (by omega)] at h
    exact Nat.lt_irrefl _ h
  omega

theorem isLong_pow : isLong (10 ^ Text.maxDigits) = true := by
  have hten : Int.natAbs 10 = 10 := rfl
  rw [isLong, decide_eq_true_eq, Int.natAbs_pow, hten, length_toDigits_pow]
  exact Nat.lt_succ_self _

theorem hasLongItems_eq_any (items : List Json) : hasLongItems items = items.any hasLong := by
  induction items with
  | nil => rfl
  | cons v items ih => rw [hasLongItems, ih, List.any_cons]

theorem hasLongMembers_eq_any (members : List (String × Json)) :
    hasLongMembers members = members.any fun m => m.2.hasLong := by
  induction members with
  | nil => rfl
  | cons m members ih => rw [hasLongMembers, ih, List.any_cons]

theorem HasFewDigits.hasLong_eq_false {v : Json} (h : v.HasFewDigits) : v.hasLong = false := by
  induction h with
  | null | bool | string => simp only [hasLong]
  | @number n h =>
    cases n with
    | integer n => rwa [hasLong]
    | float x => simp only [hasLong]
  | @array items _ _ ih => simpa [hasLong, hasLongItems_eq_any] using ih
  | @object members _ _ ih => simpa [hasLong, hasLongMembers_eq_any] using ih

theorem isSome_writtenItems? {items : List Json} (depth : Nat) (mark : Char)
    (h : ∀ v ∈ items, (written? depth v).isSome = v.hasLong) :
    (writtenItems? mark depth items).isSome = items.any hasLong := by
  induction items generalizing mark with
  | nil => rfl
  | cons v items ih =>
    rw [List.forall_mem_cons] at h
    rw [List.any_cons, ← h.1, ← ih ',' h.2, writtenItems?.eq_def]
    simp only
    split
    next hpart => simp [hpart]
    next hpart => simp [hpart]
    next hnone => simp [hnone]

theorem isSome_writtenMembers? {members : List (String × Json)} (depth : Nat)
    (h : ∀ m ∈ members, (written? depth m.2).isSome = m.2.hasLong) :
    (writtenMembers? depth members).isSome = members.any fun m => m.2.hasLong := by
  induction members with
  | nil => rfl
  | cons m members ih =>
    rw [List.forall_mem_cons] at h
    rw [writtenMembers?, List.any_cons, ← h.1, ← ih h.2]
    cases written? depth m.2 <;> simp

/-- A value is written only in part if it holds an integer with too many digits. -/
theorem isSome_written? (depth : Nat) (v : Json) : (written? depth v).isSome = v.hasLong := by
  induction everywhere_of_forall (p := fun _ => True) (fun _ => trivial) v generalizing depth with
  | null | bool | string => simp [written?, hasLong]
  | @number n =>
    cases n with
    | integer n => cases hn : isLong n <;> simp [written?, hasLong, hn]
    | float x => simp [written?, hasLong]
  | array _ _ ih =>
    rw [written?, hasLong, hasLongItems_eq_any,
      isSome_writtenItems? _ _ fun v hv => ih v hv (depth + 1)]
  | object _ _ ih =>
    rw [written?, hasLong, hasLongMembers_eq_any, Option.isSome_map,
      isSome_writtenMembers? _ fun m hm => ih m hm (depth + 1)]

end StackFront.Json
