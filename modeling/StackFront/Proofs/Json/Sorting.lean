import StackFront.Image
import StackFront.Proofs.Json.Values
import StackFront.Proofs.Lookup

/-!
# Sorted members

Sorting puts the members of each object in the order of their keys. Where no key stands twice, what
is left of an object is what can be looked up in it: two objects are the same when sorted if and
only if they have the same sorted values under the same keys.
-/
namespace StackFront

namespace Json

variable {members : List (String × Json)} {key : String} {value : Json}

theorem mem_of_member? (h : member? members key = some value) : (key, value) ∈ members := by
  rw [member?, Option.map_eq_some_iff] at h
  obtain ⟨m, hm, rfl⟩ := h
  have hkey : m.1 = key := by simpa using List.find?_some hm
  rw [← hkey]
  exact List.mem_of_find?_eq_some hm

/-- Where no key stands twice, looking up finds just the members. -/
theorem member?_eq_some_iff (hnodup : (members.map Prod.fst).Nodup) :
    member? members key = some value ↔ (key, value) ∈ members :=
  ⟨mem_of_member?, member?_of_mem hnodup⟩

end Json

namespace Image

variable {members members' : List (String × Json)} {key : String}

theorem sortEach_eq (members : List (String × Json)) :
    sortEach members = members.map fun m => (m.1, sortKeys m.2) := by
  induction members with
  | nil => rw [sortEach, List.map_nil]
  | cons m members ih =>
    obtain ⟨key, v⟩ := m
    rw [sortEach, ih, List.map_cons]

theorem sortItems_eq (items : List Json) : sortItems items = items.map sortKeys := by
  induction items with
  | nil => rw [sortItems, List.map_nil]
  | cons v items ih => rw [sortItems, ih, List.map_cons]

/-- Texts are not sorted. -/
theorem sortKeys_strings (texts : List String) :
    sortKeys (.array (texts.map .string)) = .array (texts.map .string) := by
  rw [sortKeys, sortItems_eq, List.map_map]
  rfl

theorem fst_sortEach (members : List (String × Json)) :
    (sortEach members).map Prod.fst = members.map Prod.fst := by
  rw [sortEach_eq, List.map_map]
  rfl

/-- The members of an object, sorted, with sorted values. -/
def sorted (members : List (String × Json)) : List (String × Json) :=
  sortMembers (sortEach members)

theorem sorted_perm (members : List (String × Json)) :
    (sorted members).Perm (sortEach members) :=
  List.mergeSort_perm ..

theorem nodup_sorted (hnodup : (members.map Prod.fst).Nodup) :
    ((sorted members).map Prod.fst).Nodup := by
  rwa [((sorted_perm members).map Prod.fst).nodup_iff, fst_sortEach]

/-- Sorting keeps what holds everywhere, if it is kept for each value alone. -/
theorem everywhere_sortKeys {p : Json → Prop} (hp : ∀ v, p v → p (sortKeys v)) {v : Json}
    (h : v.Everywhere p) : (sortKeys v).Everywhere p := by
  induction h with
  | null h | bool h | number h | string h => simpa [sortKeys] using h
  | @array items h _ ih =>
    have harray := hp _ h
    rw [sortKeys, sortItems_eq] at harray ⊢
    exact .array harray (List.forall_mem_map.mpr ih)
  | @object members h _ ih =>
    have hobject := hp _ h
    rw [sortKeys] at hobject ⊢
    refine .object hobject fun m hm => ?_
    rw [← sorted, (sorted_perm members).mem_iff, sortEach_eq] at hm
    obtain ⟨m, hmem, rfl⟩ := List.mem_map.mp hm
    exact ih m hmem

theorem hasNoFloats_sortKeys {v : Json} (h : v.HasNoFloats) : (sortKeys v).HasNoFloats :=
  everywhere_sortKeys (fun v hv => by cases v <;> simp_all [sortKeys, Json.NotFloat]) h

theorem any_congr {α : Type} {l : List α} {p q : α → Bool} (h : ∀ a ∈ l, p a = q a) :
    l.any p = l.any q := by
  rw [Bool.eq_iff_iff, List.any_eq_true, List.any_eq_true]
  exact exists_congr fun a => and_congr_right fun ha => by rw [h a ha]

/-- Sorting neither adds nor takes away integers. -/
theorem hasLong_sortKeys (v : Json) : (sortKeys v).hasLong = v.hasLong := by
  induction Json.everywhere_of_forall (p := fun _ => True) (fun _ => trivial) v with
  | null | bool | number | string => rw [sortKeys] <;> simp
  | @array items _ _ ih =>
    rw [sortKeys, sortItems_eq, Json.hasLong, Json.hasLong, Json.hasLongItems_eq_any,
      Json.hasLongItems_eq_any, List.any_map]
    exact any_congr ih
  | @object members _ _ ih =>
    rw [sortKeys, ← sorted, Json.hasLong, Json.hasLong, Json.hasLongMembers_eq_any,
      Json.hasLongMembers_eq_any, (sorted_perm members).any_eq, sortEach_eq, List.any_map]
    exact any_congr ih

/-- Sorting keeps what can be looked up. -/
theorem member?_sorted (hnodup : (members.map Prod.fst).Nodup) (key : String) :
    Json.member? (sorted members) key = (Json.member? members key).map sortKeys := by
  apply Option.ext
  intro value
  rw [Json.member?_eq_some_iff (nodup_sorted hnodup), (sorted_perm members).mem_iff, sortEach_eq,
    List.mem_map, Option.map_eq_some_iff]
  simp only [Json.member?_eq_some_iff hnodup, Prod.mk.injEq, Prod.exists]
  constructor
  · rintro ⟨k, v, hmem, rfl, rfl⟩
    exact ⟨v, hmem, rfl⟩
  · rintro ⟨v, hmem, rfl⟩
    exact ⟨key, v, hmem, rfl, rfl⟩

/-- The order of sorted members. -/
theorem pairwise_sortMembers (members : List (String × Json)) :
    (sortMembers members).Pairwise fun m n => ¬ n.1 < m.1 :=
  pairwise_mergeSort_key Prod.fst members

/-- Members of distinct keys are sorted in one way only. -/
theorem sortMembers_congr (hnodup : (members.map Prod.fst).Nodup) (h : members.Perm members') :
    sortMembers members = sortMembers members' := by
  have hperm : (sortMembers members).Perm (sortMembers members') :=
    ((List.mergeSort_perm ..).trans h).trans (List.mergeSort_perm ..).symm
  refine hperm.eq_of_pairwise (fun m n hm hn hmn hnm => ?_) (pairwise_sortMembers members)
    (pairwise_sortMembers members')
  rw [String.not_lt] at hmn hnm
  have hm' : m ∈ members := (List.mergeSort_perm ..).mem_iff.mp hm
  have hn' : n ∈ members := h.mem_iff.mpr ((List.mergeSort_perm ..).mem_iff.mp hn)
  exact List.inj_on_of_nodup_map hnodup hm' hn' (String.le_antisymm hmn hnm)

/-- Two objects are the same when sorted if and only if the same sorted values can be looked up in
them. -/
theorem sorted_eq_iff (hnodup : (members.map Prod.fst).Nodup)
    (hnodup' : (members'.map Prod.fst).Nodup) :
    sorted members = sorted members' ↔
      ∀ key, (Json.member? members key).map sortKeys =
        (Json.member? members' key).map sortKeys := by
  constructor
  · intro h key
    rw [← member?_sorted hnodup, ← member?_sorted hnodup', h]
  · intro h
    have hkeys : ∀ {l : List (String × Json)}, (l.map Prod.fst).Nodup →
        ((sortEach l).map Prod.fst).Nodup := fun hl => by rwa [fst_sortEach]
    apply sortMembers_congr (hkeys hnodup)
    rw [List.perm_ext_iff_of_nodup (hkeys hnodup).of_map (hkeys hnodup').of_map]
    intro m
    rw [← (sorted_perm members).mem_iff, ← (sorted_perm members').mem_iff,
      ← Json.member?_eq_some_iff (nodup_sorted hnodup),
      ← Json.member?_eq_some_iff (nodup_sorted hnodup'), member?_sorted hnodup,
      member?_sorted hnodup', h]

end Image

end StackFront
