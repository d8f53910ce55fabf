import Mathlib.Data.List.Nodup
import StackFront.Graph
import StackFront.Json
import StackFront.Proofs.Path.NormalForm

/-!
# Looking up by key

Nodes, source texts and members of objects are kept in lists, in which the first entry of a key
counts. Where no two entries share their key, each of them is found under its own. Lists are also
sorted by key.
-/
namespace StackFront

theorem find?_key {α κ : Type} [DecidableEq κ] {key : α → κ} {l : List α} {a : α}
    (hnodup : (l.map key).Nodup) (ha : a ∈ l) : l.find? (fun x => key x = key a) = some a := by
  cases h : l.find? fun x => key x = key a with
  | none =>
    have hne := List.find?_eq_none.mp h a ha
    simp at hne
  | some b =>
    have hb := List.mem_of_find?_eq_some h
    have hkey : key b = key a := by simpa using List.find?_some h
    rw [List.inj_on_of_nodup_map hnodup hb ha hkey]

/-- Sorting by key puts no entry before one of a smaller key. -/
theorem pairwise_mergeSort_key {α κ : Type} [LT κ] [DecidableLT κ] [LE κ] [Std.IsLinearOrder κ]
    [Std.LawfulOrderLT κ] (key : α → κ) (l : List α) :
    (l.mergeSort fun a b => !(key b < key a)).Pairwise fun a b => ¬ key b < key a := by
  have hsorted : (l.mergeSort fun a b => !(key b < key a)).Pairwise fun a b =>
      (!decide (key b < key a)) = true := by
    refine List.pairwise_mergeSort (fun a b c hab hbc => ?_) (fun a b => ?_) l
    · simp only [Bool.not_eq_true', decide_eq_false_iff_not, Std.not_lt] at hab hbc ⊢
      exact Std.le_trans hab hbc
    · simp only [Bool.or_eq_true, Bool.not_eq_true', decide_eq_false_iff_not, Std.not_lt]
      exact Std.le_total
  simpa only [Bool.not_eq_true', decide_eq_false_iff_not] using hsorted

/-- The second list has entries in addition to those of the first one, no two under one key and each
under a key that had none. -/
def Supplements {α κ : Type} (key : α → κ) (l l' : List α) : Prop :=
  ∃ added, l' = l ++ added ∧ (added.map key).Nodup ∧ ∀ a ∈ added, key a ∉ l.map key

namespace Supplements

variable {α κ : Type} {key : α → κ} {l l' l'' : List α} {a : α}

theorem refl (key : α → κ) (l : List α) : Supplements key l l :=
  ⟨[], (List.append_nil l).symm, List.nodup_nil, by simp⟩

theorem append (h : key a ∉ l.map key) : Supplements key l (l ++ [a]) :=
  ⟨[a], rfl, List.nodup_singleton _, by simpa using h⟩

theorem trans (h : Supplements key l l') (h' : Supplements key l' l'') :
    Supplements key l l'' := by
  obtain ⟨added, rfl, hnodup, hnew⟩ := h
  obtain ⟨added', rfl, hnodup', hnew'⟩ := h'
  have hapart : ∀ a ∈ added', key a ∉ l.map key ∧ key a ∉ added.map key := by
    intro a ha
    rw [← not_or, ← List.mem_append, ← List.map_append]
    exact hnew' a ha
  refine ⟨added ++ added', List.append_assoc .., ?_, fun a ha => ?_⟩
  · rw [List.map_append]
    refine hnodup.append hnodup' fun k hk hk' => ?_
    obtain ⟨a, ha, rfl⟩ := List.mem_map.mp hk'
    exact (hapart a ha).2 hk
  · rcases List.mem_append.mp ha with ha | ha
    · exact hnew a ha
    · exact (hapart a ha).1

/-- An entry that is found is found again. -/
theorem find? (h : Supplements key l l') {p : α → Bool} (ha : l.find? p = some a) :
    l'.find? p = some a := by
  obtain ⟨added, rfl, -, -⟩ := h
  rw [List.find?_append, ha, Option.some_or]

end Supplements

namespace Graph

variable {g : Graph} {name : Name} {n : Node}

/-- Where no two nodes share their name, each is found under its own. -/
theorem find?_name (hnodup : g.names.Nodup) (hn : n ∈ g.nodes) : g.find? n.name = some n :=
  find?_key hnodup hn

theorem get?_name (hnodup : g.names.Nodup) (hn : n ∈ g.nodes) :
    g.get? n.name = some n.loaded := by
  rw [get?, find?_name hnodup hn, Option.map_some]

theorem exists_get? (hnodup : g.names.Nodup) (hname : name ∈ g.names) :
    ∃ loaded, g.get? name = some loaded := by
  obtain ⟨n, hn, rfl⟩ := List.mem_map.mp hname
  exact ⟨n.loaded, get?_name hnodup hn⟩

end Graph

namespace Json

variable {members : List (String × Json)} {key other : String} {value : Json}

@[simp] theorem member?_cons_self : member? ((key, value) :: members) key = some value := by
  simp [member?]

theorem member?_cons_of_ne (h : other ≠ key) :
    member? ((other, value) :: members) key = member? members key := by
  simp [member?, h]

/-- A key that stands in an object has a value. -/
theorem isSome_member? (h : key ∈ members.map Prod.fst) : (member? members key).isSome := by
  obtain ⟨m, hm, rfl⟩ := List.mem_map.mp h
  rw [member?, Option.isSome_map, List.find?_isSome]
  exact ⟨m, hm, by simp⟩

theorem member?_of_mem (hnodup : (members.map Prod.fst).Nodup) (h : (key, value) ∈ members) :
    member? members key = some value := by
  have hfind := find?_key hnodup h
  simp only [member?, hfind, Option.map_some]

end Json

namespace Sources

theorem read_add (sources : Sources) (spelled text : String) :
    (sources.add spelled text).store.read = (sources.store.provide spelled text).read := by
  funext name
  by_cases h : Path.canonical spelled none = name
  · simp [store, add, find?, Store.provide, h]
  · simp [store, add, find?, Store.provide, h, Ne.symm h]

/-- The latest text stands in front. -/
theorem ofSpelled_eq (spelled : List (String × String)) :
    ofSpelled spelled = (spelled.map fun s => (Path.canonical s.1 none, s.2)).reverse := by
  have fold : ∀ sources : Sources, spelled.foldl (fun sources s => sources.add s.1 s.2) sources =
      (spelled.map fun s => (Path.canonical s.1 none, s.2)).reverse ++ sources := by
    induction spelled with
    | nil => exact fun _ => rfl
    | cons s spelled ih =>
      intro sources
      rw [List.foldl_cons, ih, List.map_cons, List.reverse_cons, List.append_assoc, add]
      rfl
  rw [ofSpelled, fold, List.append_nil]

theorem ofSpelled_of_canonical {spelled : List (String × String)}
    (hcanonical : ∀ s ∈ spelled, Path.IsCanonical s.1) : ofSpelled spelled = spelled.reverse := by
  have hsame : ∀ s ∈ spelled, (Path.canonical s.1 none, s.2) = id s := by
    intro s hs
    rw [(hcanonical s hs).canonical_eq]
    rfl
  rw [ofSpelled_eq, List.map_congr_left hsame, List.map_id]

/-- In a table of different canonical names, each text is read under its name. -/
theorem read_ofSpelled {spelled : List (String × String)} {name : Name} {text : String}
    (hcanonical : ∀ s ∈ spelled, Path.IsCanonical s.1)
    (hnodup : (spelled.map Prod.fst).Nodup) (h : (name, text) ∈ spelled) :
    (ofSpelled spelled).store.read name = .ok text := by
  have hrev : (spelled.reverse.map Prod.fst).Nodup := by
    rwa [List.map_reverse, List.nodup_reverse]
  have hfind := find?_key hrev (List.mem_reverse.mpr h)
  simp only [store, ofSpelled_of_canonical hcanonical, find?, hfind, Option.map_some]

/-- Only the texts in a table of canonical names are read from it. -/
theorem mem_of_read_ofSpelled {spelled : List (String × String)} {name : Name} {text : String}
    (hcanonical : ∀ s ∈ spelled, Path.IsCanonical s.1)
    (h : (ofSpelled spelled).store.read name = .ok text) : (name, text) ∈ spelled := by
  simp only [store, ofSpelled_of_canonical hcanonical, find?] at h
  cases hfind : spelled.reverse.find? fun s => s.1 = name with
  | none => simp [hfind] at h
  | some s =>
    simp only [hfind, Option.map_some, Except.ok.injEq] at h
    have hname : s.1 = name := by simpa using List.find?_some hfind
    have hmem := List.mem_reverse.mp (List.mem_of_find?_eq_some hfind)
    rwa [← hname, ← h]

end Sources

end StackFront
