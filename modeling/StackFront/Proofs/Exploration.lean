import Mathlib.Logic.Relation
import StackFront.Proofs.Session.Loading

/-!
# Explorations

What a walk finds depends on the contents of names alone. `Explores` says so without sessions,
caches and serial numbers: one rule for each way in which the first pending name is dealt with.
An exploration has one outcome, finds only names that are reachable from the pending ones, each of
them once, and, unless it stops at a name that cannot be loaded, all of them.
-/
namespace StackFront

namespace Contents

/-- One program refers to another one. -/
def RefersTo (c : Contents) (m n : Name) : Prop :=
  ∃ p, c m = .ok p ∧ n ∈ p.successors m

/-- There is a chain of references from one name to another one. -/
def Reaches (c : Contents) : Name → Name → Prop :=
  Relation.ReflTransGen c.RefersTo

end Contents

/-- With the names in `visited` behind it and those in `pending` ahead of it, an exploration finds
the programs in `found`, in this order. It stops at a name that cannot be loaded or for want of
pending names. -/
inductive Explores (c : Contents) : (visited pending : List Name) →
    (found : List (Name × Program)) → (stop : Option (Name × Fault)) → Prop
  | done (visited : List Name) : Explores c visited [] [] none
  | drop {visited rest : List Name} {name : Name} {found : List (Name × Program)}
      {stop : Option (Name × Fault)} (hv : name ∈ visited)
      (h : Explores c visited rest found stop) : Explores c visited (name :: rest) found stop
  | fail {visited rest : List Name} {name : Name} {f : Fault} (hv : name ∉ visited)
      (hc : c name = .error f) : Explores c visited (name :: rest) [] (some (name, f))
  | find {visited rest : List Name} {name : Name} {p : Program}
      {found : List (Name × Program)} {stop : Option (Name × Fault)} (hv : name ∉ visited)
      (hc : c name = .ok p)
      (h : Explores c (name :: visited) (Walk.pendingAfter name p rest) found stop) :
      Explores c visited (name :: rest) ((name, p) :: found) stop

/-- What a program refers to is what its targets stand for. -/
theorem Program.exists_target {p : Program} {name n : Name} (h : n ∈ p.successors name) :
    ∃ target ∈ p.targets, n = Path.canonical target (some name) := by
  simp only [successors, linkNames, List.mem_append, List.mem_map] at h
  rcases h with ⟨target, ht, rfl⟩ | ⟨target, ht, rfl⟩
  · exact ⟨target, List.mem_append_left _ ht, rfl⟩
  · exact ⟨target, List.mem_append_right _ ht, rfl⟩

theorem Walk.mem_pendingAfter {name n : Name} {p : Program} {rest : List Name} :
    n ∈ pendingAfter name p rest ↔ n ∈ p.successors name ∨ n ∈ rest := by
  simp only [pendingAfter, List.mem_append, List.mem_reverse]

namespace Explores

variable {c c' : Contents} {visited pending : List Name} {found found' : List (Name × Program)}
  {stop stop' : Option (Name × Fault)} {root : Name}

theorem unique (h : Explores c visited pending found stop)
    (h' : Explores c visited pending found' stop') : found = found' ∧ stop = stop' := by
  induction h generalizing found' stop' with
  | done visited =>
    cases h'
    exact ⟨rfl, rfl⟩
  | drop hv _ ih =>
    cases h' with
    | drop _ h' => exact ih h'
    | fail hv' _ => exact absurd hv hv'
    | find hv' _ _ => exact absurd hv hv'
  | fail hv hc =>
    cases h' with
    | drop hv' _ => exact absurd hv' hv
    | fail _ hc' =>
      rw [hc] at hc'
      cases hc'
      exact ⟨rfl, rfl⟩
    | find _ hc' _ =>
      rw [hc] at hc'
      cases hc'
  | find hv hc _ ih =>
    cases h' with
    | drop hv' _ => exact absurd hv' hv
    | fail _ hc' =>
      rw [hc] at hc'
      cases hc'
    | find _ hc' h' =>
      rw [hc] at hc'
      cases hc'
      obtain ⟨rfl, rfl⟩ := ih h'
      exact ⟨rfl, rfl⟩

/-- Only the names that were tried matter for an exploration. -/
theorem congr (h : Explores c visited pending found stop)
    (hfound : ∀ q ∈ found, c' q.1 = .ok q.2) (hstop : ∀ q ∈ stop, c' q.1 = .error q.2) :
    Explores c' visited pending found stop := by
  induction h with
  | done visited => exact .done visited
  | drop hv _ ih => exact .drop hv (ih hfound hstop)
  | fail hv hc => exact .fail hv (hstop _ rfl)
  | find hv hc _ ih =>
    rw [List.forall_mem_cons] at hfound
    exact .find hv hfound.1 (ih hfound.2 hstop)

/-- What is found is what the names stand for. -/
theorem found_eq (h : Explores c visited pending found stop) : ∀ q ∈ found, c q.1 = .ok q.2 := by
  induction h with
  | done visited => simp
  | drop _ _ ih => exact ih
  | fail _ _ => simp
  | find _ hc _ ih => exact List.forall_mem_cons.mpr ⟨hc, ih⟩

/-- The name at which an exploration stops cannot be loaded. -/
theorem stop_eq (h : Explores c visited pending found stop) :
    ∀ q ∈ stop, c q.1 = .error q.2 := by
  induction h with
  | done visited => simp
  | drop _ _ ih => exact ih
  | fail _ hc =>
    rintro q ⟨⟩
    exact hc
  | find _ _ _ ih => exact ih

/-- A name that is reachable from what is pending after a visit was reachable before it. -/
theorem reaches_before {name n : Name} {p : Program} {rest : List Name} (hc : c name = .ok p)
    (h : ∃ m ∈ Walk.pendingAfter name p rest, c.Reaches m n) :
    ∃ m ∈ name :: rest, c.Reaches m n := by
  obtain ⟨m, hm, hr⟩ := h
  rcases Walk.mem_pendingAfter.mp hm with hm | hm
  · exact ⟨name, List.mem_cons_self .., .head ⟨p, hc, hm⟩ hr⟩
  · exact ⟨m, List.mem_cons_of_mem _ hm, hr⟩

/-- Everything found is reachable from a pending name. -/
theorem found_reached (h : Explores c visited pending found stop) :
    ∀ q ∈ found, ∃ m ∈ pending, c.Reaches m q.1 := by
  induction h with
  | done visited => simp
  | drop _ _ ih =>
    intro q hq
    obtain ⟨m, hm, hr⟩ := ih q hq
    exact ⟨m, List.mem_cons_of_mem _ hm, hr⟩
  | fail _ _ => simp
  | find _ hc _ ih =>
    intro q hq
    rcases List.mem_cons.mp hq with rfl | hq
    · exact ⟨_, List.mem_cons_self .., .refl⟩
    · exact reaches_before hc (ih q hq)

/-- So is the name at which an exploration stops. -/
theorem stop_reached (h : Explores c visited pending found stop) :
    ∀ q ∈ stop, ∃ m ∈ pending, c.Reaches m q.1 := by
  induction h with
  | done visited => simp
  | drop _ _ ih =>
    intro q hq
    obtain ⟨m, hm, hr⟩ := ih q hq
    exact ⟨m, List.mem_cons_of_mem _ hm, hr⟩
  | fail _ _ =>
    rintro q ⟨⟩
    exact ⟨_, List.mem_cons_self .., .refl⟩
  | find _ hc _ ih => exact fun q hq => reaches_before hc (ih q hq)

/-- No name that was visited before is found again. -/
theorem found_new (h : Explores c visited pending found stop) :
    ∀ q ∈ found, q.1 ∉ visited := by
  induction h with
  | done visited => simp
  | drop _ _ ih => exact ih
  | fail _ _ => simp
  | find hv _ _ ih =>
    refine List.forall_mem_cons.mpr ⟨hv, fun q hq => ?_⟩
    exact fun hmem => ih q hq (List.mem_cons_of_mem _ hmem)

theorem found_nodup (h : Explores c visited pending found stop) :
    (found.map Prod.fst).Nodup := by
  induction h with
  | done visited => simp
  | drop _ _ ih => exact ih
  | fail _ _ => simp
  | find _ _ h ih =>
    refine List.nodup_cons.mpr ⟨fun hmem => ?_, ih⟩
    obtain ⟨q, hq, hname⟩ := List.mem_map.mp hmem
    exact h.found_new q hq (hname ▸ List.mem_cons_self ..)

/-- From canonical names only canonical ones are found. -/
theorem found_canonical (h : Explores c visited pending found stop)
    (hpending : ∀ n ∈ pending, Path.IsCanonical n) : ∀ q ∈ found, Path.IsCanonical q.1 := by
  induction h with
  | done visited => simp
  | drop _ _ ih => exact ih (List.forall_mem_cons.mp hpending).2
  | fail _ _ => simp
  | find _ _ _ ih =>
    rw [List.forall_mem_cons] at hpending
    exact List.forall_mem_cons.mpr ⟨hpending.1, ih (Walk.pendingAfter_canonical hpending.2)⟩

/-- An exploration that is not stopped leaves nothing out: it comes to every pending name and to
every name that a found program refers to. -/
theorem found_closed (h : Explores c visited pending found stop) (hstop : stop = none) :
    (∀ n ∈ pending, n ∈ visited ∨ n ∈ found.map Prod.fst) ∧
      ∀ q ∈ found, ∀ n ∈ q.2.successors q.1, n ∈ visited ∨ n ∈ found.map Prod.fst := by
  induction h with
  | done visited => simp
  | drop hv _ ih => exact ⟨List.forall_mem_cons.mpr ⟨.inl hv, (ih hstop).1⟩, (ih hstop).2⟩
  | fail _ _ => cases hstop
  | @find visited rest name p found stop hv hc _ ih =>
    obtain ⟨hpending, hfound⟩ := ih hstop
    -- the visited name is the first one found
    have shift : ∀ n, n ∈ name :: visited ∨ n ∈ found.map Prod.fst →
        n ∈ visited ∨ n ∈ ((name, p) :: found).map Prod.fst := by
      intro n hn
      simp only [List.mem_cons, List.map_cons] at hn ⊢
      rcases hn with (rfl | hn) | hn
      · exact .inr (.inl rfl)
      · exact .inl hn
      · exact .inr (.inr hn)
    have hafter : ∀ n ∈ Walk.pendingAfter name p rest,
        n ∈ visited ∨ n ∈ ((name, p) :: found).map Prod.fst :=
      fun n hn => shift n (hpending n hn)
    refine ⟨List.forall_mem_cons.mpr ⟨.inr (List.mem_cons_self ..), fun n hn => ?_⟩,
      List.forall_mem_cons.mpr ⟨fun n hn => ?_, fun q hq n hn => shift n (hfound q hq n hn)⟩⟩
    · exact hafter n (Walk.mem_pendingAfter.mpr (.inr hn))
    · exact hafter n (Walk.mem_pendingAfter.mpr (.inl hn))

/-- From a single root, exactly the reachable names are found. -/
theorem mem_found_iff (h : Explores c [] [root] found none) (n : Name) :
    n ∈ found.map Prod.fst ↔ c.Reaches root n := by
  constructor
  · intro hn
    obtain ⟨q, hq, rfl⟩ := List.mem_map.mp hn
    obtain ⟨m, hm, hr⟩ := h.found_reached q hq
    rw [List.mem_singleton.mp hm] at hr
    exact hr
  · intro hr
    obtain ⟨hpending, hfound⟩ := h.found_closed rfl
    simp only [List.not_mem_nil, false_or] at hpending hfound
    -- along a chain of references: each name on it is found and refers to the next one
    induction hr with
    | refl => exact hpending root (List.mem_singleton_self _)
    | tail _ href ih =>
      obtain ⟨q, hq, hname⟩ := List.mem_map.mp ih
      obtain ⟨p, hp, hmem⟩ := href
      subst hname
      rw [h.found_eq q hq] at hp
      cases hp
      exact hfound q hq _ hmem

end Explores

end StackFront
