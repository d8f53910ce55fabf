import Mathlib.Data.Finset.Max
import Mathlib.Data.List.Cycle
import Mathlib.Data.String.Basic
import Mathlib.Logic.Relation
import StackFront.Link

/-!
# Elementary cycles

An elementary cycle is a cyclic list of different names, each of which is related to the next one.
Of the lists that it can be written as, one begins with the smallest name. A relation has such a
cycle if and only if some name is related to itself in some number of steps: a closed walk that
comes to a name twice can be cut short.
-/
namespace StackFront

/-- Different names, each related to the next one and the last one to the first. -/
structure IsElementary (r : Name → Name → Prop) (z : Cycle Name) : Prop where
  ne_nil : z ≠ Cycle.nil
  nodup : z.Nodup
  chain : z.Chain r

/-- A list that begins with its smallest name. -/
def BeginsLeast (c : List Name) : Prop :=
  ∀ first ∈ c.head?, ∀ n ∈ c, first ≤ n

/-- The same cycle from its smallest name on. -/
def fromSmallest (c : List Name) : List Name :=
  c.rotate (c.findIdx fun n => c.all fun m => !(m < n))

variable {r : Name → Name → Prop} {a n : Name} {c c' l l' : List Name}

theorem isElementary_coe_cons : IsElementary r (a :: l : List Name) ↔
    (a :: l).Nodup ∧ (a :: (l ++ [a])).IsChain r := by
  constructor
  · intro h
    exact ⟨h.nodup, (Cycle.chain_coe_cons r a l).mp h.chain⟩
  · rintro ⟨hnodup, hchain⟩
    refine ⟨?_, hnodup, (Cycle.chain_coe_cons r a l).mpr hchain⟩
    rw [ne_eq, Cycle.coe_eq_nil]
    exact List.cons_ne_nil a l

/-- Each name on a cycle is related to some name. -/
theorem IsElementary.exists_rel (h : IsElementary r (c : Cycle Name)) (hn : n ∈ c) :
    ∃ m, r n m := by
  cases c with
  | nil => cases hn
  | cons a l =>
    have hchain := (isElementary_coe_cons.mp h).2
    obtain ⟨front, back, hsplit⟩ := List.append_of_mem hn
    obtain ⟨m, rest, hm⟩ : ∃ m rest, back ++ [a] = m :: rest :=
      List.exists_cons_of_ne_nil (by simp)
    rw [← List.cons_append, hsplit, List.append_assoc, List.cons_append, hm] at hchain
    exact ⟨m, (List.isChain_append_cons_cons.mp hchain).2.1⟩

theorem beginsLeast_cons : BeginsLeast (a :: l) ↔ ∀ n ∈ l, a ≤ n := by
  constructor
  · exact fun h n hn => h a rfl n (List.mem_cons_of_mem a hn)
  · intro h first hfirst
    cases hfirst
    exact List.forall_mem_cons.mpr ⟨le_rfl, h⟩

section Rotations

theorem isRotated_fromSmallest (c : List Name) : c ~r fromSmallest c :=
  ⟨_, rfl⟩

theorem coe_fromSmallest (c : List Name) : (fromSmallest c : Cycle Name) = c :=
  Cycle.coe_eq_coe.mpr (isRotated_fromSmallest c).symm

theorem beginsLeast_fromSmallest (c : List Name) : BeginsLeast (fromSmallest c) := by
  intro first hfirst n hn
  rw [← (isRotated_fromSmallest c).mem_iff] at hn
  obtain ⟨least, hleast, hle⟩ :=
    c.toFinset.exists_min_image id ⟨n, List.mem_toFinset.mpr hn⟩
  have hlt : c.findIdx (fun n => c.all fun m => !(m < n)) < c.length := by
    apply List.findIdx_lt_length.mpr
    refine ⟨least, List.mem_toFinset.mp hleast, ?_⟩
    rw [List.all_eq_true]
    intro m hm
    rw [Bool.not_eq_true', decide_eq_false_iff_not, not_lt]
    exact hle m (List.mem_toFinset.mpr hm)
  rw [fromSmallest, List.head?_rotate hlt, List.getElem?_eq_getElem hlt, Option.mem_def,
    Option.some.injEq] at hfirst
  have hall := List.findIdx_getElem (w := hlt)
  rw [hfirst, List.all_eq_true] at hall
  have hnot := hall n hn
  rwa [Bool.not_eq_true', decide_eq_false_iff_not, not_lt] at hnot

/-- A cycle begins with its smallest name in one way only. -/
theorem BeginsLeast.eq_of_isRotated (h : BeginsLeast l) (h' : BeginsLeast l') (hnodup : l.Nodup)
    (hrotated : l ~r l') : l = l' := by
  obtain ⟨k, hk, rfl⟩ := List.isRotated_iff_mod.mp hrotated
  rcases hk.eq_or_lt with rfl | hlt
  · exact (List.rotate_length l).symm
  · have hpos : 0 < l.length := by omega
    have hhead : l.head? = some l[0] := by
      rw [List.head?_eq_getElem?, List.getElem?_eq_getElem hpos]
    have hhead' : (l.rotate k).head? = some l[k] := by
      rw [List.head?_rotate hlt, List.getElem?_eq_getElem hlt]
    have hsame : l[0] = l[k] := by
      apply le_antisymm
      · exact h _ hhead _ (List.getElem_mem hlt)
      · exact h' _ hhead' _ (hrotated.mem_iff.mp (List.getElem_mem hpos))
    rw [← (hnodup.getElem_inj_iff).mp hsame, List.rotate_zero]

/-- A cycle is turned to just the list that begins with its smallest name. -/
theorem fromSmallest_eq (h : BeginsLeast c') (hnodup : c'.Nodup)
    (hsame : (c : Cycle Name) = (c' : Cycle Name)) : fromSmallest c = c' := by
  rw [← coe_fromSmallest c] at hsame
  exact (h.eq_of_isRotated (beginsLeast_fromSmallest c) hnodup
    (Cycle.coe_eq_coe.mp hsame.symm)).symm

end Rotations

section Walks

theorem exists_split_of_not_nodup {α : Type} {l : List α} (h : ¬ l.Nodup) :
    ∃ x front middle back, l = front ++ x :: (middle ++ x :: back) := by
  induction l with
  | nil => exact absurd List.nodup_nil h
  | cons a l ih =>
    by_cases ha : a ∈ l
    · obtain ⟨middle, back, rfl⟩ := List.append_of_mem ha
      exact ⟨a, [], middle, back, rfl⟩
    · obtain ⟨x, front, middle, back, rfl⟩ := ih fun hl => h (List.nodup_cons.mpr ⟨ha, hl⟩)
      exact ⟨x, a :: front, middle, back, rfl⟩

/-- A closed walk passes an elementary cycle. -/
theorem exists_isElementary_of_isChain (h : (a :: (l ++ [a])).IsChain r) :
    ∃ z, IsElementary r z := by
  induction hlength : l.length using Nat.strongRecOn generalizing a l with
  | ind k ih =>
    by_cases hnodup : (a :: l).Nodup
    · exact ⟨_, isElementary_coe_cons.mpr ⟨hnodup, h⟩⟩
    · -- between two visits of one name the walk is closed and shorter
      obtain ⟨x, front, middle, back, hsplit⟩ := exists_split_of_not_nodup hnodup
      have hinner : (x :: (middle ++ [x])).IsChain r := by
        refine h.infix ⟨front, back ++ [a], ?_⟩
        calc front ++ x :: (middle ++ [x]) ++ (back ++ [a])
            = (front ++ x :: (middle ++ x :: back)) ++ [a] := by simp
          _ = a :: (l ++ [a]) := by rw [← hsplit, List.cons_append]
      have hshorter := congrArg List.length hsplit
      simp only [List.length_append, List.length_cons] at hshorter
      exact ih middle.length (by omega) hinner rfl

/-- A name from which one comes back to it lies on a closed walk. -/
theorem exists_isChain_of_transGen (h : Relation.TransGen r n n) :
    ∃ l, (n :: (l ++ [n])).IsChain r := by
  obtain ⟨last, hlast, hclose⟩ := Relation.TransGen.tail'_iff.mp h
  obtain ⟨l, hchain, rfl⟩ := List.exists_isChain_cons_of_relationReflTransGen hlast
  refine ⟨l, ?_⟩
  rw [← List.cons_append, List.isChain_append]
  refine ⟨hchain, List.isChain_singleton n, fun x hx y hy => ?_⟩
  rw [List.getLast?_eq_some_getLast (List.cons_ne_nil n l), Option.mem_some_iff] at hx
  cases hy
  rwa [← hx]

theorem transGen_of_isChain (h : (a :: (l ++ [a])).IsChain r) : Relation.TransGen r a a := by
  cases l with
  | nil => exact .single (List.isChain_pair.mp h)
  | cons b l =>
    obtain ⟨hfirst, hrest⟩ := List.isChain_cons_cons.mp h
    exact .head' hfirst
      (List.relationReflTransGen_of_exists_isChain_cons (l ++ [a]) hrest (by simp))

/-- There is an elementary cycle if and only if some name is related to itself in some steps. -/
theorem exists_isElementary_iff : (∃ z, IsElementary r z) ↔ ∃ n, Relation.TransGen r n n := by
  constructor
  · rintro ⟨z, hz⟩
    induction z using Quotient.inductionOn with
    | h l =>
      cases l with
      | nil => exact absurd rfl hz.ne_nil
      | cons a l => exact ⟨a, transGen_of_isChain (isElementary_coe_cons.mp hz).2⟩
  · rintro ⟨n, hn⟩
    obtain ⟨l, hl⟩ := exists_isChain_of_transGen hn
    exact exists_isElementary_of_isChain hl

end Walks

end StackFront
