import Mathlib.Algebra.BigOperators.Group.List.Basic
import Mathlib.Algebra.GroupWithZero.Nat
import Mathlib.Data.List.Nodup
import Mathlib.Data.String.Basic
import StackFront.Analysis.Profile

/-!
# What a profile counts

A profile splits the operations of a program by category: its counts are positive and add up to the
number of operations. The dominant category is found in one pass over the categories in the order of
their names, in which a category has to occur more often than all before it to take the lead. Both
depend on the operations alone, whatever their order and however they are spread over methods.
-/
namespace StackFront.Program

variable {p q : Program} {c d : Category} {n : Nat}

/-! ## Counts -/

theorem mem_profile : (c, n) ∈ p.profile ↔ n = p.count c ∧ 0 < n := by
  simp only [profile, List.mem_filterMap, Category.mem_all, true_and]
  constructor
  · rintro ⟨d, hd⟩
    split at hd
    next => cases hd
    next hne =>
      cases hd
      exact ⟨rfl, Nat.pos_of_ne_zero hne⟩
  · rintro ⟨rfl, hpos⟩
    exact ⟨c, if_neg (Nat.ne_of_gt hpos)⟩

theorem nodup_profile (p : Program) : (p.profile.map Prod.fst).Nodup := by
  have hall : Category.all.Nodup := by decide
  refine hall.sublist ?_
  unfold profile
  induction Category.all with
  | nil => exact .slnil
  | cons c rest ih =>
    rw [List.filterMap_cons]
    split
    next => exact ih.cons c
    next hc =>
      split at hc
      next => cases hc
      next =>
        cases hc
        exact ih.cons_cons c

/-- Categories that do not occur add nothing. -/
theorem sum_profile_eq (p : Program) :
    (p.profile.map Prod.snd).sum = (Category.all.map p.count).sum := by
  unfold profile
  induction Category.all with
  | nil => rfl
  | cons c rest ih =>
    rw [List.filterMap_cons, List.map_cons, List.sum_cons]
    by_cases hc : p.count c = 0
    · simp only [hc, if_true, Nat.zero_add, ih]
    · simp only [hc, if_false, List.map_cons, List.sum_cons, ih]

/-- Every operation is of one category. -/
theorem sum_countP_category (ops : List Op) :
    (Category.all.map fun c => ops.countP fun op => op.category = c).sum = ops.length := by
  induction ops with
  | nil => decide
  | cons op ops ih =>
    have hone : (Category.all.map fun c => if op.category = c then 1 else 0).sum = 1 := by
      cases op.category <;> decide
    simp only [List.countP_cons, decide_eq_true_eq, List.sum_map_add, ih, hone, List.length_cons]

theorem sum_profile (p : Program) : (p.profile.map Prod.snd).sum = p.ops.length := by
  rw [sum_profile_eq]
  exact sum_countP_category p.ops

/-! ## The lead -/

/-- The category that takes the lead when one more category is looked at. -/
def lead (p : Program) (best : Option Category) (c : Category) : Option Category :=
  match best with
  | none => if p.count c = 0 then none else some c
  | some b => if p.count b < p.count c then some c else some b

theorem dominant_eq (p : Program) : p.dominant = alphabetical.foldl p.lead none := rfl

/-- After some categories, the one in the lead is the first of those that occur most often; there is
none if none of them occurs. -/
inductive LeadsOf (p : Program) (cs : List Category) : Option Category → Prop
  | none (h : ∀ c ∈ cs, p.count c = 0) : LeadsOf p cs none
  | some {b : Category} (hb : b ∈ cs) (hpos : 0 < p.count b)
      (hmax : ∀ c ∈ cs, p.count c ≤ p.count b)
      (hfirst : ∀ c ∈ cs, p.count c = p.count b → b.name ≤ c.name) : LeadsOf p cs (some b)

/-- One more category takes the lead only if it occurs more often. -/
theorem LeadsOf.step {cs : List Category} {best : Option Category} (h : p.LeadsOf cs best)
    (hc : ∀ b ∈ cs, b.name < c.name) : p.LeadsOf (cs ++ [c]) (p.lead best c) := by
  cases h with
  | none hzero =>
    by_cases hcount : p.count c = 0
    · rw [lead, if_pos hcount]
      exact .none (List.forall_mem_append.mpr ⟨hzero, by simpa using hcount⟩)
    · rw [lead, if_neg hcount]
      have hpos : 0 < p.count c := Nat.pos_of_ne_zero hcount
      refine .some (by simp) hpos ?_ ?_ <;>
        rw [List.forall_mem_append, List.forall_mem_singleton]
      · exact ⟨fun d hd => by rw [hzero d hd]; exact Nat.zero_le _, le_rfl⟩
      · refine ⟨fun d hd heq => ?_, fun _ => le_rfl⟩
        rw [hzero d hd] at heq
        exact absurd heq.symm hcount
  | @some b hb hpos hmax hfirst =>
    by_cases hcount : p.count b < p.count c
    · rw [lead, if_pos hcount]
      refine .some (by simp) (Nat.lt_trans hpos hcount) ?_ ?_ <;>
        rw [List.forall_mem_append, List.forall_mem_singleton]
      · exact ⟨fun d hd => Nat.le_of_lt (Nat.lt_of_le_of_lt (hmax d hd) hcount), le_rfl⟩
      · refine ⟨fun d hd heq => ?_, fun _ => le_rfl⟩
        exact absurd (hmax d hd) (by omega)
    · rw [lead, if_neg hcount]
      refine .some (List.mem_append_left _ hb) hpos ?_ ?_ <;>
        rw [List.forall_mem_append, List.forall_mem_singleton]
      · exact ⟨hmax, Nat.le_of_not_lt hcount⟩
      · exact ⟨hfirst, fun _ => le_of_lt (hc b hb)⟩

theorem LeadsOf.foldl {cs rest : List Category} {best : Option Category} (h : p.LeadsOf cs best)
    (hsorted : (cs ++ rest).Pairwise fun c d => c.name < d.name) :
    p.LeadsOf (cs ++ rest) (rest.foldl p.lead best) := by
  induction rest generalizing cs best with
  | nil => simpa using h
  | cons c rest ih =>
    have hc : ∀ b ∈ cs, b.name < c.name := fun b hb =>
      (List.pairwise_append.mp hsorted).2.2 b hb c (List.mem_cons_self ..)
    rw [List.append_cons] at hsorted ⊢
    exact ih (h.step hc) hsorted

theorem pairwise_alphabetical : alphabetical.Pairwise fun c d => c.name < d.name := by
  decide

theorem mem_alphabetical (c : Category) : c ∈ alphabetical := by
  cases c <;> decide

theorem leadsOf_dominant (p : Program) : p.LeadsOf alphabetical p.dominant := by
  have hstart : p.LeadsOf [] none := .none (by simp)
  exact hstart.foldl pairwise_alphabetical

/-- The category has the greatest count in the profile, and no other one of that count has a name
that comes before its own. -/
def IsFirstMaximum (p : Program) (c : Category) : Prop :=
  ∃ n, (c, n) ∈ p.profile ∧ ∀ d m, (d, m) ∈ p.profile → m ≤ n ∧ (m = n → c.name ≤ d.name)

theorem eq_of_name_eq (h : c.name = d.name) : c = d := by
  have hnodup : (alphabetical.map Category.name).Nodup := by decide
  exact List.inj_on_of_nodup_map hnodup (mem_alphabetical c) (mem_alphabetical d) h

theorem IsFirstMaximum.unique (hc : p.IsFirstMaximum c) (hd : p.IsFirstMaximum d) : c = d := by
  obtain ⟨n, hn, hcmax⟩ := hc
  obtain ⟨m, hm, hdmax⟩ := hd
  have hnm : n = m := Nat.le_antisymm (hdmax c n hn).1 (hcmax d m hm).1
  exact eq_of_name_eq (le_antisymm ((hcmax d m hm).2 hnm.symm) ((hdmax c n hn).2 hnm))

theorem isFirstMaximum_of_dominant (h : p.dominant = some c) : p.IsFirstMaximum c := by
  have hleads := p.leadsOf_dominant
  rw [h] at hleads
  cases hleads with
  | some _ hpos hmax hfirst =>
    refine ⟨p.count c, mem_profile.mpr ⟨rfl, hpos⟩, fun d m hd => ?_⟩
    obtain ⟨rfl, -⟩ := mem_profile.mp hd
    exact ⟨hmax d (mem_alphabetical d), hfirst d (mem_alphabetical d)⟩

theorem dominant_eq_none_iff : p.dominant = none ↔ p.ops = [] := by
  have hleads := p.leadsOf_dominant
  constructor
  · intro h
    rw [h] at hleads
    cases hleads with
    | none hzero =>
      -- An operation would count for its category.
      refine List.eq_nil_iff_forall_not_mem.mpr fun op hop => ?_
      have hcount := hzero op.category (mem_alphabetical _)
      rw [count, List.countP_eq_zero] at hcount
      exact hcount op hop (by simp)
  · intro hops
    have hzero : ∀ c, p.count c = 0 := fun c => by rw [count, hops]; rfl
    cases h : p.dominant with
    | none => rfl
    | some c =>
      rw [h] at hleads
      cases hleads with
      | some _ hpos _ _ => exact absurd (hzero c) (Nat.ne_of_gt hpos)

theorem dominant_eq_some_iff : p.dominant = some c ↔ p.IsFirstMaximum c := by
  refine ⟨isFirstMaximum_of_dominant, fun hc => ?_⟩
  cases h : p.dominant with
  | none =>
    obtain ⟨n, hn, -⟩ := hc
    obtain ⟨rfl, hpos⟩ := mem_profile.mp hn
    rw [count, dominant_eq_none_iff.mp h] at hpos
    exact absurd hpos (by simp)
  | some d => rw [(isFirstMaximum_of_dominant h).unique hc]

/-! ## Orders of operations -/

/-- The second program has the methods of the first one in another order, and the operations of each
of them in another order too. -/
def IsReordering (p q : Program) : Prop :=
  ∃ methods, p.methods.Perm methods ∧
    List.Forall₂ (fun m m' => m.ops.Perm m'.ops) methods q.methods

theorem perm_flatMap_ops {ms ms' : List Method}
    (h : List.Forall₂ (fun m m' => m.ops.Perm m'.ops) ms ms') :
    (ms.flatMap (·.ops)).Perm (ms'.flatMap (·.ops)) := by
  induction h with
  | nil => exact .refl _
  | cons hm _ ih =>
    rw [List.flatMap_cons, List.flatMap_cons]
    exact hm.append ih

theorem IsReordering.perm (h : p.IsReordering q) : p.ops.Perm q.ops := by
  obtain ⟨methods, hmethods, hops⟩ := h
  exact (hmethods.flatMap_right _).trans (perm_flatMap_ops hops)

theorem count_of_perm (h : p.ops.Perm q.ops) : q.count = p.count := by
  funext c
  exact (h.countP_eq _).symm

/-- A profile has a positive count for each category that occurs, which is the number of its
operations, and its counts add up to the number of operations. There is a dominant category unless
there are no operations; it is the first by name of those with the greatest count. Neither changes
with the order of methods and operations. -/
theorem profile_dominant (p : Program) :
    (∀ c n, (c, n) ∈ p.profile ↔ n = (p.ops.countP fun op => op.category = c) ∧ 0 < n) ∧
      (p.profile.map Prod.fst).Nodup ∧ (p.profile.map Prod.snd).sum = p.ops.length ∧
      (p.dominant = none ↔ p.ops = []) ∧ (∀ c, p.dominant = some c ↔ p.IsFirstMaximum c) ∧
      ∀ q, p.IsReordering q →
        (∀ c, q.profile.lookup c = p.profile.lookup c) ∧ q.dominant = p.dominant := by
  refine ⟨fun c n => mem_profile, p.nodup_profile, p.sum_profile, dominant_eq_none_iff,
    fun c => dominant_eq_some_iff, fun q hq => ?_⟩
  have hcount : q.count = p.count := count_of_perm hq.perm
  constructor
  · intro c
    rw [profile, profile, hcount]
  · have hlead : q.lead = p.lead := by
      funext best c
      simp only [lead, hcount]
    rw [dominant_eq, dominant_eq, hlead]

end StackFront.Program
