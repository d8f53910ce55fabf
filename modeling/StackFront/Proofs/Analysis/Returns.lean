import Mathlib.Data.List.Chain
import Mathlib.Data.String.Basic
import StackFront.Analysis.Cycles

/-!
# Ways back

The search for ways back to a name passes each spoke at most once. It looks only at spokes that lead
back, but this leaves out no way: all that is passed on a way back leads back. The ways come in
increasing order since the spokes to go on to are taken in the order of their names.
-/
namespace StackFront.Spoke

variable {start : Name} {latest : List Name} {spokes spokes' through through' : List Spoke}
  {s current next : Spoke} {way : List Name} {rounds fuel : Nat}

section Leading

theorem refersToAny_iff : s.refersToAny latest = true ↔ ∃ target ∈ s.targets, target ∈ latest := by
  simp [refersToAny]

/-- A spoke leads to one of some names, perhaps through others. -/
inductive Leads (latest : List Name) (spokes : List Spoke) : Spoke → Prop
  | here {s : Spoke} (h : s.refersToAny latest) : Leads latest spokes s
  | step {s next : Spoke} (hnext : next ∈ spokes) (hmem : next.name ∈ s.targets)
    (h : Leads latest spokes next) : Leads latest spokes s

theorem Leads.mono (h : Leads latest spokes s) (hsub : spokes ⊆ spokes') :
    Leads latest spokes' s := by
  induction h with
  | here h => exact .here h
  | step hnext hmem _ ih => exact .step (hsub hnext) hmem ih

/-- What leads somewhere through others leads to some that refer there at once. -/
theorem Leads.exists_refersToAny (h : Leads latest spokes s) (hs : s ∈ spokes) :
    ∃ t ∈ spokes, t.refersToAny latest := by
  induction h with
  | here h => exact ⟨_, hs, h⟩
  | step hnext _ _ ih => exact ih hnext

/-- A spoke that does not refer to the latest names leads to those that do. -/
theorem Leads.beyond (h : Leads latest spokes s) (hs : s.refersToAny latest = false) :
    Leads ((spokes.filter fun s => s.refersToAny latest).map (·.name))
      (spokes.filter fun s => !s.refersToAny latest) s := by
  induction h with
  | here h => simp [h] at hs
  | @step s next hnext hmem _ ih =>
    cases hrefers : next.refersToAny latest with
    | true =>
      refine .here (refersToAny_iff.mpr ⟨next.name, hmem, List.mem_map_of_mem ?_⟩)
      exact List.mem_filter.mpr ⟨hnext, hrefers⟩
    | false => exact .step (List.mem_filter.mpr ⟨hnext, by simp [hrefers]⟩) hmem (ih hrefers)

/-- All spokes that lead to the latest names are found, as long as there is a round for each
spoke. -/
theorem mem_leadingTo (hrounds : spokes.length ≤ rounds) (hs : s ∈ spokes)
    (h : Leads latest spokes s) : s.name ∈ leadingTo rounds latest spokes := by
  induction rounds generalizing latest spokes with
  | zero =>
    rw [List.length_eq_zero_iff.mp (Nat.le_zero.mp hrounds)] at hs
    cases hs
  | succ rounds ih =>
    obtain ⟨t, ht, hrefers⟩ := h.exists_refersToAny hs
    have hne : (spokes.filter fun s => s.refersToAny latest).map (·.name) ≠ [] :=
      List.ne_nil_of_mem (List.mem_map_of_mem (List.mem_filter.mpr ⟨ht, hrefers⟩))
    have hfewer : (spokes.filter fun s => !s.refersToAny latest).length < spokes.length :=
      List.length_filter_lt_length_iff_exists.mpr ⟨t, ht, by simp [hrefers]⟩
    rw [leadingTo, if_neg hne, List.mem_append]
    cases hfound : s.refersToAny latest with
    | true => exact .inl (List.mem_map_of_mem (List.mem_filter.mpr ⟨hs, hfound⟩))
    | false =>
      exact .inr (ih (by omega) (List.mem_filter.mpr ⟨hs, by simp [hfound]⟩) (h.beyond hfound))

theorem mem_leadingBack (hs : s ∈ spokes) (h : Leads [start] spokes s) :
    s ∈ leadingBack start spokes :=
  List.mem_filter.mpr ⟨hs, by simpa using mem_leadingTo le_rfl hs h⟩

theorem leadingBack_sublist (start : Name) (spokes : List Spoke) :
    (leadingBack start spokes).Sublist spokes :=
  List.filter_sublist

end Leading

/-- A way from a spoke back to a name that passes others at most once. -/
inductive IsReturn (start : Name) : (through : List Spoke) → (current : Spoke) →
    (way : List Name) → Prop
  | close {through : List Spoke} {current : Spoke} (h : start ∈ current.targets) :
    IsReturn start through current [current.name]
  | go {through : List Spoke} {current next : Spoke} {way : List Name} (hnext : next ∈ through)
    (hmem : next.name ∈ current.targets)
    (h : IsReturn start (through.filter fun s => s.name ≠ next.name) next way) :
    IsReturn start through current (current.name :: way)

namespace IsReturn

/-- Each way begins with the name from where it leads back. -/
theorem exists_cons (h : IsReturn start through current way) :
    ∃ rest, way = current.name :: rest := by
  cases h with
  | close => exact ⟨_, rfl⟩
  | go => exact ⟨_, rfl⟩

theorem leads (h : IsReturn start through current way) : Leads [start] through current := by
  induction h with
  | close h => exact .here (refersToAny_iff.mpr ⟨_, h, List.mem_singleton_self _⟩)
  | go hnext hmem _ ih => exact .step hnext hmem (ih.mono (List.filter_subset_self _))

/-- On a way back only spokes that lead back are passed. -/
theorem restrict (h : IsReturn start through current way)
    (hsub : ∀ s ∈ through, Leads [start] through s → s ∈ through') :
    IsReturn start through' current way := by
  induction h generalizing through' with
  | close h => exact .close h
  | @go through current next way hnext hmem h ih =>
    have hleads := h.leads.mono (List.filter_subset_self _)
    refine .go (hsub next hnext hleads) hmem (ih fun s hs hs' => ?_)
    rw [List.mem_filter] at hs ⊢
    exact ⟨hsub s hs.1 (hs'.mono (List.filter_subset_self _)), hs.2⟩

end IsReturn

theorem isReturn_mono (hsub : through ⊆ through') (h : IsReturn start through current way) :
    IsReturn start through' current way :=
  h.restrict fun _ hs _ => hsub hs

/-- Leaving out the spokes that do not lead back leaves out no way back. -/
theorem isReturn_leadingBack_iff :
    IsReturn start (leadingBack start through) current way ↔ IsReturn start through current way :=
  ⟨isReturn_mono (leadingBack_sublist start through).subset,
    fun h => h.restrict fun _ => mem_leadingBack⟩

/-- The spokes that are tried from a spoke on. -/
def tried (start : Name) (through : List Spoke) (current : Spoke) : List Spoke :=
  if current.hasChoice start through then leadingBack start through else through

theorem tried_sublist (start : Name) (through : List Spoke) (current : Spoke) :
    (tried start through current).Sublist through := by
  unfold tried
  split
  · exact leadingBack_sublist start through
  · exact List.Sublist.refl _

theorem isReturn_tried_iff : IsReturn start (tried start through current) s way ↔
    IsReturn start through s way := by
  unfold tried
  split
  · exact isReturn_leadingBack_iff
  · rfl

theorem returns_succ (start : Name) (fuel : Nat) (through : List Spoke) (current : Spoke) :
    returns start (fuel + 1) through current =
      (if start ∈ current.targets then [[current.name]] else []) ++
        ((tried start through current).filter fun s => s.name ∈ current.targets).flatMap fun next =>
          (returns start fuel ((tried start through current).filter fun s => s.name ≠ next.name)
            next).map (current.name :: ·) := by
  rfl

theorem mem_closing_iff : way ∈ (if start ∈ current.targets then [[current.name]] else []) ↔
    start ∈ current.targets ∧ way = [current.name] := by
  split <;> simp_all

/-- The search finds just the ways back. -/
theorem mem_returns_iff (hfuel : through.length ≤ fuel) :
    way ∈ returns start fuel through current ↔ IsReturn start through current way := by
  induction fuel generalizing through current way with
  | zero =>
    rw [List.length_eq_zero_iff.mp (Nat.le_zero.mp hfuel), returns, mem_closing_iff]
    constructor
    · rintro ⟨h, rfl⟩
      exact .close h
    · rintro (h | ⟨hnext, -, -⟩)
      · exact ⟨h, rfl⟩
      · cases hnext
  | succ fuel ih =>
    have hshorter : ∀ next ∈ tried start through current,
        ((tried start through current).filter fun s => s.name ≠ next.name).length ≤ fuel := by
      intro next hnext
      have hlt : ((tried start through current).filter fun s => s.name ≠ next.name).length <
          (tried start through current).length :=
        List.length_filter_lt_length_iff_exists.mpr ⟨next, hnext, by simp⟩
      have hle := (tried_sublist start through current).length_le
      omega
    rw [returns_succ, List.mem_append, mem_closing_iff, List.mem_flatMap, ← isReturn_tried_iff]
    constructor
    · rintro (⟨h, rfl⟩ | ⟨next, hnext, hway⟩)
      · exact .close h
      · rw [List.mem_filter, decide_eq_true_eq] at hnext
        obtain ⟨rest, hrest, rfl⟩ := List.mem_map.mp hway
        exact .go hnext.1 hnext.2 ((ih (hshorter next hnext.1)).mp hrest)
    · rintro (h | ⟨hnext, hmem, h⟩)
      · exact .inl ⟨h, rfl⟩
      · refine .inr ⟨_, List.mem_filter.mpr ⟨hnext, by simpa using hmem⟩, ?_⟩
        exact List.mem_map_of_mem ((ih (hshorter _ hnext)).mpr h)

section Order

/-- Spokes that stand in the order of their names, each name once. -/
def Increasing (spokes : List Spoke) : Prop :=
  spokes.Pairwise fun s t => s.name < t.name

theorem Increasing.sublist (h : Increasing spokes) (hsub : spokes'.Sublist spokes) :
    Increasing spokes' :=
  List.Pairwise.sublist hsub h

theorem exists_cons_of_mem_returns (h : way ∈ returns start fuel through current) :
    ∃ rest, way = current.name :: rest := by
  cases fuel with
  | zero =>
    rw [returns, mem_closing_iff] at h
    exact ⟨[], h.2⟩
  | succ fuel =>
    rw [returns_succ, List.mem_append, mem_closing_iff, List.mem_flatMap] at h
    rcases h with ⟨-, rfl⟩ | ⟨next, -, hway⟩
    · exact ⟨[], rfl⟩
    · obtain ⟨rest, -, rfl⟩ := List.mem_map.mp hway
      exact ⟨rest, rfl⟩

/-- The ways back are found in increasing order. -/
theorem pairwise_returns (hthrough : Increasing through) :
    (returns start fuel through current).Pairwise (· < ·) := by
  have hclosing : ∀ current : Spoke,
      (if start ∈ current.targets then [[current.name]] else []).Pairwise (· < ·) := by
    intro current
    split <;> simp
  induction fuel generalizing through current with
  | zero => exact hclosing current
  | succ fuel ih =>
    have htried := hthrough.sublist (tried_sublist start through current)
    rw [returns_succ, List.pairwise_append, List.pairwise_flatMap]
    refine ⟨hclosing current, ⟨fun next _ => ?_, ?_⟩, ?_⟩
    · rw [List.pairwise_map]
      exact (ih (htried.sublist List.filter_sublist)).imp fun h =>
        List.cons_lt_cons_iff.mpr (.inr ⟨rfl, h⟩)
    · -- ways that go on to different spokes differ in the second name
      refine (htried.sublist List.filter_sublist).imp fun {next next'} hlt => ?_
      intro way hway way' hway'
      obtain ⟨rest, hrest, rfl⟩ := List.mem_map.mp hway
      obtain ⟨rest', hrest', rfl⟩ := List.mem_map.mp hway'
      obtain ⟨tail, rfl⟩ := exists_cons_of_mem_returns hrest
      obtain ⟨tail', rfl⟩ := exists_cons_of_mem_returns hrest'
      exact List.cons_lt_cons_iff.mpr (.inr ⟨rfl, List.cons_lt_cons_iff.mpr (.inl hlt)⟩)
    · -- a way that is closed at once stands before all that go on
      intro way hway way' hway'
      rw [mem_closing_iff] at hway
      obtain ⟨next, -, hway'⟩ := List.mem_flatMap.mp hway'
      obtain ⟨rest, hrest, rfl⟩ := List.mem_map.mp hway'
      obtain ⟨tail, rfl⟩ := exists_cons_of_mem_returns hrest
      rw [hway.2]
      simp

/-- From the smallest name on, the cycles are the ways back through the greater ones. -/
theorem mem_cyclesFrom_iff :
    way ∈ cyclesFrom current through ↔ IsReturn current.name through current way := by
  rw [cyclesFrom, mem_returns_iff le_rfl, isReturn_leadingBack_iff]

theorem mem_cyclesAmong_iff (h : Increasing spokes) : way ∈ cyclesAmong spokes ↔
    ∃ s ∈ spokes, IsReturn s.name (spokes.filter fun t => s.name < t.name) s way := by
  induction spokes with
  | nil => simp [cyclesAmong]
  | cons first greater ih =>
    obtain ⟨hfirst, hgreater⟩ := List.pairwise_cons.mp h
    have hfilter : (first :: greater).filter (fun t => first.name < t.name) = greater := by
      rw [List.filter_cons_of_neg (by simp), List.filter_eq_self]
      exact fun s hs => decide_eq_true (hfirst s hs)
    have hskip : ∀ s ∈ greater, (first :: greater).filter (fun t => s.name < t.name) =
        greater.filter fun t => s.name < t.name := fun s hs =>
      List.filter_cons_of_neg (by rw [decide_eq_true_eq]; exact lt_asymm (hfirst s hs))
    rw [cyclesAmong, List.mem_append, mem_cyclesFrom_iff, ih hgreater, List.exists_mem_cons_iff,
      hfilter]
    refine or_congr_right (exists_congr fun s => and_congr_right fun hs => ?_)
    rw [hskip s hs]

/-- The cycles are found in increasing order. -/
theorem pairwise_cyclesAmong (h : Increasing spokes) :
    (cyclesAmong spokes).Pairwise (· < ·) := by
  induction spokes with
  | nil => exact List.Pairwise.nil
  | cons first greater ih =>
    obtain ⟨hfirst, hgreater⟩ := List.pairwise_cons.mp h
    rw [cyclesAmong, List.pairwise_append]
    refine ⟨pairwise_returns (hgreater.sublist (leadingBack_sublist _ _)), ih hgreater, ?_⟩
    intro way hway way' hway'
    obtain ⟨s, hs, hreturn⟩ := (mem_cyclesAmong_iff hgreater).mp hway'
    obtain ⟨rest, rfl⟩ := (mem_cyclesFrom_iff.mp hway).exists_cons
    obtain ⟨rest', rfl⟩ := hreturn.exists_cons
    exact List.cons_lt_cons_iff.mpr (.inl (hfirst s hs))

end Order

section Names

variable {refers : Name → Name → Prop}

/-- The targets of a spoke are just what its name refers to. -/
def Tells (refers : Name → Name → Prop) (s : Spoke) : Prop :=
  ∀ target, target ∈ s.targets ↔ refers s.name target

/-- A way back is a chain of references through different names. -/
theorem isReturn_iff (hcurrent : Tells refers current) (hthrough : ∀ s ∈ through, Tells refers s) :
    IsReturn start through current way ↔ ∃ rest, way = current.name :: rest ∧ rest.Nodup ∧
      (∀ n ∈ rest, n ∈ through.map (·.name)) ∧
      (current.name :: (rest ++ [start])).IsChain refers := by
  constructor
  · intro h
    induction h with
    | close h => exact ⟨[], rfl, List.nodup_nil, by simp, by simpa using (hcurrent _).mp h⟩
    | @go through current next way hnext hmem h ih =>
      obtain ⟨rest, rfl, hnodup, hrest, hchain⟩ := ih (hthrough next hnext) fun s hs =>
        hthrough s (List.mem_of_mem_filter hs)
      have hapart : ∀ n ∈ rest, n ≠ next.name ∧ n ∈ through.map (·.name) := by
        intro n hn
        obtain ⟨s, hs, rfl⟩ := List.mem_map.mp (hrest n hn)
        rw [List.mem_filter, decide_eq_true_eq] at hs
        exact ⟨hs.2, List.mem_map_of_mem hs.1⟩
      refine ⟨next.name :: rest, rfl, ?_, ?_, ?_⟩
      · exact List.nodup_cons.mpr ⟨fun h => (hapart _ h).1 rfl, hnodup⟩
      · exact List.forall_mem_cons.mpr ⟨List.mem_map_of_mem hnext, fun n hn => (hapart n hn).2⟩
      · exact List.isChain_cons_cons.mpr ⟨(hcurrent _).mp hmem, hchain⟩
  · rintro ⟨rest, rfl, hnodup, hrest, hchain⟩
    induction rest generalizing through current with
    | nil => exact .close ((hcurrent _).mpr (by simpa using hchain))
    | cons n rest ih =>
      rw [List.forall_mem_cons] at hrest
      obtain ⟨hnew, htail⟩ := List.nodup_cons.mp hnodup
      obtain ⟨next, hnext, rfl⟩ := List.mem_map.mp hrest.1
      obtain ⟨hfirst, hchain⟩ := List.isChain_cons_cons.mp hchain
      refine .go hnext ((hcurrent _).mpr hfirst) (ih (hthrough next hnext) ?_ htail ?_ hchain)
      · exact fun s hs => hthrough s (List.mem_of_mem_filter hs)
      · intro n hn
        obtain ⟨s, hs, rfl⟩ := List.mem_map.mp (hrest.2 n hn)
        refine List.mem_map_of_mem (List.mem_filter.mpr ⟨hs, decide_eq_true ?_⟩)
        exact fun h => hnew (h ▸ hn)

end Names

end StackFront.Spoke
