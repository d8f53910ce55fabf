import StackFront.Proofs.Analysis.Elementary
import StackFront.Proofs.Analysis.Returns
import StackFront.Proofs.Graph.Reachability

/-!
# The cycles of a graph

The list of cycles has every elementary cycle once, written from its smallest name on, in
increasing order. So it is the list that any enumeration of the elementary cycles gives when each of
them is turned to its smallest name and the whole is sorted, and it is empty if and only if no
program refers to itself, be it through others.
-/
namespace StackFront

namespace Graph

/-- One program refers to another one, in either way. -/
def Refers (g : Graph) (source target : Name) : Prop :=
  ∃ kind, ⟨source, target, kind⟩ ∈ g.edges

/-- A list of all elementary cycles of a graph, each of them once in some rotation. -/
structure Enumerates (g : Graph) (found : List (List Name)) : Prop where
  nodup : (found.map fun c : List Name => (c : Cycle Name)).Nodup
  mem_iff : ∀ z : Cycle Name,
    z ∈ found.map (fun c : List Name => (c : Cycle Name)) ↔ IsElementary g.Refers z

/-- Such a list in increasing order, each cycle from its smallest name on. -/
structure ListsCycles (g : Graph) (cycles : List (List Name)) : Prop extends
  g.Enumerates cycles where
  least : ∀ c ∈ cycles, BeginsLeast c
  increasing : cycles.Pairwise (· < ·)

/-- Cycles turned to their smallest names and put in order. -/
def inOrder (found : List (List Name)) : List (List Name) :=
  (found.map fromSmallest).mergeSort fun c d => !(d < c)

variable {g : Graph} {source target : Name} {n : Node} {s : Spoke} {c : List Name}
  {found : List (List Name)}

/-- The spoke of a name with its program. -/
def contentSpoke (q : Name × Program) : Spoke :=
  ⟨q.1, (q.2.linkNames q.1 .extend ++ q.2.linkNames q.1 .use).eraseDups⟩

theorem spokes_eq_content (g : Graph) : g.spokes =
    ((g.nodes.map Node.content).map contentSpoke).mergeSort fun a b => !(b.name < a.name) := by
  rw [List.map_map]
  rfl

theorem spokes_perm (g : Graph) : g.spokes.Perm ((g.nodes.map Node.content).map contentSpoke) := by
  rw [spokes_eq_content]
  exact List.mergeSort_perm ..

theorem mem_spokes : s ∈ g.spokes ↔ ∃ n ∈ g.nodes, contentSpoke n.content = s := by
  rw [g.spokes_perm.mem_iff, List.map_map, List.mem_map]
  rfl

theorem increasing_spokes (hnodup : g.names.Nodup) : Spoke.Increasing g.spokes := by
  have hsorted : g.spokes.Pairwise fun s t => ¬ t.name < s.name :=
    pairwise_mergeSort_key Spoke.name _
  have hnames : (g.spokes.map Spoke.name).Nodup := by
    rwa [(g.spokes_perm.map Spoke.name).nodup_iff, List.map_map, List.map_map]
  refine (hsorted.and (List.pairwise_map.mp hnames)).imp fun {s t} h => ?_
  exact lt_of_le_of_ne (not_lt.mp h.1) h.2

theorem refers_iff (hnodup : g.names.Nodup) (hn : n ∈ g.nodes) :
    g.Refers n.name target ↔ target ∈ (contentSpoke n.content).targets := by
  have hlinks : target ∈ (contentSpoke n.content).targets ↔ ∃ kind, target ∈ n.links kind := by
    rw [contentSpoke, List.mem_eraseDups, List.mem_append]
    constructor
    · rintro (h | h)
      · exact ⟨.extend, h⟩
      · exact ⟨.use, h⟩
    · rintro ⟨kind, h⟩
      cases kind
      · exact .inl h
      · exact .inr h
  rw [hlinks]
  refine exists_congr fun kind => ?_
  rw [mem_edges]
  constructor
  · rintro ⟨m, hm, hname, htarget⟩
    rwa [List.inj_on_of_nodup_map hnodup hn hm hname]
  · exact fun h => ⟨n, hn, rfl, h⟩

theorem tells_of_mem_spokes (hnodup : g.names.Nodup) (hs : s ∈ g.spokes) :
    s.Tells g.Refers := by
  intro target
  obtain ⟨n, hn, rfl⟩ := mem_spokes.mp hs
  exact (refers_iff hnodup hn).symm

/-- What refers to something is the name of a spoke. -/
theorem exists_spoke (h : g.Refers source target) : ∃ s ∈ g.spokes, s.name = source := by
  obtain ⟨kind, h⟩ := h
  obtain ⟨n, hn, hsource, -⟩ := mem_edges.mp h
  exact ⟨_, mem_spokes.mpr ⟨n, hn, rfl⟩, hsource.symm⟩

theorem mem_greater_iff {least name : Name} :
    name ∈ (g.spokes.filter fun t => least < t.name).map (·.name) ↔
      least < name ∧ ∃ s ∈ g.spokes, s.name = name := by
  simp only [List.mem_map, List.mem_filter, decide_eq_true_eq]
  constructor
  · rintro ⟨s, ⟨hs, hlt⟩, rfl⟩
    exact ⟨hlt, s, hs, rfl⟩
  · rintro ⟨hlt, s, hs, rfl⟩
    exact ⟨s, ⟨hs, hlt⟩, rfl⟩

/-- The cycles that are listed are the elementary ones, each from its smallest name on. -/
theorem mem_cycles_iff (hnodup : g.names.Nodup) :
    c ∈ g.cycles ↔ IsElementary g.Refers c ∧ BeginsLeast c := by
  have htells : ∀ s ∈ g.spokes, s.Tells g.Refers := fun s hs => tells_of_mem_spokes hnodup hs
  have hreturn : ∀ s ∈ g.spokes,
      Spoke.IsReturn s.name (g.spokes.filter fun t => s.name < t.name) s c ↔
        ∃ rest, c = s.name :: rest ∧ rest.Nodup ∧
          (∀ n ∈ rest, n ∈ (g.spokes.filter fun t => s.name < t.name).map (·.name)) ∧
          (s.name :: (rest ++ [s.name])).IsChain g.Refers := fun s hs =>
    Spoke.isReturn_iff (htells s hs) fun t ht => htells t (List.mem_of_mem_filter ht)
  rw [cycles, Spoke.mem_cyclesAmong_iff (increasing_spokes hnodup)]
  constructor
  · rintro ⟨s, hs, h⟩
    obtain ⟨rest, rfl, hrest, hgreater, hchain⟩ := (hreturn s hs).mp h
    have hlt : ∀ n ∈ rest, s.name < n := fun n hn => (mem_greater_iff.mp (hgreater n hn)).1
    have hnew : s.name ∉ rest := fun h => lt_irrefl _ (hlt _ h)
    exact ⟨isElementary_coe_cons.mpr ⟨List.nodup_cons.mpr ⟨hnew, hrest⟩, hchain⟩,
      beginsLeast_cons.mpr fun n hn => (hlt n hn).le⟩
  · rintro ⟨helementary, hleast⟩
    have hspoke : ∀ n ∈ c, ∃ s ∈ g.spokes, s.name = n := by
      intro n hn
      obtain ⟨m, hm⟩ := helementary.exists_rel hn
      exact exists_spoke hm
    cases c with
    | nil => exact absurd rfl helementary.ne_nil
    | cons a rest =>
      obtain ⟨hdifferent, hchain⟩ := isElementary_coe_cons.mp helementary
      obtain ⟨hnew, hrest⟩ := List.nodup_cons.mp hdifferent
      obtain ⟨s, hs, rfl⟩ := hspoke a (List.mem_cons_self ..)
      refine ⟨s, hs, (hreturn s hs).mpr ⟨rest, rfl, hrest, fun n hn => ?_, hchain⟩⟩
      refine mem_greater_iff.mpr ⟨?_, hspoke n (List.mem_cons_of_mem _ hn)⟩
      exact lt_of_le_of_ne (beginsLeast_cons.mp hleast n hn) fun h => hnew (h ▸ hn)

theorem nodup_of_increasing (h : found.Pairwise (· < ·)) : found.Nodup := by
  refine h.imp fun {c d} hlt => ?_
  rintro rfl
  exact List.lt_irrefl c hlt

theorem inOrder_perm (found : List (List Name)) :
    (inOrder found).Perm (found.map fromSmallest) :=
  List.mergeSort_perm ..

theorem pairwise_inOrder (found : List (List Name)) :
    (inOrder found).Pairwise fun c d => ¬ d < c :=
  pairwise_mergeSort_key id (found.map fromSmallest)

theorem listsCycles_cycles (hnodup : g.names.Nodup) : g.ListsCycles g.cycles := by
  have hincreasing : g.cycles.Pairwise (· < ·) :=
    Spoke.pairwise_cyclesAmong (increasing_spokes hnodup)
  have hsound : ∀ c ∈ g.cycles, IsElementary g.Refers c ∧ BeginsLeast c := fun c hc =>
    (mem_cycles_iff hnodup).mp hc
  refine ⟨⟨?_, fun z => ⟨fun hz => ?_, fun hz => ?_⟩⟩, fun c hc => (hsound c hc).2, hincreasing⟩
  · refine (nodup_of_increasing hincreasing).map_on fun c hc d hd h => ?_
    obtain ⟨helementary, hleast⟩ := hsound c hc
    exact hleast.eq_of_isRotated (hsound d hd).2 helementary.nodup (Cycle.coe_eq_coe.mp h)
  · obtain ⟨c, hc, rfl⟩ := List.mem_map.mp hz
    exact (hsound c hc).1
  · induction z using Quotient.inductionOn with
    | h c =>
      have hz : IsElementary g.Refers (fromSmallest c : Cycle Name) := by
        rwa [coe_fromSmallest]
      exact List.mem_map.mpr ⟨fromSmallest c,
        (mem_cycles_iff hnodup).mpr ⟨hz, beginsLeast_fromSmallest c⟩, coe_fromSmallest c⟩

/-- However the elementary cycles are enumerated, the same list comes of it. -/
theorem ListsCycles.inOrder_eq {cycles : List (List Name)} (h : g.ListsCycles cycles)
    (hfound : g.Enumerates found) : inOrder found = cycles := by
  have hcycles : ∀ c ∈ cycles, IsElementary g.Refers c := fun c hc =>
    (h.mem_iff _).mp (List.mem_map_of_mem hc)
  have hmem : ∀ c, c ∈ found.map fromSmallest ↔ c ∈ cycles := by
    intro c
    constructor
    · intro hc
      obtain ⟨d, hd, rfl⟩ := List.mem_map.mp hc
      obtain ⟨e, he, hsame⟩ := List.mem_map.mp
        ((h.mem_iff _).mpr ((hfound.mem_iff _).mp (List.mem_map_of_mem hd)))
      rwa [fromSmallest_eq (h.least e he) (hcycles e he).nodup hsame.symm]
    · intro hc
      obtain ⟨d, hd, hsame⟩ := List.mem_map.mp ((hfound.mem_iff _).mpr (hcycles c hc))
      exact List.mem_map.mpr ⟨d, hd, fromSmallest_eq (h.least c hc) (hcycles c hc).nodup hsame⟩
  have hnodup : (found.map fromSmallest).Nodup := by
    have hturned : (found.map fromSmallest).map (fun c : List Name => (c : Cycle Name)) =
        found.map fun c : List Name => (c : Cycle Name) := by
      rw [List.map_map]
      exact List.map_congr_left fun c _ => coe_fromSmallest c
    exact List.Nodup.of_map _ (hturned ▸ hfound.nodup)
  have hperm : (inOrder found).Perm cycles :=
    (inOrder_perm found).trans
      ((List.perm_ext_iff_of_nodup hnodup (nodup_of_increasing h.increasing)).mpr hmem)
  refine hperm.eq_of_pairwise (fun c d _ _ hcd hdc => ?_) (pairwise_inOrder found)
    (h.increasing.imp fun hlt => List.lt_asymm hlt)
  rw [List.not_lt] at hcd hdc
  exact List.le_antisymm hcd hdc

/-- There is no cycle in a graph if and only if no program refers to itself, be it through
others. -/
theorem Enumerates.eq_nil_iff (h : g.Enumerates found) :
    found = [] ↔ ∀ name, ¬ Relation.TransGen g.Refers name name := by
  rw [← not_exists, ← exists_isElementary_iff]
  constructor
  · rintro rfl ⟨z, hz⟩
    cases (h.mem_iff z).mpr hz
  · intro hnone
    rw [List.eq_nil_iff_forall_not_mem]
    exact fun c hc => hnone ⟨_, (h.mem_iff _).mp (List.mem_map_of_mem hc)⟩

end Graph

namespace Session

variable {s : Session} {spelled : String} {g : Graph}

/-- The cycles of a resolved graph are the elementary ones, each of them once and from its smallest
name on, in increasing order. -/
theorem resolve_cycles (hg : (s.resolve spelled).1 = .ok g) :
    g.ListsCycles g.cycles ∧
      (∀ found, g.Enumerates found → Graph.inOrder found = g.cycles) ∧
      (g.cycles = [] ↔ ∀ name, ¬ Relation.TransGen g.Refers name name) := by
  obtain ⟨hex, hroot, hknown⟩ := explores_of_resolve hg
  have hlists := Graph.listsCycles_cycles (Graph.shows_of_explores hex hroot hknown).nodup
  exact ⟨hlists, fun found hfound => hlists.inOrder_eq hfound, hlists.eq_nil_iff⟩

/-- A self reference, cycles that overlap, and parallel references of both kinds. -/
theorem resolve_cycles_overlapping :
    let sources : Sources := [("a.vt", "N\n;e b.vt\n;e a.vt\n;u b.vt\n"),
      ("b.vt", "N\n;e a.vt\n;e c.vt\n"), ("c.vt", "N\n;u a.vt\n")]
    ∃ g, ((ofSources sources).resolve "a.vt").1 = .ok g ∧ g.ListsCycles g.cycles ∧
      g.cycles = [["a.vt"], ["a.vt", "b.vt"], ["a.vt", "b.vt", "c.vt"]] := by
  intro sources
  have hroot : Path.canonical "a.vt" none = "a.vt" := by decide
  have hcontent : ∃ p q r, (ofSources sources).content "a.vt" = .ok p ∧
      (ofSources sources).content "b.vt" = .ok q ∧ (ofSources sources).content "c.vt" = .ok r ∧
      p.successors "a.vt" = ["b.vt", "a.vt", "b.vt"] ∧ q.successors "b.vt" = ["a.vt", "c.vt"] ∧
      r.successors "c.vt" = ["a.vt"] ∧
      [("a.vt", p), ("b.vt", q), ("c.vt", r)].map Graph.contentSpoke =
        [⟨"a.vt", ["b.vt", "a.vt"]⟩, ⟨"b.vt", ["a.vt", "c.vt"]⟩, ⟨"c.vt", ["a.vt"]⟩] :=
    ⟨_, _, _, rfl, rfl, rfl, by decide, by decide, by decide, by decide⟩
  obtain ⟨p, q, r, hp, hq, hr, ha, hb, hc, hspokes⟩ := hcontent
  have hex : Explores (ofSources sources).content [] [Path.canonical "a.vt" none]
      [("a.vt", p), ("b.vt", q), ("c.vt", r)] none := by
    rw [hroot]
    refine .find (by decide) hp ?_
    rw [Walk.pendingAfter, ha]
    refine .find (by decide) hq ?_
    rw [Walk.pendingAfter, hb]
    refine .find (by decide) hr ?_
    rw [Walk.pendingAfter, hc]
    exact .drop (by decide) (.drop (by decide) (.drop (by decide) (.drop (by decide) (.done _))))
  obtain ⟨g, hg, -, hnodes, -⟩ := resolve_of_explores hex
  refine ⟨g, hg, (resolve_cycles hg).1, ?_⟩
  rw [Graph.cycles, Graph.spokes_eq_content, hnodes, hspokes,
    List.mergeSort_of_pairwise (by decide)]
  decide

end Session

end StackFront
