import Mathlib.Data.Finset.Card
import Mathlib.Data.String.Basic
import StackFront.Analysis.Digraph
import StackFront.Proofs.Graph.Agreement

/-!
# Digraphs of graphs

The digraph of a resolved graph agrees with it: the vertices are its programs, in graph order and
with what is known of them, and the arrows are its edges. Each end of an edge is the name of a
program, so that no arrow brings a bare end along. The names that are shared are those with more
than one predecessor in the digraph, however many arrows lead from one of them. Any library of
multigraphs that adds vertices and edges as is documented shows that very digraph.
-/
namespace StackFront

/-- The edge that an arrow stands for. -/
def Arrow.edge (a : Arrow) : Edge :=
  ⟨a.source, a.target, a.kind⟩

namespace Digraph

/-- The names of the vertices, in the order in which they were added. -/
def names (d : Digraph) : List Name :=
  d.vertices.map (·.name)

/-- An arrow leads from one name to another one. -/
def Precedes (d : Digraph) (source target : Name) : Prop :=
  ∃ a ∈ d.arrows, a.source = source ∧ a.target = target

/-- Parallel arrows have the keys 0, 1, 2 and so on, in the order in which they were added. -/
def CountsParallels (d : Digraph) : Prop :=
  ∀ source target, (d.between source target).map (·.key) =
    List.range (d.between source target).length

variable {d : Digraph} {v : Vertex} {vs : List Vertex} {e : Edge} {es : List Edge}
  {name source target : Name} {g : Graph}

theorem hasVertex_iff : d.hasVertex name ↔ name ∈ d.names := by
  simp [hasVertex, names]

/-! ## Vertices -/

/-- A vertex with a new name comes last. -/
theorem addVertex_of_new (h : v.name ∉ d.names) :
    d.addVertex v = { d with vertices := d.vertices ++ [v] } := by
  rw [addVertex, if_neg (hasVertex_iff.not.mpr h)]

theorem foldl_addVertex (hnodup : (d.names ++ vs.map (·.name)).Nodup) :
    vs.foldl addVertex d = { d with vertices := d.vertices ++ vs } := by
  induction vs generalizing d with
  | nil => simp only [List.foldl_nil, List.append_nil]
  | cons v vs ih =>
    have hnew : v.name ∉ d.names := by
      intro hmem
      exact (List.nodup_append.mp hnodup).2.2 _ hmem _ (List.mem_cons_self ..) rfl
    rw [List.foldl_cons, addVertex_of_new hnew, ih]
    · simp only [List.append_assoc, List.cons_append, List.nil_append]
    · simpa [names] using hnodup

/-- Where no two programs share their name, the vertices are the programs in graph order. -/
theorem ofNodes_eq (hnodup : g.names.Nodup) :
    ofNodes g = { root := g.root, vertices := g.nodes.map (vertexOf g.root) } := by
  have hnames : (g.nodes.map (vertexOf g.root)).map (·.name) = g.names := by
    rw [List.map_map]
    rfl
  rw [ofNodes, foldl_addVertex]
  · rfl
  · rw [hnames]
    exact hnodup

/-! ## Arrows -/

@[simp] theorem addEnd_root : (d.addEnd name).root = d.root := by
  unfold addEnd
  split <;> rfl

@[simp] theorem addEnd_vertices : (d.addEnd name).vertices = d.vertices := by
  unfold addEnd
  split <;> rfl

@[simp] theorem addEnd_arrows : (d.addEnd name).arrows = d.arrows := by
  unfold addEnd
  split <;> rfl

theorem addEnd_bare : (d.addEnd name).bare =
    if d.hasVertex name || name ∈ d.bare then d.bare else d.bare ++ [name] := by
  unfold addEnd
  split <;> rfl

/-- A vertex is an end that arrows may have. -/
theorem addEnd_of_mem (h : name ∈ d.names) : d.addEnd name = d := by
  rw [addEnd, hasVertex_iff.mpr h, Bool.true_or, if_pos rfl]

@[simp] theorem between_addEnd :
    (d.addEnd name).between source target = d.between source target := by
  rw [between, addEnd_arrows, between]

theorem addEdge_arrows : (d.addEdge e).arrows =
    d.arrows ++ [⟨e.source, e.target, (d.between e.source e.target).length, e.kind⟩] := by
  simp [addEdge]

/-- The arrow that is added is the last one between its ends. -/
theorem between_addEdge : (d.addEdge e).between source target =
    if e.source = source ∧ e.target = target then
      d.between source target ++ [⟨source, target, (d.between source target).length, e.kind⟩]
    else d.between source target := by
  rw [between, addEdge_arrows, List.filter_append, ← between]
  by_cases hends : e.source = source ∧ e.target = target
  · obtain ⟨rfl, rfl⟩ := hends
    simp
  · simp [hends]

theorem addEdge_bare (hsource : e.source ∈ d.names) (htarget : e.target ∈ d.names) :
    (d.addEdge e).bare = d.bare := by
  simp only [addEdge, addEnd_of_mem hsource, addEnd_of_mem htarget]

/-- An arrow that is added gets the first key that is free between its ends. -/
theorem CountsParallels.addEdge (h : d.CountsParallels) (e : Edge) :
    (d.addEdge e).CountsParallels := by
  intro source target
  rw [between_addEdge]
  split
  · simp [h source target, List.range_succ]
  · exact h source target

/-- What comes of a digraph when edges are added to it. -/
theorem foldl_addEdge (es : List Edge) (d : Digraph) :
    (es.foldl addEdge d).root = d.root ∧ (es.foldl addEdge d).vertices = d.vertices ∧
      (es.foldl addEdge d).arrows.map Arrow.edge = d.arrows.map Arrow.edge ++ es := by
  induction es generalizing d with
  | nil => simp
  | cons e es ih =>
    obtain ⟨hroot, hvertices, harrows⟩ := ih (d.addEdge e)
    rw [List.foldl_cons]
    refine ⟨by rw [hroot]; simp [addEdge], by rw [hvertices]; simp [addEdge], ?_⟩
    simp [harrows, addEdge_arrows, Arrow.edge]

theorem CountsParallels.foldl_addEdge (h : d.CountsParallels) (es : List Edge) :
    (es.foldl Digraph.addEdge d).CountsParallels := by
  induction es generalizing d with
  | nil => exact h
  | cons e es ih => exact ih (h.addEdge e)

/-- Edges between vertices bring nothing along. -/
theorem foldl_addEdge_bare (hends : ∀ e ∈ es, e.source ∈ d.names ∧ e.target ∈ d.names) :
    (es.foldl addEdge d).bare = d.bare := by
  induction es generalizing d with
  | nil => rfl
  | cons e es ih =>
    rw [List.forall_mem_cons] at hends
    have hnames : (d.addEdge e).names = d.names := by
      simp [names, addEdge]
    rw [List.foldl_cons, ih (by rw [hnames]; exact hends.2), addEdge_bare hends.1.1 hends.1.2]

end Digraph

namespace Graph

/-- A vertex shows what is known of the program of its name. -/
def ShowsProgram (g : Graph) (v : Vertex) : Prop :=
  ∃ loaded, g.get? v.name = some loaded ∧ v.methods = loaded.program.methods.length ∧
    v.category = loaded.program.dominant ∧ (v.isRoot ↔ v.name = g.root)

/-- The digraph has the programs of the graph as its vertices and the edges of the graph as its
arrows, and nothing else. -/
structure IsDepicted (g : Graph) (d : Digraph) : Prop where
  root_eq : d.root = g.root
  names_eq : d.names = g.names
  nodup : d.names.Nodup
  shows : ∀ v ∈ d.vertices, g.ShowsProgram v
  bare_eq : d.bare = []
  edges_eq : d.arrows.map Arrow.edge = g.edges
  counts : d.CountsParallels

variable {g : Graph} {d : Digraph} {name source target : Name} {edges : List Edge}

/-- A graph in which every edge leads from one program to another one is depicted by its digraph. -/
theorem isDepicted_ofGraph (hnodup : g.names.Nodup)
    (hends : ∀ e ∈ g.edges, e.source ∈ g.names ∧ e.target ∈ g.names) :
    g.IsDepicted (.ofGraph g) := by
  have hvertices : (Digraph.ofNodes g).vertices = g.nodes.map (Digraph.vertexOf g.root) := by
    rw [Digraph.ofNodes_eq hnodup]
  have hnames : (Digraph.ofNodes g).names = g.names := by
    rw [Digraph.names, hvertices, List.map_map]
    rfl
  have harrows : (Digraph.ofNodes g).arrows = [] := by
    rw [Digraph.ofNodes_eq hnodup]
  have hcounts : (Digraph.ofNodes g).CountsParallels := by
    intro source target
    simp [Digraph.between, harrows]
  obtain ⟨hroot', hvertices', harrows'⟩ := Digraph.foldl_addEdge g.edges (Digraph.ofNodes g)
  have hnames' : (Digraph.ofGraph g).names = g.names := by
    rw [← hnames, Digraph.names, Digraph.ofGraph, hvertices']
    rfl
  refine ⟨?_, hnames', hnames' ▸ hnodup, fun v hv => ?_, ?_, ?_, hcounts.foldl_addEdge g.edges⟩
  · rw [Digraph.ofGraph, hroot', Digraph.ofNodes_eq hnodup]
  · rw [Digraph.ofGraph, hvertices', hvertices] at hv
    obtain ⟨n, hn, rfl⟩ := List.mem_map.mp hv
    exact ⟨n.loaded, get?_name hnodup hn, rfl, rfl, by simp [Digraph.vertexOf]⟩
  · rw [Digraph.ofGraph, Digraph.foldl_addEdge_bare (by rwa [hnames]), Digraph.ofNodes_eq hnodup]
  · rw [Digraph.ofGraph, harrows', harrows, List.map_nil, List.nil_append]

/-- Arrows lead from one name to another one exactly if edges do. -/
theorem IsDepicted.precedes_iff (h : g.IsDepicted d) :
    d.Precedes source target ↔ ∃ e ∈ g.edges, e.source = source ∧ e.target = target := by
  rw [← h.edges_eq]
  simp only [Digraph.Precedes, List.mem_map, exists_exists_and_eq_and, Arrow.edge]

/-! ## Shared names -/

theorem nodup_eraseDups {α : Type} [DecidableEq α] : ∀ l : List α, l.eraseDups.Nodup
  | [] => List.nodup_nil
  | a :: l => by
    rw [List.eraseDups_cons, List.nodup_cons]
    exact ⟨by simp, nodup_eraseDups _⟩
termination_by l => l.length
decreasing_by exact Nat.lt_succ_of_le (List.length_filter_le ..)

theorem mem_sourcesOf :
    source ∈ sourcesOf edges name ↔ ∃ e ∈ edges, e.source = source ∧ e.target = name := by
  simp only [sourcesOf, List.mem_eraseDups, List.mem_map, List.mem_filter, decide_eq_true_eq]
  exact exists_congr fun e => by tauto

/-- More than one program refers to a name exactly if two different ones do. -/
theorem one_lt_sourcesOf_iff : 1 < (sourcesOf edges name).length ↔
    ∃ p ∈ sourcesOf edges name, ∃ q ∈ sourcesOf edges name, p ≠ q := by
  have hnodup : (sourcesOf edges name).Nodup := nodup_eraseDups _
  rw [← List.toFinset_card_of_nodup hnodup, Finset.one_lt_card]
  simp only [List.mem_toFinset]

theorem mem_shared_iff (h : g.IsDepicted d) :
    name ∈ g.shared ↔ ∃ p q, p ≠ q ∧ d.Precedes p name ∧ d.Precedes q name := by
  have hsources : ∀ p, p ∈ sourcesOf g.edges name ↔ d.Precedes p name := fun p => by
    rw [mem_sourcesOf, h.precedes_iff]
  have htarget : ∀ p, d.Precedes p name → ∃ e ∈ g.edges, e.target = name := by
    intro p hp
    obtain ⟨e, he, -, htarget⟩ := h.precedes_iff.mp hp
    exact ⟨e, he, htarget⟩
  simp only [shared, sortNames, List.mem_mergeSort, List.mem_filter, List.mem_eraseDups,
    List.mem_map, decide_eq_true_eq, one_lt_sourcesOf_iff, hsources]
  constructor
  · rintro ⟨-, p, hp, q, hq, hne⟩
    exact ⟨p, q, hne, hp, hq⟩
  · rintro ⟨p, q, hne, hp, hq⟩
    exact ⟨htarget p hp, p, hp, q, hq, hne⟩

theorem pairwise_shared (g : Graph) : g.shared.Pairwise (· < ·) := by
  have hnodup : g.shared.Nodup := by
    rw [shared, sortNames, (List.mergeSort_perm ..).nodup_iff]
    exact (nodup_eraseDups _).filter _
  refine ((pairwise_mergeSort_key id _).and hnodup).imp fun {a b} h => ?_
  exact lt_of_le_of_ne (not_lt.mp h.1) h.2

end Graph

/-- A library of directed multigraphs: how one is begun and added to, and what can be asked of it.
Arrows are asked for from one end to another. -/
structure MultigraphLibrary where
  Multigraph : Type
  new : (root : Name) → Multigraph
  addVertex : Multigraph → Vertex → Multigraph
  addEdge : Multigraph → Edge → Multigraph
  root : Multigraph → Name
  vertices : Multigraph → List Vertex
  bare : Multigraph → List Name
  between : Multigraph → (source target : Name) → List Arrow

namespace MultigraphLibrary

variable {lib : MultigraphLibrary} {m : lib.Multigraph} {d : Digraph}

/-- A multigraph gives the same answers as a digraph. -/
structure Shows (lib : MultigraphLibrary) (m : lib.Multigraph) (d : Digraph) : Prop where
  root_eq : lib.root m = d.root
  vertices_eq : lib.vertices m = d.vertices
  bare_eq : lib.bare m = d.bare
  between_eq : ∀ source target, lib.between m source target = d.between source target

/-- What is documented of a library: a vertex of a known name is replaced and a new one comes last;
an edge comes last between its ends, brings them along if they are missing, and is told from
parallel ones by counting them. Nothing is asked of a vertex whose name an edge has brought along. -/
structure IsDocumented (lib : MultigraphLibrary) : Prop where
  shows_new : ∀ root, lib.Shows (lib.new root) { root }
  shows_addVertex : ∀ m d v, lib.Shows m d → v.name ∉ d.bare →
    lib.Shows (lib.addVertex m v) (d.addVertex v)
  shows_addEdge : ∀ m d e, lib.Shows m d → lib.Shows (lib.addEdge m e) (d.addEdge e)

/-- The multigraph of a graph: first all vertices are added, and then all edges. -/
def build (lib : MultigraphLibrary) (g : Graph) : lib.Multigraph :=
  g.edges.foldl lib.addEdge
    ((g.nodes.map (Digraph.vertexOf g.root)).foldl lib.addVertex (lib.new g.root))

theorem IsDocumented.shows_vertices (h : lib.IsDocumented) (hbare : d.bare = [])
    (hshows : lib.Shows m d) (vs : List Vertex) :
    lib.Shows (vs.foldl lib.addVertex m) (vs.foldl Digraph.addVertex d) := by
  induction vs generalizing m d with
  | nil => exact hshows
  | cons v vs ih =>
    have hnew : v.name ∉ d.bare := by
      rw [hbare]
      exact List.not_mem_nil
    exact ih hbare (h.shows_addVertex m d v hshows hnew)

theorem IsDocumented.shows_edges (h : lib.IsDocumented) (hshows : lib.Shows m d)
    (es : List Edge) : lib.Shows (es.foldl lib.addEdge m) (es.foldl Digraph.addEdge d) := by
  induction es generalizing m d with
  | nil => exact hshows
  | cons e es ih => exact ih (h.shows_addEdge m d e hshows)

/-- The multigraph of a graph shows its digraph. -/
theorem IsDocumented.shows_build (h : lib.IsDocumented) (g : Graph) :
    lib.Shows (lib.build g) (.ofGraph g) :=
  h.shows_edges (h.shows_vertices rfl (h.shows_new g.root) _) _

/-- Digraphs are such a library themselves. -/
def ofDigraphs : MultigraphLibrary where
  Multigraph := Digraph
  new root := { root }
  addVertex := Digraph.addVertex
  addEdge := Digraph.addEdge
  root := Digraph.root
  vertices := Digraph.vertices
  bare := Digraph.bare
  between := Digraph.between

theorem isDocumented_ofDigraphs : ofDigraphs.IsDocumented where
  shows_new _ := ⟨rfl, rfl, rfl, fun _ _ => rfl⟩
  shows_addVertex := fun (m : Digraph) d v h _ => by
    have hvertices : Digraph.vertices m = d.vertices := h.vertices_eq
    refine ⟨h.root_eq, ?_, h.bare_eq, h.between_eq⟩
    change (m.addVertex v).vertices = (d.addVertex v).vertices
    rw [Digraph.addVertex, Digraph.addVertex, Digraph.hasVertex, Digraph.hasVertex, hvertices]
  shows_addEdge := fun (m : Digraph) d e h => by
    have hroot : Digraph.root m = d.root := h.root_eq
    have hvertices : Digraph.vertices m = d.vertices := h.vertices_eq
    have hbare : Digraph.bare m = d.bare := h.bare_eq
    have hbetween : Digraph.between m = d.between := funext₂ h.between_eq
    refine ⟨?_, ?_, ?_, fun source target => ?_⟩
    · simp [ofDigraphs, Digraph.addEdge, hroot]
    · simp [ofDigraphs, Digraph.addEdge, hvertices]
    · simp [ofDigraphs, Digraph.addEdge, Digraph.addEnd_bare, Digraph.hasVertex, hvertices, hbare]
    · simp [ofDigraphs, Digraph.between_addEdge, hbetween]

end MultigraphLibrary

namespace Session

variable {s : Session} {spelled : String} {g : Graph}

/-- The digraph of a resolved graph depicts it, and the shared names are those with at least two
predecessors there, in increasing order. It is what every documented library of multigraphs
shows. -/
theorem resolve_digraph (hg : (s.resolve spelled).1 = .ok g) :
    ∃ d, ({} : Tools).digraph g = .ok d ∧
      (∀ lib : MultigraphLibrary, lib.IsDocumented → lib.Shows (lib.build g) d) ∧
      g.IsDepicted d ∧ g.shared.Pairwise (· < ·) ∧
      ∀ name, name ∈ g.shared ↔ ∃ p q, p ≠ q ∧ d.Precedes p name ∧ d.Precedes q name := by
  obtain ⟨hex, hroot, hknown⟩ := explores_of_resolve hg
  have hshows := Graph.shows_of_explores hex hroot hknown
  -- All that a program of the graph refers to is in the graph, so that no arrow has a bare end.
  have hdepicted := Graph.isDepicted_ofGraph hshows.nodup hshows.edge
  exact ⟨_, rfl, fun lib hlib => hlib.shows_build g, hdepicted, g.pairwise_shared,
    fun name => Graph.mem_shared_iff hdepicted⟩

/-- A self reference, a cycle, and parallel references of both kinds: only one name has a second
predecessor. -/
theorem resolve_digraph_parallel :
    let sources : Sources := [("a.vt", "N\n;e b.vt\n;e a.vt\n;u b.vt\n"),
      ("b.vt", "N\n;e a.vt\n")]
    let lib := MultigraphLibrary.ofDigraphs
    ∃ g d, ((ofSources sources).resolve "a.vt").1 = .ok g ∧ ({} : Tools).digraph g = .ok d ∧
      lib.IsDocumented ∧ lib.Shows (lib.build g) d ∧
      g.IsDepicted d ∧ d.arrows.map Arrow.edge =
        [⟨"a.vt", "b.vt", .extend⟩, ⟨"a.vt", "a.vt", .extend⟩, ⟨"a.vt", "b.vt", .use⟩,
          ⟨"b.vt", "a.vt", .extend⟩] ∧ g.shared = ["a.vt"] := by
  intro sources lib
  have hroot : Path.canonical "a.vt" none = "a.vt" := by decide
  have hcontent : ∃ p q, (ofSources sources).content "a.vt" = .ok p ∧
      (ofSources sources).content "b.vt" = .ok q ∧
      p.successors "a.vt" = ["b.vt", "a.vt", "b.vt"] ∧ q.successors "b.vt" = ["a.vt"] ∧
      [("a.vt", p), ("b.vt", q)].flatMap Graph.contentEdges =
        [⟨"a.vt", "b.vt", .extend⟩, ⟨"a.vt", "a.vt", .extend⟩, ⟨"a.vt", "b.vt", .use⟩,
          ⟨"b.vt", "a.vt", .extend⟩] :=
    ⟨_, _, rfl, rfl, by decide, by decide, by decide⟩
  obtain ⟨p, q, hp, hq, ha, hb, hedges⟩ := hcontent
  have hex : Explores (ofSources sources).content [] [Path.canonical "a.vt" none]
      [("a.vt", p), ("b.vt", q)] none := by
    rw [hroot]
    refine .find (by decide) hp ?_
    rw [Walk.pendingAfter, ha]
    refine .find (by decide) hq ?_
    rw [Walk.pendingAfter, hb]
    exact .drop (by decide) (.drop (by decide) (.drop (by decide) (.done _)))
  obtain ⟨g, hg, -, hnodes, -⟩ := resolve_of_explores hex
  obtain ⟨d, hd, hshown, hdepicted, -, -⟩ := resolve_digraph hg
  have hlib : lib.IsDocumented := MultigraphLibrary.isDocumented_ofDigraphs
  rw [← hnodes, ← Graph.edges_eq_content] at hedges
  refine ⟨g, d, hg, hd, hlib, hshown lib hlib, hdepicted, hdepicted.edges_eq.trans hedges, ?_⟩
  rw [Graph.shared, hedges, Graph.sortNames, List.mergeSort_of_pairwise (by decide)]
  decide

end Session

end StackFront
