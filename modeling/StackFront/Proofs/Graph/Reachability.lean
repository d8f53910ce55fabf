import StackFront.Proofs.Lookup
import StackFront.Proofs.Walk.Outcome

/-!
# What a resolved graph shows

Resolving a root succeeds if and only if everything that is reachable from it can be loaded, and
the graph then consists of just that: each reachable name once with its program, and no reference
that leads out of it.
-/
namespace StackFront

namespace Graph

variable {g : Graph} {name : Name} {n : Node}

/-- Names that are all in a graph can be paired with their programs. -/
theorem withPrograms?_eq_some {names : List Name}
    (h : ∀ name ∈ names, ∃ loaded, g.get? name = some loaded) :
    ∃ linked, g.withPrograms? names = some linked ∧ linked.map Prod.fst = names ∧
      ∀ q ∈ linked, g.get? q.1 = some q.2 := by
  induction names with
  | nil => exact ⟨[], rfl, rfl, by simp⟩
  | cons name rest ih =>
    rw [List.forall_mem_cons] at h
    obtain ⟨⟨loaded, hloaded⟩, hrest⟩ := h
    obtain ⟨tail, htail, hnames, hget⟩ := ih hrest
    refine ⟨(name, loaded) :: tail, ?_, ?_, List.forall_mem_cons.mpr ⟨hloaded, hget⟩⟩
    · simp only [withPrograms?, hloaded, htail]
    · rw [List.map_cons, hnames]

theorem mem_edges {e : Edge} :
    e ∈ g.edges ↔ ∃ n ∈ g.nodes, e.source = n.name ∧ e.target ∈ n.links e.kind := by
  obtain ⟨source, target, kind⟩ := e
  simp only [edges, nodeEdges, List.mem_flatMap, List.mem_append, List.mem_map, Edge.mk.injEq]
  cases kind <;> aesop

/-- The graph has the root and all that is reachable from it in session `s`, each name once and
with the very program that session `t` knows under it. -/
structure Shows (g : Graph) (root : Name) (s t : Session) : Prop where
  root_eq : g.root = root
  mem_names : ∀ name, name ∈ g.names ↔ s.content.Reaches root name
  nodup : g.names.Nodup
  get : ∀ name ∈ g.names, ∃ loaded, g.get? name = some loaded ∧
    t.program? name = some loaded ∧ s.content name = .ok loaded.program
  edge : ∀ e ∈ g.edges, e.source ∈ g.names ∧ e.target ∈ g.names
  linked : ∀ name ∈ g.names, ∀ kind, ∃ loaded linked, g.get? name = some loaded ∧
    g.linked? name kind = some linked ∧
    linked.map Prod.fst = loaded.program.linkNames name kind ∧
    ∀ q ∈ linked, g.get? q.1 = some q.2

/-- In a graph that has come about by an exploration, references lead to names of the graph. -/
theorem links_mem_names {s : Session} {root : Name}
    (h : Explores s.content [] [root] (g.nodes.map Node.content) none) (hn : n ∈ g.nodes)
    {kind : LinkKind} {target : Name} (ht : target ∈ n.links kind) : target ∈ g.names := by
  have hclosed := (h.found_closed rfl).2 n.content (List.mem_map_of_mem hn) target
  simp only [List.not_mem_nil, false_or, List.map_map] at hclosed
  apply hclosed
  rw [Program.successors, List.mem_append]
  cases kind
  · exact .inl ht
  · exact .inr ht

theorem shows_of_explores {root : Name} {s t : Session}
    (h : Explores s.content [] [root] (g.nodes.map Node.content) none) (hroot : g.root = root)
    (hknown : ∀ n ∈ g.nodes, t.program? n.name = some n.loaded) : g.Shows root s t := by
  have hnames : (g.nodes.map Node.content).map Prod.fst = g.names := by
    rw [List.map_map]
    rfl
  have hnodup : g.names.Nodup := hnames ▸ h.found_nodup
  refine ⟨hroot, fun name => ?_, hnodup, fun name hname => ?_, fun e he => ?_,
    fun name hname kind => ?_⟩
  · rw [← hnames]
    exact h.mem_found_iff name
  · obtain ⟨n, hn, rfl⟩ := List.mem_map.mp hname
    exact ⟨n.loaded, get?_name hnodup hn, hknown n hn,
      h.found_eq n.content (List.mem_map_of_mem hn)⟩
  · obtain ⟨n, hn, hsource, htarget⟩ := mem_edges.mp he
    exact ⟨hsource ▸ List.mem_map_of_mem hn, links_mem_names h hn htarget⟩
  · obtain ⟨n, hn, rfl⟩ := List.mem_map.mp hname
    have htargets : ∀ target ∈ n.links kind, ∃ loaded, g.get? target = some loaded :=
      fun target ht => exists_get? hnodup (links_mem_names h hn ht)
    obtain ⟨linked, hlinked, hfst, hget⟩ := withPrograms?_eq_some htargets
    refine ⟨n.loaded, linked, get?_name hnodup hn, ?_, hfst, hget⟩
    simp only [linked?, find?_name hnodup hn, hlinked]

end Graph

namespace Session

/-- Resolving succeeds exactly if all that is reachable can be loaded. -/
theorem resolve_ok_iff {s : Session} {spelled : String} :
    (∃ g, (s.resolve spelled).1 = .ok g) ↔
      ∀ name, s.content.Reaches (Path.canonical spelled none) name → s.CanLoad name := by
  constructor
  · rintro ⟨g, hg⟩ name hname
    obtain ⟨hex, -, -⟩ := explores_of_resolve hg
    obtain ⟨q, hq, rfl⟩ := List.mem_map.mp ((hex.mem_found_iff name).mpr hname)
    exact canLoad_iff.mpr ⟨q.2, hex.found_eq q hq⟩
  · intro hall
    obtain ⟨found, stop, hex, -⟩ := s.resolve_explores spelled
    cases stop with
    | none =>
      obtain ⟨g, hg, -⟩ := resolve_of_explores hex
      exact ⟨g, hg⟩
    | some q =>
      -- the name at which the exploration stops is reachable, but cannot be loaded
      obtain ⟨m, hm, hreach⟩ := hex.stop_reached q rfl
      rw [List.mem_singleton.mp hm] at hreach
      obtain ⟨p, hp⟩ := canLoad_iff.mp (hall q.1 hreach)
      rw [hex.stop_eq q rfl] at hp
      cases hp

/-- Resolving returns a graph exactly if all that is reachable from the root can be loaded, and each
graph that it returns shows just that. -/
theorem resolve_shows_reachable (s : Session) (spelled : String) :
    ((∃ g, (s.resolve spelled).1 = .ok g) ↔
      ∀ name, s.content.Reaches (Path.canonical spelled none) name → s.CanLoad name) ∧
    ∀ g, (s.resolve spelled).1 = .ok g →
      g.Shows (Path.canonical spelled none) s (s.resolve spelled).2 := by
  refine ⟨resolve_ok_iff, fun g hg => ?_⟩
  obtain ⟨hex, hroot, hknown⟩ := explores_of_resolve hg
  exact Graph.shows_of_explores hex hroot hknown

end Session

end StackFront
