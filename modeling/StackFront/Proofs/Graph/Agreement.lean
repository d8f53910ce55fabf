import StackFront.Proofs.Graph.Reachability

/-!
# Graphs that say the same

Graphs of different sessions hold different objects. They agree if they cannot be told apart
otherwise: by the root, the names and their order, the programs and the edges. All of this depends
on the names and programs of the nodes alone.
-/
namespace StackFront

namespace Graph

/-- The graphs are the same but for the serial numbers of their programs. -/
structure Agrees (g h : Graph) : Prop where
  root : g.root = h.root
  names : g.names = h.names
  program : ∀ name, (g.get? name).map Loaded.program = (h.get? name).map Loaded.program
  edges : g.edges = h.edges

theorem names_eq_content (g : Graph) : g.names = (g.nodes.map Node.content).map Prod.fst := by
  rw [List.map_map]
  rfl

theorem get?_eq_content (g : Graph) (name : Name) :
    (g.get? name).map Loaded.program =
      ((g.nodes.map Node.content).find? fun q => q.1 = name).map Prod.snd := by
  rw [get?, find?, List.find?_map, Option.map_map, Option.map_map]
  rfl

/-- The edges that leave a name with its program. -/
def contentEdges (q : Name × Program) : List Edge :=
  (q.2.linkNames q.1 .extend).map (fun target => ⟨q.1, target, .extend⟩) ++
    (q.2.linkNames q.1 .use).map fun target => ⟨q.1, target, .use⟩

theorem edges_eq_content (g : Graph) :
    g.edges = (g.nodes.map Node.content).flatMap contentEdges := by
  rw [List.flatMap_map]
  rfl

theorem Agrees.of_content {g h : Graph} (hroot : g.root = h.root)
    (hnodes : g.nodes.map Node.content = h.nodes.map Node.content) : g.Agrees h where
  root := hroot
  names := by rw [names_eq_content, hnodes, ← names_eq_content]
  program name := by rw [get?_eq_content, hnodes, ← get?_eq_content]
  edges := by rw [edges_eq_content, hnodes, ← edges_eq_content]

/-- Two attempts at a graph come to the same: to graphs that agree, or to one and the same fault,
with its cause, its file and its chain of references. -/
inductive SameOutcome : Except Fault Graph → Except Fault Graph → Prop
  | graph {g h : Graph} (hgraph : g.Agrees h) : SameOutcome (.ok g) (.ok h)
  | fault (f : Fault) : SameOutcome (.error f) (.error f)

end Graph

namespace Session

variable {s t : Session} {spelled : String}

/-- The root and the referrers at the start are all that an exploration adds to what is found. -/
theorem resolve_referrers {found : List (Name × Program)} {stop : Option (Name × Fault)}
    (h : Explores s.content [] [Path.canonical spelled none] found stop) :
    (s.resolve spelled).2.referrers =
      Referrers.after [(Path.canonical spelled none, none)] found :=
  (resolve_ends h).referrers

/-- Resolving depends on nothing but what the names stand for: neither on where a program comes
from nor on what the session did before. -/
theorem resolve_congr (h : s.content = t.content) (spelled : String) :
    Graph.SameOutcome (s.resolve spelled).1 (t.resolve spelled).1 := by
  obtain ⟨found, stop, hs, -⟩ := s.resolve_explores spelled
  have ht := hs
  rw [h] at ht
  cases stop with
  | none =>
    obtain ⟨g, hg, hroot, hnodes, -⟩ := resolve_of_explores hs
    obtain ⟨g', hg', hroot', hnodes', -⟩ := resolve_of_explores ht
    rw [hg, hg']
    exact .graph (.of_content (hroot.trans hroot'.symm) (hnodes.trans hnodes'.symm))
  | some q =>
    obtain ⟨name, f⟩ := q
    have hreferrers : (s.resolve spelled).2.referrers = (t.resolve spelled).2.referrers :=
      (resolve_referrers hs).trans (resolve_referrers ht).symm
    rw [resolve_of_stop hs, resolve_of_stop ht, Walk.trace_congr hreferrers]
    exact .fault _

end Session

end StackFront
