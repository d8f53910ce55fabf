import StackFront.Analysis.Profile
import StackFront.Fault
import StackFront.Graph

/-!
# Dependency digraphs

A graph seen as a directed multigraph: one vertex for each program with what is known of it, one
arrow for each declaration. Parallel arrows are told apart by a key that counts from zero. The
vertices are added first; an arrow brings its ends along if they are not there yet, but nothing is
known of such an end.
-/
namespace StackFront

/-- A program as a vertex. -/
structure Vertex where
  name : Name
  methods : Nat
  category : Option Category
  isRoot : Bool
  deriving DecidableEq

/-- A declaration as an arrow; `key` counts the earlier arrows between the same ends. -/
structure Arrow where
  source : Name
  target : Name
  key : Nat
  kind : LinkKind
  deriving DecidableEq

/-- A directed multigraph of programs. -/
structure Digraph where
  root : Name
  vertices : List Vertex := []
  /-- The ends of arrows that are no vertices, in the order in which arrows brought them along. -/
  bare : List Name := []
  arrows : List Arrow := []

namespace Digraph

/-- Whether there is a vertex of a name. -/
def hasVertex (d : Digraph) (name : Name) : Bool :=
  d.vertices.any fun v => v.name = name

/-- Adds a vertex; one of the same name is replaced. -/
def addVertex (d : Digraph) (v : Vertex) : Digraph :=
  { d with vertices :=
      if d.hasVertex v.name then d.vertices.map fun u => if u.name = v.name then v else u
      else d.vertices ++ [v] }

/-- Makes a name an end that arrows may have. -/
def addEnd (d : Digraph) (name : Name) : Digraph :=
  if d.hasVertex name || name ∈ d.bare then d else { d with bare := d.bare ++ [name] }

/-- The arrows from one name to another, earliest first. -/
def between (d : Digraph) (source target : Name) : List Arrow :=
  d.arrows.filter fun a => a.source = source && a.target = target

/-- Adds an edge as the last arrow between its ends. -/
def addEdge (d : Digraph) (e : Edge) : Digraph :=
  let d := (d.addEnd e.source).addEnd e.target
  let key := (d.between e.source e.target).length
  { d with arrows := d.arrows ++ [⟨e.source, e.target, key, e.kind⟩] }

/-- What is known of a program in a graph with the given root. -/
def vertexOf (root : Name) (n : Node) : Vertex :=
  ⟨n.name, n.program.methods.length, n.program.dominant, n.name = root⟩

/-- The vertices of a graph, without arrows. -/
def ofNodes (g : Graph) : Digraph :=
  (g.nodes.map (vertexOf g.root)).foldl addVertex { root := g.root }

/-- The digraph of a graph. -/
def ofGraph (g : Graph) : Digraph :=
  g.edges.foldl addEdge (ofNodes g)

end Digraph

/-- The optional tools that are at hand. -/
structure Tools where
  analysis : Bool := true
  drawing : Bool := true

/-- The digraph of a graph, for which the tools of analysis are needed. -/
def Tools.digraph (tools : Tools) (g : Graph) : Except Fault Digraph :=
  if tools.analysis then .ok (.ofGraph g) else .error Inability.analysisTools

namespace Graph

/-- Names in increasing order. -/
def sortNames (names : List Name) : List Name :=
  names.mergeSort fun a b => !(b < a)

/-- The distinct programs that refer to a name. -/
def sourcesOf (edges : List Edge) (name : Name) : List Name :=
  ((edges.filter fun e => e.target = name).map (·.source)).eraseDups

/-- The names that more than one program refers to, in increasing order. -/
def shared (g : Graph) : List Name :=
  let edges := g.edges
  sortNames ((edges.map (·.target)).eraseDups.filter fun name =>
    1 < (sourcesOf edges name).length)

end Graph

end StackFront
