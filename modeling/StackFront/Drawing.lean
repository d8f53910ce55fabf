import StackFront.Analysis.Digraph
import StackFront.Program.Printer

/-!
# Drawings

A drawing shows every program of a graph as a cluster of boxes, one for the program and one for each
of its methods, and every declaration as a line between two programs. Identifiers of boxes are
quoted names; the lines of methods are escaped before they become labels.
-/
namespace StackFront

/-- How a part of a drawing looks, in the order in which it is written. -/
abbrev Attributes := List (String × String)

/-- A box. -/
structure Box where
  id : String
  attributes : Attributes

/-- A group of boxes. -/
structure Cluster where
  name : String
  attributes : Attributes
  boxes : List Box

/-- A line from one box to another. -/
structure Line where
  source : String
  target : String
  attributes : Attributes

/-- A drawing of a graph. -/
structure Drawing where
  name : String
  attributes : Attributes
  clusters : List Cluster
  lines : List Line

namespace Drawing

/-- The identifier of a program: its name in double quotes, without those that are part of it. -/
def boxId (name : Name) : String :=
  String.ofList ('\x22' :: name.toList.filter (· ≠ '\x22') ++ ['\x22'])

/-- The identifier of a method. -/
def methodBoxId (name : Name) (index : Nat) : String :=
  s!"{boxId name}_m{index}"

/-- A text in which backslashes and double quotes are escaped by a backslash. -/
def escape (s : List Char) : List Char :=
  s.flatMap fun c => if c = '\\' ∨ c = '\x22' then ['\\', c] else [c]

def programBox (n : Node) : Box where
  id := boxId n.name
  attributes := [
    ("label", s!"{n.name}\\n{n.program.methods.length} methods"),
    ("shape", "box"),
    ("style", "filled"),
    ("fillcolor", (n.program.dominant.map Category.color).getD "#B0BEC5"),
    ("color", "#34495e"),
    ("fontname", "Helvetica")]

def methodBox (name : Name) (index : Nat) (line : String) : Box where
  id := methodBoxId name index
  attributes := [
    ("label", s!"{index}: " ++ String.ofList (escape line.toList)),
    ("shape", "plaintext"),
    ("fontname", "Courier")]

/-- The boxes of method lines, the first of which has the given index. -/
def methodBoxes (name : Name) (index : Nat) : List String → List Box
  | [] => []
  | line :: rest => methodBox name index line :: methodBoxes name (index + 1) rest

/-- The cluster of a program, where it is the one of the given number. -/
def cluster (number : Nat) (n : Node) : Except BadValue Cluster :=
  (Program.formatMethods n.program.methods).map fun lines => {
    name := s!"cluster_program_{number}"
    attributes := [
      ("label", n.name),
      ("color", "#7f8c8d"),
      ("fontname", "Helvetica"),
      ("fontsize", "10"),
      ("style", "rounded")]
    boxes := programBox n :: methodBoxes n.name 0 lines }

/-- The clusters of programs, numbered from `number` on. -/
def clustersFrom (number : Nat) : List Node → Except BadValue (List Cluster)
  | [] => .ok []
  | n :: rest =>
    match cluster number n with
    | .error e => .error e
    | .ok c => (clustersFrom (number + 1) rest).map (c :: ·)

/-- The stroke of a line. -/
def stroke : LinkKind → String
  | .extend => "solid"
  | .use => "dashed"

def line (e : Edge) : Line where
  source := boxId e.source
  target := boxId e.target
  attributes := [
    ("label", e.kind.name),
    ("style", stroke e.kind),
    ("color", "#7f8c8d"),
    ("arrowsize", "0.8")]

/-- The nodes of a graph in the order of their names. -/
def sortedNodes (g : Graph) : List Node :=
  g.nodes.mergeSort fun a b => !(b.name < a.name)

/-- The drawing of a graph. -/
def ofGraph (g : Graph) : Except BadValue Drawing :=
  (clustersFrom 0 (sortedNodes g)).map fun clusters => {
    name := "vt_dependencies"
    attributes := [("rankdir", "LR"), ("splines", "spline"), ("fontname", "Helvetica")]
    clusters
    lines := g.edges.map line }

end Drawing

/-- The drawing of a graph, for which the tools of drawing are needed. -/
def Tools.draw (tools : Tools) (g : Graph) : Except Fault Drawing :=
  if tools.drawing then (Drawing.ofGraph g).mapError fun e => Fault.ofCause (.badValue e)
  else .error Inability.drawingTools

end StackFront
