import StackFront.Path
import StackFront.Program

/-!
# Dependency graphs

A graph holds the programs that were reached from a root, in the order in which they were reached.
Programs refer to each other by canonical name; the linked programs are looked up in the graph.
-/
namespace StackFront

/-- A program held by a session. Its serial number tells it from all other objects of the session,
equal ones included. -/
structure Loaded where
  serial : Nat
  program : Program
  deriving DecidableEq

namespace Program

/-- The canonical names of the targets of one kind, as seen from the file of the given name. -/
def linkNames (p : Program) (name : Name) (kind : LinkKind) : List Name :=
  (p.targetsOf kind).map fun target => Path.canonical target (some name)

/-- The canonical names of all targets, extended ones first. -/
def successors (p : Program) (name : Name) : List Name :=
  p.linkNames name .extend ++ p.linkNames name .use

end Program

/-- One program of a graph under its canonical name. -/
structure Node where
  name : Name
  loaded : Loaded
  deriving DecidableEq

namespace Node

def program (n : Node) : Program := n.loaded.program

/-- The names that a program refers to in one way. -/
def links (n : Node) (kind : LinkKind) : List Name :=
  n.program.linkNames n.name kind

end Node

/-- One declaration, seen as an edge. -/
structure Edge where
  source : Name
  target : Name
  kind : LinkKind
  deriving DecidableEq

/-- The programs reached from a root. -/
structure Graph where
  root : Name
  nodes : List Node

namespace Graph

/-- The names of the programs, in the order in which they were reached. -/
def names (g : Graph) : List Name :=
  g.nodes.map (·.name)

def size (g : Graph) : Nat :=
  g.nodes.length

/-- The node of a name. -/
def find? (g : Graph) (name : Name) : Option Node :=
  g.nodes.find? fun n => n.name = name

/-- The program of a name. -/
def get? (g : Graph) (name : Name) : Option Loaded :=
  (g.find? name).map (·.loaded)

/-- Pairs names with their programs, if the graph has them all. -/
def withPrograms? (g : Graph) : List Name → Option (List (Name × Loaded))
  | [] => some []
  | name :: rest =>
    match g.get? name, g.withPrograms? rest with
    | some loaded, some tail => some ((name, loaded) :: tail)
    | _, _ => none

/-- The programs that the program of a name refers to in one way, in declaration order. -/
def linked? (g : Graph) (name : Name) (kind : LinkKind) : Option (List (Name × Loaded)) :=
  match g.find? name with
  | none => none
  | some n => g.withPrograms? (n.links kind)

/-- The edges that leave a node: extended programs first, each kind in declaration order. -/
def nodeEdges (n : Node) : List Edge :=
  (n.links .extend).map (fun target => ⟨n.name, target, .extend⟩) ++
    (n.links .use).map fun target => ⟨n.name, target, .use⟩

/-- One edge for every declaration, in graph order. -/
def edges (g : Graph) : List Edge :=
  g.nodes.flatMap nodeEdges

end Graph

end StackFront
