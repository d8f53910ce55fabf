import StackFront.Analysis.Digraph

/-!
# Cycles

The elementary cycles of a graph, parallel references taken as one. Each cycle is found once, from
its smallest name on: from there only greater names are passed. Wherever there is a choice, all
names are dropped from which the smallest one cannot be reached again without a name passed before,
so that no way is tried in vain. Trying the closing reference first and then the names in order
makes the list of cycles increasing.
-/
namespace StackFront

/-- A name with the names that its program refers to. -/
structure Spoke where
  name : Name
  targets : List Name
  deriving DecidableEq

namespace Spoke

/-- Whether a program refers to one of some names. -/
def refersToAny (s : Spoke) (names : List Name) : Bool :=
  s.targets.any fun target => target ∈ names

/-- Those of `spokes` that lead to one of the names in `latest`, perhaps through each other, in at
most `rounds` steps. -/
def leadingTo : (rounds : Nat) → (latest : List Name) → (spokes : List Spoke) → List Name
  | 0, _, _ => []
  | rounds + 1, latest, spokes =>
    let found := (spokes.filter fun s => s.refersToAny latest).map (·.name)
    if found = [] then []
    else found ++ leadingTo rounds found (spokes.filter fun s => !s.refersToAny latest)

/-- Those of `spokes` that lead to `start`, perhaps through each other. -/
def leadingBack (start : Name) (spokes : List Spoke) : List Spoke :=
  let leading := leadingTo spokes.length [start] spokes
  spokes.filter fun s => s.name ∈ leading

/-- Whether one can go on from a spoke in more than one way, to `start` or to one of `through`. -/
def hasChoice (s : Spoke) (start : Name) (through : List Spoke) : Bool :=
  1 < (s.targets.filter fun target => target = start || through.any (·.name = target)).length

/-- The ways from `current` back to `start` through the spokes in `through`, each at most once.
Where there is no choice the spokes are not looked through: the only way to go on is one that leads
back wherever any does. -/
def returns (start : Name) : (fuel : Nat) → (through : List Spoke) → (current : Spoke) →
    List (List Name)
  | 0, _, current => if start ∈ current.targets then [[current.name]] else []
  | fuel + 1, through, current =>
    let through := if current.hasChoice start through then leadingBack start through else through
    (if start ∈ current.targets then [[current.name]] else []) ++
      (through.filter fun s => s.name ∈ current.targets).flatMap fun next =>
        (returns start fuel (through.filter fun s => s.name ≠ next.name) next).map
          (current.name :: ·)

/-- The cycles whose smallest name is that of `start`, where `greater` are the spokes after it. -/
def cyclesFrom (start : Spoke) (greater : List Spoke) : List (List Name) :=
  let through := leadingBack start.name greater
  returns start.name through.length through start

/-- The cycles through some spokes that stand in the order of their names. -/
def cyclesAmong : List Spoke → List (List Name)
  | [] => []
  | start :: greater => cyclesFrom start greater ++ cyclesAmong greater

end Spoke

namespace Graph

/-- The spokes of a graph in the order of their names. -/
def spokes (g : Graph) : List Spoke :=
  (g.nodes.map fun n => ⟨n.name, (n.links .extend ++ n.links .use).eraseDups⟩).mergeSort
    fun a b => !(b.name < a.name)

/-- The elementary cycles, in increasing order. -/
def cycles (g : Graph) : List (List Name) :=
  Spoke.cyclesAmong g.spokes

end Graph

end StackFront
