import StackFront.Analysis.Cycles
import StackFront.Enrichment
import StackFront.Program.Printer

/-!
# Reports

The texts that the command line prints about a graph, a listing and the course of a session.
-/
namespace StackFront.CommandLine

/-- Lines, each with a line feed at its end. -/
def lines (ls : List String) : String :=
  String.join (ls.map fun l => l ++ "\n")

/-- Names in round brackets. -/
def tuple (names : List Name) : String :=
  Json.shownTuple (names.map .string)

/-- What was noted on an instruction besides its category, under the names of the notes. -/
def noteEntries (notes : Notes) : List (String × String) :=
  [notes.methodCount.map fun n => ("method_count", toString n),
    notes.extendNames.map fun names => ("extends", tuple names),
    notes.useNames.map fun names => ("uses", tuple names),
    notes.seen.map fun n => ("seen", toString n)].reduceOption

/-- The notes of an instruction in braces, or nothing. -/
def noteText (notes : Notes) : String :=
  match noteEntries notes with
  | [] => ""
  | entries =>
    " \x7b" ++ ", ".intercalate (entries.map fun e => Text.quote e.1 ++ ": " ++ e.2) ++ "\x7d"

/-- A number with blanks before it, three characters wide or wider. -/
def wide (n : Nat) : String :=
  let digits := toString n
  String.ofList (List.replicate (3 - digits.length) ' ') ++ digits

/-- The line of an instruction. -/
def instructionLine (i : Instruction) : String :=
  let value := (i.value?.map fun v => " " ++ v.spliced).getD ""
  let category := ((i.notes.category.map Category.name).getD "")
  s!"  {wide i.position} {i.name}{value} [{category}]" ++ noteText i.notes

/-- The report on the enriched method of a graph. -/
def methodReport (g : Graph) (method : Int) (listing : Listing) : String :=
  lines <|
    [s!"Root: {g.root} ({g.size} programs)", "",
      s!"Method {method} ({listing.instructions.length} instructions):"] ++
      listing.instructions.map instructionLine

/-- The lines of the methods, the first of which has the given index. -/
def methodLines (index : Nat) : List String → List String
  | [] => []
  | line :: rest => s!"  [{index}] {line}" :: methodLines (index + 1) rest

/-- A program with its methods and the programs it refers to. -/
def nodeLines (root : Name) (n : Node) : Except BadValue (List String) :=
  (Program.formatMethods n.program.methods).map fun methods =>
    (if n.name = root then n.name ++ " (root)" else n.name) :: methodLines 0 methods ++
      (n.links .extend).map (fun name => s!"  extends {name}") ++
      (n.links .use).map fun name => s!"  uses {name}"

/-- The programs of a graph, one after the other. -/
def graphLines (root : Name) : List Node → Except BadValue (List String)
  | [] => .ok []
  | n :: rest =>
    match nodeLines root n with
    | .error e => .error e
    | .ok head => (graphLines root rest).map (head ++ ·)

/-- The text of a whole graph. -/
def graphText (g : Graph) : Except BadValue String :=
  (graphLines g.root g.nodes).map lines

/-- The report on cycles and on programs that several others refer to. -/
def cycleReport (g : Graph) : String :=
  let cycles := g.cycles
  let shared := g.shared
  lines <|
    ["", "Cycles:"] ++
      (if cycles = [] then ["  (none)"]
        else cycles.map fun cycle => "  " ++ " -> ".intercalate cycle) ++
      if shared = [] then [] else ["Shared: " ++ ", ".intercalate shared]

/-- The line of an event in the log. -/
def eventLine : Event → String
  | .read name =>
    let path := String.ofList (Path.tidy name.toList)
    s!"DEBUG vt.frontend.loader: reading {path}"
  | .parsed name methods extendTargets useTargets =>
    s!"DEBUG vt.frontend.parser: parsed {name}: {methods} methods, {extendTargets} extends, " ++
      s!"{useTargets} uses"
  | .programKnown name => s!"DEBUG vt.frontend.resolver: program cache hit for {name}"
  | .resolved root count => s!"DEBUG vt.frontend.resolver: resolved {root}: {count} programs"
  | .listingKnown name index =>
    s!"DEBUG vt.frontend.enrich: enrichment cache hit for {name}[{index}]"
  | .enriched name index count =>
    s!"DEBUG vt.frontend.enrich: enriched {name}[{index}]: {count} instructions"

end StackFront.CommandLine
