import StackFront.CommandLine.Arguments
import StackFront.CommandLine.Report
import StackFront.Image
import StackFront.Toolbox

/-!
# Runs of the command line

A run is a function of its arguments, the files and tools it finds and the time at which it writes:
it prints to two streams, may write files and ends with a code. Faults of reading and enriching are
reported and give the code 1; a fault while results are written out ends the run at once.
-/
namespace StackFront.CommandLine

/-- The lines that come before every error in the arguments. -/
def usage : String := lines [
  "usage: vt [-h] [--method METHOD] [--dump] [--cycles] [--graphviz OUTPUT]",
  "          [--visualize] [--image OUTPUT] [--hash IMAGE] [-v]",
  "          [source]"]

/-- The text of `--help`. -/
def help : String := usage ++ lines [
  "",
  "vt front end: parse, resolve and enrich",
  "",
  "positional arguments:",
  "  source             Root .vt source file",
  "",
  "options:",
  "  -h, --help         show this help message and exit",
  "  --method METHOD    Method index of the root file to enrich (default: entry",
  "                     method)",
  "  --dump             Print every resolved program",
  "  --cycles           Report extend/use cycles and shared dependencies",
  "  --graphviz OUTPUT  Export a Graphviz dependency visualization to an SVG file",
  "  --visualize        Render the dependency graph",
  "  --image OUTPUT     Write a .vt.json image",
  "  --hash IMAGE       Compute hash of a .vt.json image",
  "  -v, --verbose      Log cache and loader activity"]

/-- How a run ends. -/
inductive Ending where
  | exit (code : Nat)
  | fault (f : Fault)

/-- All that a run does. -/
structure Outcome where
  ending : Ending
  out : String
  err : String
  tree : FileTree

/-- Whether a fault of reading or enriching is reported; a value of the wrong shape is not. -/
def isReported (f : Fault) : Bool :=
  match f.cause with
  | .inability _ | .misfit _ => false
  | _ => true

/-- The line that reports a fault. -/
def faultLine (f : Fault) : String :=
  s!"✗ {f.describe}\n"

/-- Ends a run by a fault, after `err` has been printed. -/
def failed (tree : FileTree) (err : String) (f : Fault) : Outcome :=
  if isReported f then ⟨.exit 1, "", err ++ faultLine f, tree⟩ else ⟨.fault f, "", err, tree⟩

/-- Prints the digest of the image at a path. -/
def runHash (tree : FileTree) (path : String) : Outcome :=
  match (Image.load tree path).bind Image.digest with
  | .error f => failed tree "" f
  | .ok digest => ⟨.exit 0, s!"SHA256({path}) = {digest}\n", "", tree⟩

/-- Results that are being written out: what was printed so far and the files as they are now. -/
structure Output where
  text : String
  tree : FileTree

/-- One way of writing results out. It may print before it fails. -/
abbrev Export := Output → Output × Except Fault Unit

/-- Does nothing unless asked for. -/
def Export.onlyIf (wanted : Bool) (e : Export) : Export := fun o =>
  if wanted then e o else (o, .ok ())

/-- Exports one after the other, up to the first that fails. -/
def Export.sequence : List Export → Export
  | [], o => (o, .ok ())
  | e :: rest, o =>
    match e o with
    | (o, .ok ()) => sequence rest o
    | (o, .error f) => (o, .error f)

/-- Prints a text. -/
def Export.print (text : String) : Export := fun o =>
  ({ o with text := o.text ++ text }, .ok ())

/-- Prints every program. -/
def exportDump (g : Graph) : Export := fun o =>
  match graphText g with
  | .error e => (o, .error e)
  | .ok text => Export.print ("\n" ++ text) o

/-- Writes the image of a graph. -/
def exportImage (clock : String) (g : Graph) (path : String) : Export := fun o =>
  match Image.ofGraph clock g with
  | .error e => (o, .error e)
  | .ok doc =>
    match Image.save o.tree path doc with
    | (tree, .error f) => ({ o with tree }, .error f)
    | (tree, .ok ()) => Export.print s!"  ✓ vt image exported → {path}\n" { o with tree }

/-- Makes the directory that a file is going to be written in, unless something stands there. -/
def makeParent (tree : FileTree) (path : List Char) : FileTree × Except Fault Unit :=
  let root := Path.root path
  let parts := (Path.properParts path).dropLast
  let parent := Path.render root parts
  if '\x00' ∈ parent then (tree, .error BadValue.nulInPath)
  else
    match tree.find parent with
    | .ok _ => (tree, .ok ())
    | .error .notFound | .error .notDirectory => tree.makeDirectories root parts.reverse
    | .error r => (tree, .error (.refused r (String.ofList parent)))

/-- Reports cycles and shared programs. The report begins before the tools of analysis are used. -/
def exportCycles (tools : Toolbox) (g : Graph) : Export := fun o =>
  if tools.analysis then Export.print (cycleReport g) o
  else ({ o with text := o.text ++ "\nCycles:\n" }, .error Misfit.noMembers)

/-- Writes the picture of a graph. -/
def exportDrawing (tools : Toolbox) (g : Graph) (output : String) : Export := fun o =>
  match tools.draw g with
  | .error f => (o, .error f)
  | .ok drawing =>
    match makeParent o.tree output.toList with
    | (tree, .error f) => ({ o with tree }, .error f)
    | (tree, .ok ()) =>
      let path := String.ofList (Path.tidy output.toList)
      match tools.picture drawing path tree with
      | (tree, .error f) => ({ o with tree }, .error f)
      | (tree, .ok ()) =>
        Export.print s!"  ✓ Graphviz visualization exported → {path}\n" { o with tree }

/-- Shows a graph on the screen. -/
def exportScreen (tools : Toolbox) (g : Graph) : Export := fun o =>
  (o, tools.visualize g)

/-- All that the options ask for once a method is enriched, in the order in which it is done. -/
def exports (tools : Toolbox) (clock : String) (o : Options) (g : Graph) : List Export := [
  .onlyIf o.dump (exportDump g),
  .onlyIf o.cycles (exportCycles tools g),
  .onlyIf (o.image ≠ "") (exportImage clock g o.image),
  .onlyIf (o.graphviz ≠ "") (exportDrawing tools g o.graphviz),
  .onlyIf o.visualize (exportScreen tools g)]

/-- The log of a session, if it is wanted. -/
def log (verbose : Bool) (s : Session) : String :=
  if verbose then lines (s.events.map eventLine) else ""

/-- Resolves the root and enriches the method that is asked for. -/
def prepare (s : Session) (o : Options) : Except Fault (Graph × Int × Listing) × Session :=
  match s.resolve o.source with
  | (.error f, s) => (.error f, s)
  | (.ok g, s) =>
    match o.method with
    | none => (.error Misfit.wrongType, s)
    | some index =>
      match s.method .standard g.root index with
      | (.error f, s) => (.error f, s)
      | (.ok listing, s) => (.ok (g, index, listing), s)

/-- Reads, enriches and reports a source file. -/
def runSource (tools : Toolbox) (clock : String) (tree : FileTree) (o : Options) : Outcome :=
  match prepare { store := ({ tree } : Folder).store } o with
  | (.error f, s) => failed tree (log o.verbose s) f
  | (.ok (g, index, listing), s) =>
    let err := log o.verbose s
    match Export.sequence (exports tools clock o g) ⟨methodReport g index listing, tree⟩ with
    | (o, .ok ()) => ⟨.exit 0, o.text, err, o.tree⟩
    | (o, .error f) => ⟨.fault f, o.text, err, o.tree⟩

/-- A run with options that have been read. -/
def runOptions (tools : Toolbox) (clock : String) (tree : FileTree) (o : Options) : Outcome :=
  if o.hash ≠ "" then runHash tree o.hash
  else if o.source = "" then ⟨.exit 2, "", "✗ No file specified.\n", tree⟩
  else runSource tools clock tree o

/-- A run of the command line. -/
def run (tools : Toolbox) (clock : String) (tree : FileTree) (arguments : List String) : Outcome :=
  match parse arguments with
  | .error e => ⟨.exit 2, "", usage ++ s!"vt: error: {e.message}\n", tree⟩
  | .ok .help => ⟨.exit 0, help, "", tree⟩
  | .ok (.run o) => runOptions tools clock tree o

end StackFront.CommandLine
