import StackFront.CommandLine.Run
import StackFront.Drawing.Dot
import StackFront.Moment
import Std.Time.DateTime

/-!
# The program

Runs the command line on the files of the machine. All that a run can look at is read into a file
tree first, the run is computed on that tree, and what it changed there is then written back.
-/
namespace StackFront.Main

/-- The present moment. -/
def now : IO Moment := do
  let stamp ← Std.Time.Timestamp.now
  let wall := Std.Time.WallTime.ofNanoseconds stamp.toNanosecondsSinceUnixEpoch
  let t := Std.Time.PlainDateTime.ofWallTime wall
  return {
    year := t.date.year.toNat
    month := t.date.month.val.toNat
    day := t.date.day.val.toNat
    hour := t.time.hour.val.toNat
    minute := t.time.minute.val.toNat
    second := t.time.second.val.toNat
    microsecond := t.time.nanosecond.val.toNat / 1000 }

/-- The path of a place from the top of the file system on. -/
def pathOf (place : Location) : String :=
  String.ofList ('/' :: Text.joinWith '/' place)

/-- Adds to a tree what stands on disk at a place. What may not be read is entered as a directory if
a path goes on from there, and else as a file without octets. -/
def learnAt (tree : FileTree) (place : Location) (goesOn : Bool) : IO FileTree := do
  try
    let octets ← IO.FS.readBinFile (pathOf place)
    return tree.put place (.file octets.toList)
  catch
    | .inappropriateType .. => return tree.put place .directory
    | .noFileOrDirectory .. => return tree
    | .permissionDenied .. =>
      let tree := tree.put place (if goesOn then .directory else .file [])
      return { tree with forbidden := (place, .read) :: tree.forbidden }
    | e => throw e

/-- Adds to a tree what stands on disk at a place and where the parts after it lead, up to a file.
Missing places are passed as well: a run may make them. -/
def learnFrom (tree : FileTree) (place : Location) (parts : List (List Char)) : IO FileTree := do
  let tree ←
    if (tree.lookup place).isSome then pure tree else learnAt tree place (!parts.isEmpty)
  match parts, tree.lookup place with
  | [], _ | _, some (.file _) => return tree
  | part :: rest, _ =>
    if FileTree.octetCount part > FileTree.maxPart then return tree
    else learnFrom tree (FileTree.go place part) rest

/-- Adds to a tree what stands on disk at the end of a path and at all places that it passes. -/
def learn (tree : FileTree) (path : List Char) : IO FileTree :=
  learnFrom tree (tree.start path) (FileTree.partsOf path)

/-- The names that the source of a name refers to, if it can be read. -/
def successors (tree : FileTree) (name : Name) : List Name :=
  match (({ store := ({ tree } : Folder).store } : Session).load name).1 with
  | .ok loaded => loaded.program.linkNames name .extend ++ loaded.program.linkNames name .use
  | .error _ => []

/-- Adds to a tree the sources of some names and all that they refer to. -/
partial def learnSources (tree : FileTree) (seen : List Name) : List Name → IO FileTree
  | [] => return tree
  | name :: rest => do
    if name ∈ seen then learnSources tree seen rest
    else
      let tree ← learn tree (Folder.pathOf none name)
      learnSources tree (name :: seen) (successors tree name ++ rest)

/-- A tree of all files that a run with these options can look at. -/
def snapshot (o : CommandLine.Options) : IO FileTree := do
  let cwd ← IO.currentDir
  let tree : FileTree := { cwd := FileTree.partsOf cwd.toString.toList }
  let outputs := [o.hash, o.image, o.graphviz].filter (· ≠ "")
  let tree ← outputs.foldlM (fun tree path => learn tree path.toList) tree
  if o.hash = "" ∧ o.source ≠ "" then
    learnSources tree [] [Path.canonical o.source none]
  else return tree

/-- Writes back the entries of a tree that were not there before. -/
def restore (before after : FileTree) : IO Unit :=
  (after.entries.filter (· ∉ before.entries)).forM fun (place, entry) =>
    match entry with
    | .directory => IO.FS.createDirAll (pathOf place)
    | .file octets => IO.FS.writeBinFile (pathOf place) ⟨octets.toArray⟩

/-- The code with which a run ends; a fault while results are written out is shown. -/
def exitCode : CommandLine.Ending → IO UInt32
  | .exit code => return UInt32.ofNat code
  | .fault f => do
    IO.eprintln f.describe
    return 1

end StackFront.Main

/-- Runs the command line. -/
def main (arguments : List String) : IO UInt32 := do
  let tree ←
    match StackFront.CommandLine.parse arguments with
    | .ok (.run o) => StackFront.Main.snapshot o
    | _ => pure {}
  let clock := (← StackFront.Main.now).text
  let outcome := StackFront.CommandLine.run StackFront.Dot.tools clock tree arguments
  StackFront.Main.restore tree outcome.tree
  IO.print outcome.out
  IO.eprint outcome.err
  StackFront.Main.exitCode outcome.ending
