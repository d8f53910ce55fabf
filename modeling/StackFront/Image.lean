import StackFront.Digest.Sha256
import StackFront.Json.Printer
import StackFront.Program.Printer
import StackFront.Walk

/-!
# Images

An image is a JSON document that holds all programs of a graph as text. It is checked before use, a
graph is rebuilt from it by reading its texts again, and its digest depends neither on the time at
which it was written nor on the order of keys.
-/
namespace StackFront.Image

/-- The version of the format. -/
def version : String := "0.1"

def versionKey : String := "vt_version"
def timestampKey : String := "timestamp"
def rootKey : String := "root"
def programsKey : String := "programs"
def methodsKey : String := "methods"

/-- The key of the targets of one kind. -/
def targetsKey (kind : LinkKind) : String := kind.name

/-- The entry of a program. -/
def entryOf (p : Program) : Except BadValue Json :=
  (Program.formatMethods p.methods).map fun methods =>
    .object [
      (methodsKey, .array (methods.map .string)),
      (targetsKey .extend, .array (p.extendTargets.map .string)),
      (targetsKey .use, .array (p.useTargets.map .string))]

/-- The entries of nodes under their names. -/
def entriesOf : List Node → Except BadValue (List (String × Json))
  | [] => .ok []
  | n :: rest =>
    match entryOf n.program with
    | .error e => .error e
    | .ok entry => (entriesOf rest).map ((n.name, entry) :: ·)

/-- The image of a graph, written at the given time. -/
def ofGraph (timestamp : String) (g : Graph) : Except BadValue Json :=
  (entriesOf g.nodes).map fun programs =>
    .object [
      (versionKey, .string version),
      (timestampKey, .string timestamp),
      (rootKey, .string g.root),
      (programsKey, .object programs)]

/-- Whether a value is the supported version. -/
def isVersion : Json → Bool
  | .string s => s = version
  | _ => false

/-- Whether a value can be looked up among the names of programs. -/
def isKey : Json → Bool
  | .array _ | .object _ => false
  | _ => true

/-- What a checked image consists of. -/
structure Parts where
  root : Name
  programs : List (String × Json)

/-- Checks the outer shape of an image. -/
def check (doc : Json) : Except Fault Parts :=
  match doc with
  | .object members =>
    let version := (Json.member? members versionKey).getD .null
    if !isVersion version then .error (BadValue.imageVersion version)
    else
      match Json.member? members programsKey with
      | some (.object (p :: rest)) =>
        match (Json.member? members rootKey).getD .null with
        | .string root =>
          if (Json.member? (p :: rest) root).isSome then .ok ⟨root, p :: rest⟩
          else .error (BadValue.imageRoot (.string root))
        | root =>
          if isKey root then .error (BadValue.imageRoot root) else .error Misfit.wrongType
      | _ => .error BadValue.imageEmpty
  | _ => .error BadValue.imageNotObject

/-- The items of a list field; a text counts as its characters and an object as its keys. -/
def items : Option Json → Except Fault (List Json)
  | none => .ok []
  | some (.array items) => .ok items
  | some (.string s) => .ok (s.toList.map fun c => .string c.toString)
  | some (.object members) => .ok (members.map fun m => .string m.1)
  | some _ => .error Misfit.wrongType

/-- Method lines, all of which have to be texts. -/
def methodLines : List Json → Except Fault (List String)
  | [] => .ok []
  | .string line :: rest => (methodLines rest).map (line :: ·)
  | _ :: _ => .error Misfit.wrongType

/-- The declaration lines of a list of targets, all of which have to be such as can be written. -/
def declarationLines (kind : LinkKind) : List Json → Except Fault (List String)
  | [] => .ok []
  | target :: rest =>
    if target.hasLong then .error BadValue.longInteger
    else (declarationLines kind rest).map (Program.declarationLine kind target.spliced :: ·)

/-- The source text that an entry stands for. -/
def sourceOf (entry : Json) : Except Fault String :=
  match entry with
  | .object members => do
    let methods ← items (Json.member? members methodsKey)
    let extended ← items (Json.member? members (targetsKey .extend))
    let extended ← declarationLines .extend extended
    let used ← items (Json.member? members (targetsKey .use))
    let used ← declarationLines .use used
    let lines ← methodLines methods
    return Program.unlines (lines ++ extended ++ used)
  | _ => .error Misfit.noMembers

/-- The source texts of all entries under their names. -/
def sourcesOf : List (String × Json) → Except Fault (List (String × String))
  | [] => .ok []
  | (name, entry) :: rest =>
    match sourceOf entry with
    | .error f => .error f
    | .ok text => (sourcesOf rest).map ((name, text) :: ·)

/-- The graph that is rebuilt from the texts of an image. -/
def rebuild (doc : Json) : Except Fault Graph :=
  match check doc with
  | .error f => .error f
  | .ok parts =>
    match sourcesOf parts.programs with
    | .error f => .error f
    | .ok sources =>
      (Session.resolve { store := (Sources.ofSpelled sources).store } parts.root).1

/-- Members in the order of their keys. -/
def sortMembers (members : List (String × Json)) : List (String × Json) :=
  members.mergeSort fun m n => !(n.1 < m.1)

mutual

/-- A value with the members of all its objects sorted. -/
def sortKeys : Json → Json
  | .array items => .array (sortItems items)
  | .object members => .object (sortMembers (sortEach members))
  | v => v

def sortItems : List Json → List Json
  | [] => []
  | v :: rest => sortKeys v :: sortItems rest

def sortEach : List (String × Json) → List (String × Json)
  | [] => []
  | (key, v) :: rest => (key, sortKeys v) :: sortEach rest

end

/-- The part of an image that its digest depends on: all but the time, with sorted keys. -/
def canonical (doc : Json) : Except Fault Json :=
  match doc with
  | .object members => .ok (sortKeys (.object (members.filter fun m => m.1 ≠ timestampKey)))
  | _ => .error Misfit.noMembers

/-- The text that the digest is taken of. There is none if an integer in it has too many digits. -/
def payload (doc : Json) : Except Fault (List Char) :=
  match canonical doc with
  | .error f => .error f
  | .ok v => if v.hasLong then .error BadValue.longInteger else .ok v.compact

/-- The digest of an image. -/
def digest (doc : Json) : Except Fault String :=
  (payload doc).map fun text => Sha256.digest (Text.encodeUtf8 text)

/-- The image in the text of a file, checked. -/
def ofFileText (text : List Char) : Except Fault Json :=
  match Json.read text with
  | .error e => .error e
  | .ok doc => (check doc).map fun _ => doc

/-- Reads the image file at a path and checks it. -/
def load (tree : FileTree) (path : String) : Except Fault Json :=
  match Folder.readText tree .utf8 path.toList with
  | .error f => .error f
  | .ok text => ofFileText text.toList

/-- Writes an image file. An integer that has too many digits ends the writing, and what has been
written before it stays. -/
def save (tree : FileTree) (path : String) (doc : Json) : FileTree × Except Fault Unit :=
  let part? := doc.written? 0
  match Folder.writeText tree path.toList (part?.getD (doc.indented 0)) with
  | .error f => (tree, .error f)
  | .ok tree => (tree, if part?.isSome then .error BadValue.longInteger else .ok ())

end StackFront.Image
