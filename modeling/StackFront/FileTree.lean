import StackFront.Fault
import StackFront.Path
import StackFront.Text.Encoding

/-!
# File trees

A finite tree of directories and regular files, and a working directory in it. Paths are followed
part by part: each part but the last has to be a directory that may be passed, `..` goes up and
stays at the top. Files may be such as cannot be read or written, and directories such as cannot be
passed or written. The limits on the length of parts and of whole paths are those of common file
systems.
-/
namespace StackFront

/-- The parts that lead from the top of a file tree to one place in it. -/
abbrev Location := List (List Char)

/-- What may stand at a place. -/
inductive Entry where
  | file (octets : List UInt8)
  | directory
  deriving DecidableEq, Inhabited

/-- What is done at a place: a file is read or written, a directory is passed on the way to its
entries, and writing it is making a new entry. -/
inductive Access where
  | read
  | write
  | pass
  deriving DecidableEq

/-- A tree of files. All places above an entry or above the working directory are directories. -/
structure FileTree where
  cwd : Location := []
  entries : List (Location × Entry) := []
  /-- What the owner of a place has not permitted. -/
  forbidden : List (Location × Access) := []

namespace FileTree

/-- Whether something may be done at a place. -/
def allows (t : FileTree) (place : Location) (access : Access) : Bool :=
  (place, access) ∉ t.forbidden

/-- The number of octets of a text on disk. -/
def octetCount (s : List Char) : Nat :=
  s.foldr (fun c n => c.utf8Size + n) 0

/-- No part of a path has more octets. -/
def maxPart : Nat := 255

/-- Each whole path has fewer octets. -/
def pathLimit : Nat := 4096

/-- What stands at a place. -/
def lookup (t : FileTree) (place : Location) : Option Entry :=
  match t.entries.find? fun e => e.1 = place with
  | some e => some e.2
  | none =>
    if place.isPrefixOf t.cwd || t.entries.any fun e => place.isPrefixOf e.1 then
      some .directory
    else none

/-- The same tree with an entry put at a place. -/
def put (t : FileTree) (place : Location) (entry : Entry) : FileTree :=
  { t with entries := t.entries.filter (fun e => e.1 ≠ place) ++ [(place, entry)] }

/-- Goes from a place to one of its parts. -/
def go (place : Location) (part : List Char) : Location :=
  if part = Path.here then place
  else if part = Path.parent then place.dropLast
  else place ++ [part]

/-- Follows parts from a place on; all that is passed has to be a directory and to be permitted. -/
def follow (t : FileTree) (place : Location) : List (List Char) → Except Refusal Location
  | [] => .ok place
  | part :: rest =>
    match t.lookup place with
    | none => .error .notFound
    | some (.file _) => .error .notDirectory
    | some .directory =>
      if !t.allows place .pass then .error .denied
      else if octetCount part > maxPart then .error .nameTooLong
      else t.follow (go place part) rest

/-- Where a path begins. -/
def start (t : FileTree) (path : List Char) : Location :=
  if Path.isAbsolute path then [] else t.cwd

/-- The parts of a path that are not empty. -/
def partsOf (path : List Char) : List (List Char) :=
  (Text.splitAt '/' path).filter (· ≠ [])

/-- Refuses empty and overlong paths. -/
def checkPath (path : List Char) : Except Refusal Unit :=
  if path = [] then .error .notFound
  else if octetCount path ≥ pathLimit then .error .nameTooLong
  else .ok ()

/-- The place where a path ends and what stands there; a slash at its end asks for a directory. -/
def find (t : FileTree) (path : List Char) : Except Refusal (Location × Entry) :=
  match checkPath path with
  | .error r => .error r
  | .ok () =>
    match t.follow (t.start path) (partsOf path) with
    | .error r => .error r
    | .ok place =>
      match t.lookup place with
      | none => .error .notFound
      | some .directory => .ok (place, .directory)
      | some (.file octets) =>
        if path.getLast? = some '/' then .error .notDirectory else .ok (place, .file octets)

/-- The octets of the file at a path. -/
def read (t : FileTree) (path : List Char) : Except Refusal (List UInt8) :=
  match t.find path with
  | .error r => .error r
  | .ok (place, entry) =>
    if !t.allows place .read then .error .denied
    else
      match entry with
      | .directory => .error .isDirectory
      | .file octets => .ok octets

/-- The directory that a path ends in and the part that it ends with. -/
def findParent (t : FileTree) (path : List Char) : Except Refusal (Location × List Char) :=
  match checkPath path with
  | .error r => .error r
  | .ok () =>
    match (partsOf path).getLast? with
    | none => .error .isDirectory
    | some last =>
      match t.follow (t.start path) (partsOf path).dropLast with
      | .error r => .error r
      | .ok place =>
        match t.lookup place with
        | none => .error .notFound
        | some (.file _) => .error .notDirectory
        | some .directory => if t.allows place .pass then .ok (place, last) else .error .denied

/-- Writes a file, a new one or one in place of another. -/
def write (t : FileTree) (path : List Char) (octets : List UInt8) : Except Refusal FileTree :=
  match t.findParent path with
  | .error r => .error r
  | .ok (place, last) =>
    if path.getLast? = some '/' ∨ last = Path.here ∨ last = Path.parent then .error .isDirectory
    else if octetCount last > maxPart then .error .nameTooLong
    else
      let target := place ++ [last]
      match t.lookup target with
      | some .directory => .error .isDirectory
      | some (.file _) =>
        if t.allows target .write then .ok (t.put target (.file octets)) else .error .denied
      | none => if t.allows place .write then .ok (t.put target (.file octets)) else .error .denied

/-- Makes a directory, unless it is there already. -/
def makeDirectory (t : FileTree) (path : List Char) : Except Refusal FileTree :=
  match t.findParent path with
  | .error .isDirectory => .ok t
  | .error r => .error r
  | .ok (place, last) =>
    if octetCount last > maxPart then .error .nameTooLong
    else
      match t.lookup (go place last) with
      | some .directory => .ok t
      | some (.file _) => .error .alreadyExists
      | none =>
        if t.allows place .write then .ok (t.put (go place last) .directory) else .error .denied

/-- Makes a directory, given by a root and its parts innermost first, with all that is missing
above it. What was made before a refusal stays. -/
def makeDirectories (t : FileTree) (root : List Char) :
    List (List Char) → FileTree × Except Fault Unit
  | [] => (t, .ok ())
  | last :: above =>
    let path := Path.render root (last :: above).reverse
    let refused (r : Refusal) : Except Fault Unit := .error (.refused r (String.ofList path))
    match t.makeDirectory path with
    | .ok t => (t, .ok ())
    | .error .notFound =>
      match t.makeDirectories root above with
      | (t, .error f) => (t, .error f)
      | (t, .ok ()) =>
        match t.makeDirectory path with
        | .ok t => (t, .ok ())
        | .error r => (t, refused r)
    | .error r => (t, refused r)

end FileTree

end StackFront
