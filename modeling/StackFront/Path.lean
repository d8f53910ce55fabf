import StackFront.Link
import StackFront.Text.Split

/-!
# Paths

Names of files are paths with slashes. `canonical` gives each file reference the one name under
which its program is kept: the target as seen from the directory of the referring file, without
empty and `.` parts, and with each `..` taken back as far as possible. One or more leading slashes
make a path absolute; exactly two of them are kept, since such paths may have a meaning of their
own. `tidy` only drops empty and `.` parts: a path as it is handed to a file system.
-/
namespace StackFront.Path

/-- The leading slashes that count: none, one or two. -/
def root : List Char → List Char
  | '/' :: '/' :: '/' :: _ => ['/']
  | '/' :: '/' :: _ => ['/', '/']
  | '/' :: _ => ['/']
  | _ => []

def isAbsolute (path : List Char) : Bool :=
  path.head? = some '/'

/-- The part that stands for the directory itself. -/
def here : List Char := ['.']

/-- The part that stands for the directory above. -/
def parent : List Char := ['.', '.']

/-- The path with the given root and parts; without either, it is the directory itself. -/
def render (root : List Char) (parts : List (List Char)) : List Char :=
  match root ++ Text.joinWith '/' parts with
  | [] => here
  | path => path

/-- Adds a part to those of a path, given innermost first. -/
def push (absolute : Bool) (parts : List (List Char)) (part : List Char) : List (List Char) :=
  if part = [] ∨ part = here then parts
  else if part ≠ parent then part :: parts
  else
    match parts with
    | [] => if absolute then [] else [part]
    | top :: rest => if top = parent then part :: parts else rest

/-- The parts of a path in normal form, outermost first. -/
def normalParts (path : List Char) : List (List Char) :=
  ((Text.splitAt '/' path).foldl (push (isAbsolute path)) []).reverse

/-- The normal form of a path. -/
def normalize (path : List Char) : List Char :=
  render (root path) (normalParts path)

/-- Drops the slashes at the end. -/
def trimSlashes (path : List Char) : List Char :=
  (path.reverse.dropWhile (· = '/')).reverse

/-- All up to the last slash, without the slashes at its end unless there is nothing else. -/
def directory (path : List Char) : List Char :=
  let head := (path.reverse.dropWhile (· ≠ '/')).reverse
  if head.all (· = '/') then head else trimSlashes head

/-- A target as seen from a directory. -/
def join (directory target : List Char) : List Char :=
  if isAbsolute target then target
  else if directory = [] ∨ directory.getLast? = some '/' then directory ++ target
  else directory ++ '/' :: target

/-- The name of `target` as it is referred to from `referrer`, or on its own. -/
def canonicalChars (target : List Char) : Option (List Char) → List Char
  | none => normalize target
  | some referrer => normalize (join (directory referrer) target)

/-- The name of `target` as it is referred to from `referrer`, or on its own. -/
def canonical (target : String) (referrer : Option Name) : Name :=
  String.ofList (canonicalChars target.toList (referrer.map String.toList))

/-- The parts of a path that are neither empty nor `.`. -/
def properParts (path : List Char) : List (List Char) :=
  (Text.splitAt '/' path).filter fun part => part ≠ [] && part ≠ here

/-- A path without its empty and `.` parts. -/
def tidy (path : List Char) : List Char :=
  render (root path) (properParts path)

/-- A path below a base directory; an absolute path stands for itself. -/
def tidyBelow (base path : List Char) : List Char :=
  if isAbsolute path then tidy path
  else render (root base) (properParts base ++ properParts path)

end StackFront.Path
