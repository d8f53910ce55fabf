import StackFront.Link
import StackFront.Text.Quoted

/-!
# Errors of a store

What goes wrong when sources are fetched from where they are kept, or output is put there. An
error knows its own details; the file it is about may be learnt later, and is then shown with it.
-/
namespace StackFront

/-- The reasons for which a file system refuses a path. -/
inductive Refusal where
  | notFound
  | notDirectory
  | isDirectory
  | alreadyExists
  | nameTooLong
  | denied
  deriving DecidableEq, Repr

/-- The number of a refusal. -/
def Refusal.code : Refusal → Int
  | .notFound => 2
  | .denied => 13
  | .alreadyExists => 17
  | .notDirectory => 20
  | .isDirectory => 21
  | .nameTooLong => 36

def Refusal.message : Refusal → String
  | .notFound => "No such file or directory"
  | .notDirectory => "Not a directory"
  | .isDirectory => "Is a directory"
  | .alreadyExists => "File exists"
  | .nameTooLong => "File name too long"
  | .denied => "Permission denied"

/-- The classes of errors that callers tell apart. -/
inductive StorageError.Class where
  | notFound
  | notDirectory
  | isDirectory
  | alreadyExists
  | denied
  | other
  deriving DecidableEq, Repr

/-- What an error says of itself: one sentence, or a number with a sentence. -/
inductive StorageError.Details where
  | plain (text : String)
  | numbered (code : Int) (text : String)
  deriving DecidableEq, Repr

/-- An error of a store. -/
structure StorageError where
  kind : StorageError.Class
  details : StorageError.Details
  deriving DecidableEq, Repr

namespace StorageError

/-- The error of a refused path. -/
def refused (r : Refusal) : StorageError where
  kind :=
    match r with
    | .notFound => .notFound
    | .notDirectory => .notDirectory
    | .isDirectory => .isDirectory
    | .alreadyExists => .alreadyExists
    | .denied => .denied
    | .nameTooLong => .other
  details := .numbered r.code r.message

/-- The error of a name that a store holds no source for. -/
def noSource (name : Name) : StorageError :=
  ⟨.notFound, .plain s!"No such source: {name}"⟩

/-- The number of an error, if it has one. -/
def code? (e : StorageError) : Option Int :=
  match e.details with
  | .plain _ => none
  | .numbered code _ => some code

/-- The text of an error about the given file. Once a file is known, the shape is always that of a
numbered error, with `None` for what is missing. -/
def message (e : StorageError) (file : Option String) : String :=
  match e.details, file with
  | .plain text, none => text
  | .numbered code text, none => s!"[Errno {code}] {text}"
  | .plain _, some file => s!"[Errno None] None: {Text.quote file}"
  | .numbered code text, some file => s!"[Errno {code}] {text}: {Text.quote file}"

end StorageError

end StackFront
