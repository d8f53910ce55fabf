import StackFront.Store
import StackFront.Toolbox

/-!
# DOT text

Drawings written in the DOT language. A value stands bare if it is a number, a word of letters and
digits that does not begin with a digit, or already in quotes or angle brackets; all else, and the
reserved words, are put in double quotes.
-/
namespace StackFront.Dot

/-- Words that have a meaning of their own in any mixture of cases. -/
def reserved : List String :=
  ["graph", "subgraph", "digraph", "node", "edge", "strict"]

def isReserved (s : List Char) : Bool :=
  reserved.any fun word => word.toList = s.map Char.toLower

/-- Digits, with a point before, among or after them. -/
def isNumber (s : List Char) : Bool :=
  match s.dropWhile Char.isDigit with
  | [] => !s.isEmpty
  | '.' :: rest => rest.all Char.isDigit && s.length > 1
  | _ => false

def isWord (s : List Char) : Bool :=
  match s with
  | [] => false
  | c :: rest => c.isAlpha && rest.all Char.isAlphanum

/-- Whether a text is enclosed by two characters. -/
def isEnclosed (first last : Char) (s : List Char) : Bool :=
  s.head? = some first && s.getLast? = some last

/-- A character between double quotes. Backslashes are left as they are. -/
def quotedChar (c : Char) : List Char :=
  if c = '\x22' then ['\\', c]
  else if c = '\n' then ['\\', 'n']
  else if c = '\r' then ['\\', 'r']
  else [c]

/-- A text in double quotes. -/
def quoted (s : List Char) : List Char :=
  '\x22' :: s.flatMap quotedChar ++ ['\x22']

/-- Whether a text may stand as it is. -/
def isBare (s : List Char) : Bool :=
  !isReserved s &&
    (isNumber s || isWord s || isEnclosed '<' '>' s || isEnclosed '\x22' '\x22' s)

/-- A value as it is written. -/
def value (s : List Char) : List Char :=
  if isBare s then s else quoted s

def assignment (a : String × String) : String :=
  a.1 ++ "=" ++ String.ofList (value a.2.toList)

/-- Attributes on lines of their own. -/
def statements (attributes : Attributes) : List String :=
  attributes.map fun a => assignment a ++ ";"

/-- Attributes in brackets. -/
def bracketed (attributes : Attributes) : String :=
  "[" ++ ", ".intercalate (attributes.map assignment) ++ "]"

/-- An identifier as it is written. -/
def identifier (id : String) : String :=
  String.ofList (value id.toList)

def box (b : Box) : String :=
  s!"{identifier b.id} {bracketed b.attributes};"

def cluster (c : Cluster) : List String :=
  s!"subgraph {c.name} \x7b" :: statements c.attributes ++ c.boxes.map box ++ ["\x7d"]

def line (l : Line) : String :=
  s!"{identifier l.source} -> {identifier l.target} {bracketed l.attributes};"

/-- The text of a drawing. -/
def text (d : Drawing) : String :=
  Program.unlines <|
    s!"digraph {d.name} \x7b" :: statements d.attributes ++ d.clusters.flatMap cluster ++
      d.lines.map line ++ ["\x7d"]

/-- Writes the text of a drawing to a path, where a picture of it would be. -/
def write (d : Drawing) (path : String) (tree : FileTree) : FileTree × Except Fault Unit :=
  match Folder.writeText tree path.toList (text d).toList with
  | .error f => (tree, .error f)
  | .ok tree => (tree, .ok ())

/-- Tools that write a drawing as a text in place of its picture, and that plot nothing. -/
def tools : Toolbox :=
  { picture := write, plot? := none }

end StackFront.Dot
