import StackFront.Link
import StackFront.Text.Quoted

/-!
# Grammar errors

A source text is refused for one reason, at a place that may be known by file, line and column.
-/
namespace StackFront

/-- Why a source text is refused. -/
inductive Reason where
  /-- The text stands for no operation; it is a single character wherever a line is read. -/
  | unrecognized (text : String)
  | missingTarget (kind : LinkKind)
  | targetCharacter (c : Char)
  | methodAfterDeclaration
  | emptyMethod
  | noMethods
  | extendAfterUse
  /-- A reason given in words by another tool. -/
  | stated (text : String)
  deriving DecidableEq, Repr

def Reason.message : Reason → String
  | .unrecognized text => s!"unrecognized character {Text.quote text}"
  | .missingTarget kind => s!"'{String.ofList kind.marker}' declaration is missing its filename"
  | .targetCharacter c => s!"invalid character {Text.quote c.toString} in filename"
  | .methodAfterDeclaration => "method body after a declaration"
  | .emptyMethod => "empty method"
  | .noMethods => "program has no methods"
  | .extendAfterUse => "extend declaration after a use declaration"
  | .stated text => text

/-- A refused source text. -/
structure ParseError where
  reason : Reason
  file : Option String := none
  line : Option Int := none
  column : Option Int := none
  deriving DecidableEq, Repr

namespace ParseError

/-- The name shown for a file that is not named. -/
def unnamed : String := "<source>"

/-- File, line and column as far as they are known; a column without a line is not shown. -/
def place (e : ParseError) : String :=
  let file :=
    match e.file with
    | some name => if name = "" then unnamed else name
    | none => unnamed
  match e.line, e.column with
  | none, _ => file
  | some line, none => s!"{file}:{line}"
  | some line, some column => s!"{file}:{line}:{column}"

def message (e : ParseError) : String :=
  s!"{e.place}: {e.reason.message}"

/-- The same error in the given file. -/
def located (e : ParseError) (file : Option String) : ParseError :=
  { e with file }

end ParseError

end StackFront
