import StackFront.Program
import StackFront.Text.Split

/-!
# Reading programs

A source text is a list of lines: one or more methods, then the extended files, then the used ones.
Blank lines at the end are ignored. A line is added to the program read so far or refused; the
first refused line decides the error.
-/
namespace StackFront.Program

/-- Whether a character may stand in the name of a declared file. -/
def isTargetChar (c : Char) : Bool :=
  c.isAlphanum || c = '.' || c = '-' || c = '_' || c = '/'

/-- The kind of declaration that a line is: it reads just the marker, or the marker and a blank
begin it. All other lines are method bodies. -/
def declaration? (line : List Char) : Option LinkKind :=
  [LinkKind.extend, .use].find? fun kind =>
    line = kind.marker || (kind.marker ++ [' ']).isPrefixOf line

/-- The column of the first character of a target. -/
def targetColumn : Nat := 4

/-- The first character that may not stand in a target, with its column. -/
def strayTargetChar? (column : Nat) : List Char → Option (Nat × Char)
  | [] => none
  | c :: rest => if isTargetChar c then strayTargetChar? (column + 1) rest else some (column, c)

/-- The target of a declaration line. -/
def readTarget (kind : LinkKind) (line : List Char) (file : Option String) (number : Int) :
    Except ParseError String :=
  let target := line.drop 3
  if target = [] then
    .error { reason := .missingTarget kind, file, line := some number }
  else
    match strayTargetChar? targetColumn target with
    | some (column, c) =>
      .error { reason := .targetCharacter c, file, line := some number, column := some column }
    | none => .ok (String.ofList target)

/-- Adds a declared target. -/
def addTarget (p : Program) (target : String) : LinkKind → Program
  | .extend => { p with extendTargets := p.extendTargets ++ [target] }
  | .use => { p with useTargets := p.useTargets ++ [target] }

/-- Adds the method on a line. -/
def addMethod (p : Program) (file : Option String) (number : Int) (line : List Char) :
    Except ParseError Program :=
  match Op.tokenize line (some number) with
  | (_, some e) => .error (e.located file)
  | (ops, none) =>
    match Method.ofOps? ops with
    | some m => .ok { p with methods := p.methods ++ [m] }
    | none => .error { reason := .emptyMethod, file, line := some number }

/-- Adds the line of the given number. -/
def addLine (file : Option String) (p : Program) (number : Int) (line : List Char) :
    Except ParseError Program :=
  let refuse (reason : Reason) : Except ParseError Program :=
    .error { reason, file, line := some number }
  match declaration? line with
  | none =>
    if p.targets ≠ [] then refuse .methodAfterDeclaration
    else addMethod p file number line
  | some kind =>
    if p.methods = [] then refuse .noMethods
    else if kind = .extend ∧ p.useTargets ≠ [] then refuse .extendAfterUse
    else (readTarget kind line file number).map (addTarget p · kind)

/-- Adds lines that are numbered from `number` on. -/
def addLines (file : Option String) (p : Program) (number : Int) :
    List (List Char) → Except ParseError Program
  | [] => .ok p
  | line :: rest =>
    match addLine file p number line with
    | .error e => .error e
    | .ok p => addLines file p (number + 1) rest

/-- The lines of a source text without the blank ones at its end. -/
def sourceLines (text : List Char) : List (List Char) :=
  Text.dropTrailingEmpty (Text.splitAt '\n' text)

/-- Reads the whole text of a file; `file` is the name that errors show. -/
def parse (text : String) (file : Option String) : Except ParseError Program :=
  match addLines file {} 1 (sourceLines text.toList) with
  | .error e => .error e
  | .ok p =>
    if p.methods = [] then .error { reason := .noMethods, file, line := some 1 } else .ok p

end StackFront.Program
