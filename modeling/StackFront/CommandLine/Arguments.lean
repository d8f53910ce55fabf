import StackFront.Text.Numeral
import StackFront.Text.Quoted

/-!
# Arguments

The options of the command line and the reader of its arguments. An option may be shortened as long
as no other one begins the same way, a value follows its option as the next argument or after `=`,
and short options may share a dash. After `--` all arguments are plain words. The first plain word
is the source file; every other one is an error, but only after all else has been read.

Where versions of these conventions differ, the older one is followed: a value that is just `--`
counts as none, and each letter behind a shared dash has to be an option.
-/
namespace StackFront.CommandLine

/-- The options. -/
inductive Switch where
  | help
  | method
  | dump
  | cycles
  | graphviz
  | visualize
  | image
  | hash
  | verbose
  deriving DecidableEq, Repr

namespace Switch

/-- All spellings, in the order in which ambiguities list them. -/
def spellings : List (String × Switch) := [
  ("-h", help), ("--help", help), ("--method", method), ("--dump", dump), ("--cycles", cycles),
  ("--graphviz", graphviz), ("--visualize", visualize), ("--image", image), ("--hash", hash),
  ("-v", verbose), ("--verbose", verbose)]

/-- The option that is spelled exactly so. -/
def ofSpelling? (s : String) : Option Switch :=
  (spellings.find? fun p => p.1 = s).map (·.2)

def takesValue : Switch → Bool
  | method | graphviz | image | hash => true
  | _ => false

/-- All spellings of one option, as errors name it. -/
def label (s : Switch) : String :=
  "/".intercalate ((spellings.filter fun p => p.2 = s).map (·.1))

end Switch

/-- Why arguments are refused. -/
inductive UsageError where
  | ambiguous (argument : String) (matching : List String)
  | missingValue (option : Switch)
  | ignoredValue (option : Switch) (value : String)
  | invalidNumber (option : Switch) (value : String)
  | unrecognized (arguments : List String)
  deriving DecidableEq, Repr

def UsageError.message : UsageError → String
  | .ambiguous argument matching =>
    s!"ambiguous option: {argument} could match " ++ ", ".intercalate matching
  | .missingValue option => s!"argument {option.label}: expected one argument"
  | .ignoredValue option value =>
    s!"argument {option.label}: ignored explicit argument {Text.quote value}"
  | .invalidNumber option value =>
    s!"argument {option.label}: invalid int value: {Text.quote value}"
  | .unrecognized arguments => "unrecognized arguments: " ++ " ".intercalate arguments

/-- What an argument is, seen on its own. -/
inductive Token where
  | separator
  | word (s : String)
  /-- An option, whether it is spelled with one dash, and the value joined to it. -/
  | option (s : Switch) (short : Bool) (value : Option String)
  | unknown (s : String)
  deriving DecidableEq, Repr

namespace Token

/-- The text before and after the first `=`. -/
def cutEquals (s : List Char) : List Char × Option (List Char) :=
  match s.dropWhile (· ≠ '=') with
  | [] => (s, none)
  | _ :: value => (s.takeWhile (· ≠ '='), some value)

/-- A minus sign with digits after it and perhaps a point before some of them; one line end may
follow. -/
def isNegativeNumber (s : List Char) : Bool :=
  let isDigit (c : Char) : Bool := (Text.decimalDigit? c).isSome
  let trimmed := if s.getLast? = some '\n' then s.dropLast else s
  match trimmed with
  | '-' :: rest =>
    match rest.dropWhile isDigit with
    | [] => !rest.isEmpty
    | '.' :: fraction => !fraction.isEmpty && fraction.all isDigit
    | _ => false
  | _ => false

/-- The options that an argument with two dashes may be short for. -/
def longCandidates (s : List Char) : List (String × Token) :=
  let (start, value) := cutEquals s
  (Switch.spellings.filter fun p => start.isPrefixOf p.1.toList).map fun p =>
    (p.1, option p.2 false (value.map String.ofList))

/-- The options that an argument with one dash may begin with. -/
def shortCandidates (s : List Char) : List (String × Token) :=
  (Switch.spellings.filter fun p => p.1.toList = s.take 2).map fun p =>
    (p.1, option p.2 true (some (String.ofList (s.drop 2))))

/-- The options that an argument which is no option as it stands may be meant for. -/
def candidates (s : List Char) : List (String × Token) :=
  if (s.drop 1).head? = some '-' then longCandidates s else shortCandidates s

/-- An argument that begins with a dash and has more after it. -/
def ofDashed (s : List Char) : Except UsageError Token :=
  let text := String.ofList s
  match Switch.ofSpelling? text with
  | some sw => .ok (option sw ((s.drop 1).head? ≠ some '-') none)
  | none =>
    let (start, value) := cutEquals s
    match value, Switch.ofSpelling? (String.ofList start) with
    | some value, some sw =>
      .ok (option sw ((s.drop 1).head? ≠ some '-') (some (String.ofList value)))
    | _, _ =>
      match candidates s with
      | [] =>
        if isNegativeNumber s || s.contains ' ' then .ok (word text) else .ok (unknown text)
      | [c] => .ok c.2
      | several => .error (.ambiguous text (several.map (·.1)))

/-- What an argument is, where no `--` came before it. -/
def ofArgument (s : String) : Except UsageError Token :=
  match s.toList with
  | '-' :: c :: rest => ofDashed ('-' :: c :: rest)
  | _ => .ok (word s)

/-- What arguments are; all after the first `--` are words. -/
def ofArguments : List String → Except UsageError (List Token)
  | [] => .ok []
  | s :: rest =>
    if s = "--" then .ok (separator :: rest.map word)
    else
      match ofArgument s with
      | .error e => .error e
      | .ok token => (ofArguments rest).map (token :: ·)

/-- An argument as it was given. -/
def text : Token → String
  | separator => "--"
  | word s => s
  | unknown s => s
  | option s _ _ => s.label

end Token

/-- What is asked for on the command line; an empty text stands for a file that is not named. -/
structure Options where
  source : String := ""
  /-- The index of the method to enrich; it is missing if its value was just `--`. -/
  method : Option Int := some 0
  dump : Bool := false
  cycles : Bool := false
  graphviz : String := ""
  visualize : Bool := false
  image : String := ""
  hash : String := ""
  verbose : Bool := false
  deriving DecidableEq, Repr

/-- A reading of arguments: what is asked for, whether the source has been found, and the arguments
that are left over. -/
structure Reading where
  options : Options := {}
  hasSource : Bool := false
  left : List String := []

/-- Arguments ask for a run or for help. -/
inductive Parsed where
  | run (options : Options)
  | help
  deriving DecidableEq, Repr

namespace Reading

/-- Sets an option without a value. -/
def setFlag (o : Options) : Switch → Options
  | .dump => { o with dump := true }
  | .cycles => { o with cycles := true }
  | .visualize => { o with visualize := true }
  | .verbose => { o with verbose := true }
  | _ => o

/-- Sets an option to a value; the value `--` counts as none. -/
def setValue (o : Options) (s : Switch) (value : String) : Except UsageError Options :=
  let text := if value = "--" then "" else value
  match s with
  | .graphviz => .ok { o with graphviz := text }
  | .image => .ok { o with image := text }
  | .hash => .ok { o with hash := text }
  | .method =>
    if value = "--" then .ok { o with method := none }
    else
      match Text.readInt? value with
      | some n => .ok { o with method := some n }
      | none => .error (.invalidNumber s value)
  | _ => .ok o

/-- The options that share the dash of a short one. A letter that is no option is refused, along
with all that follows it, as a value of the option before it. -/
def sharedDash (s : Switch) : List Char → Except UsageError (List Switch)
  | [] => .ok [s]
  | c :: rest =>
    match Switch.ofSpelling? (String.ofList ['-', c]) with
    | some next => (sharedDash next rest).map (s :: ·)
    | none => .error (.ignoredValue s (String.ofList (c :: rest)))

/-- The options that an argument without room for a value stands for. -/
def flagsOf (s : Switch) (short : Bool) : Option String → Except UsageError (List Switch)
  | none => .ok [s]
  | some value =>
    if short && value ≠ "" then sharedDash s value.toList else .error (.ignoredValue s value)

/-- Reads tokens one after the other. Help is given as soon as it is asked for. -/
def readTokens (r : Reading) : List Token → Except UsageError Parsed
  | [] => if r.left = [] then .ok (.run r.options) else .error (.unrecognized r.left)
  | .unknown s :: rest => readTokens { r with left := r.left ++ [s] } rest
  | .word s :: rest =>
    if r.hasSource then readTokens { r with left := r.left ++ [s] } rest
    else
      let r := { r with options.source := s, hasSource := true }
      match rest with
      | .separator :: rest => readTokens r rest
      | rest => readTokens r rest
  | .separator :: rest =>
    if r.hasSource then readTokens { r with left := r.left ++ ["--"] } rest
    else
      match rest with
      | .word s :: rest => readTokens { r with options.source := s, hasSource := true } rest
      | rest => readTokens { r with hasSource := true } rest
  | .option s short value :: rest =>
    if s.takesValue then
      match value, rest with
      | some value, rest =>
        match setValue r.options s value with
        | .error e => .error e
        | .ok options => readTokens { r with options } rest
      | none, .word value :: rest =>
        match setValue r.options s value with
        | .error e => .error e
        | .ok options => readTokens { r with options } rest
      | none, _ => .error (.missingValue s)
    else
      match flagsOf s short value with
      | .error e => .error e
      | .ok flags =>
        if .help ∈ flags then .ok .help
        else readTokens { r with options := flags.foldl setFlag r.options } rest

end Reading

/-- Reads the arguments of the command line. -/
def parse (arguments : List String) : Except UsageError Parsed :=
  match Token.ofArguments arguments with
  | .error e => .error e
  | .ok tokens => Reading.readTokens {} tokens

end StackFront.CommandLine
