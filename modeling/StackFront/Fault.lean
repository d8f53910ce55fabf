import StackFront.Json.Reader
import StackFront.Opcode
import StackFront.ParseError
import StackFront.StorageError
import StackFront.Text.Encoding

/-!
# Faults

Everything that a request can fail with: a cause, the file it is attributed to, and the chain of
references that led to that file. A fault takes the first file that it is attributed to and keeps
it; a grammar error says where it was found in words of its own, which a later attribution leaves
alone.
-/
namespace StackFront

/-- A method index outside a program. -/
structure MethodIndexError where
  file : Option Name
  index : Int
  count : Int
  deriving DecidableEq, Repr

def MethodIndexError.message (e : MethodIndexError) : String :=
  let file := e.file.getD "None"
  s!"Tried to get method {e.index} of {file}, but it only has {e.count}"

/-- A value that is not admitted where it stands. -/
inductive BadValue where
  | literalRange (value : Json)
  | emptyMethod
  | noCharacter (op : Opcode)
  | notNibble (file : Name) (method position : Int) (value : Json)
  | nulInPath
  | imageNotObject
  | imageVersion (version : Json)
  | imageEmpty
  | imageRoot (root : Json)
  /-- An integer that cannot be written. -/
  | longInteger
  /-- A refusal in words of its own: a single value is the message, several are shown together. -/
  | stated (details : List Json)

/-- What is said of an integer that has too many digits to be written. -/
def BadValue.longMessage : String :=
  s!"Exceeds the limit ({Text.maxDigits} digits) for integer string conversion; " ++
    "use sys.set_int_max_str_digits() to increase the limit"

/-- A message that shows a value, if the value can be written. -/
def BadValue.showing (value : Json) (message : String → String) : String :=
  if value.hasLong then longMessage else message value.shown

def BadValue.message : BadValue → String
  | literalRange value => showing value fun shown => s!"Value literal out of range 0-15: {shown}"
  | emptyMethod => "A method needs at least one operation"
  | noCharacter op => s!"{op.name} has no source character"
  | notNibble file method position value => showing value fun shown =>
    s!"{file} method {method} position {position}: literal {shown} is not a nibble"
  | nulInPath => "embedded null byte"
  | imageNotObject => "vt image must be a JSON object"
  | imageVersion version => showing version fun shown =>
    s!"Unsupported vt image version: {shown}"
  | imageEmpty => "vt image has no programs"
  | imageRoot root => showing root fun shown =>
    s!"vt image root {shown} is not among its programs"
  | longInteger => longMessage
  | stated [] => ""
  | stated [v] => v.spliced
  | stated details => Json.shownTuple details

/-- A request that cannot be carried out, whatever its values. -/
inductive Inability where
  /-- An enricher refused an instruction of the given name. -/
  | rejected (instruction : String)
  | analysisTools
  | plottingTools
  | drawingTools
  deriving DecidableEq, Repr

def Inability.message : Inability → String
  | rejected instruction => s!"rejected {instruction}"
  | analysisTools => "Dependency analysis requires networkx to be installed"
  | plottingTools => "Visualization requires networkx and matplotlib to be installed"
  | drawingTools => "Graphviz export requires the optional pydot dependency"

/-- A value of the wrong shape, or a name that stands for nothing. -/
inductive Misfit where
  | unknownName
  | wrongType
  | noMembers
  deriving DecidableEq, Repr

def Misfit.message : Misfit → String
  | unknownName => "unknown name"
  | wrongType => "value of the wrong type"
  | noMembers => "value without members"

/-- What went wrong. -/
inductive Cause where
  | parse (e : ParseError)
  | methodIndex (e : MethodIndexError)
  | storage (e : StorageError)
  | decode (e : Text.DecodeError)
  | json (e : Json.ReadError)
  | badValue (e : BadValue)
  | inability (e : Inability)
  | misfit (e : Misfit)

/-- The file that a cause is about from the start. -/
def Cause.file? : Cause → Option String
  | parse e => e.file
  | methodIndex e => e.file
  | _ => none

/-- A cause with the file it is attributed to and the references that led there. -/
structure Fault where
  cause : Cause
  file : Option String
  chain : List Name

namespace Fault

/-- The fault of a cause alone. -/
def ofCause (cause : Cause) : Fault :=
  ⟨cause, cause.file?, []⟩

instance : Coe Cause Fault := ⟨ofCause⟩
instance : Coe ParseError Fault := ⟨fun e => ofCause (.parse e)⟩
instance : Coe MethodIndexError Fault := ⟨fun e => ofCause (.methodIndex e)⟩
instance : Coe StorageError Fault := ⟨fun e => ofCause (.storage e)⟩
instance : Coe Text.DecodeError Fault := ⟨fun e => ofCause (.decode e)⟩
instance : Coe Json.ReadError Fault := ⟨fun e => ofCause (.json e)⟩
instance : Coe BadValue Fault := ⟨fun e => ofCause (.badValue e)⟩
instance : Coe Inability Fault := ⟨fun e => ofCause (.inability e)⟩
instance : Coe Misfit Fault := ⟨fun e => ofCause (.misfit e)⟩

/-- The fault of a refused path, which is about that path. -/
def refused (r : Refusal) (path : String) : Fault :=
  ⟨.storage (.refused r), some path, []⟩

def message (f : Fault) : String :=
  match f.cause with
  | .parse e => e.message
  | .methodIndex e => e.message
  | .storage e => e.message f.file
  | .decode e => e.message
  | .json e => e.message
  | .badValue e => e.message
  | .inability e => e.message
  | .misfit e => e.message

/-- Attributes a fault to a file that was reached along a chain of references. -/
def mark (f : Fault) (file : Name) (chain : List Name) : Fault :=
  { f with file := f.file.or (some file), chain }

/-- The message, followed by the chain if it names more than the file itself. -/
def describe (f : Fault) : String :=
  if f.chain.length > 1 then f.message ++ " (via " ++ " -> ".intercalate f.chain ++ ")"
  else f.message

/-- Whether a failed reference is traced back to the root: errors of the store and of the grammar
are. -/
def isTraced (f : Fault) : Bool :=
  match f.cause with
  | .parse _ | .storage _ => true
  | _ => false

end Fault

end StackFront
