/-!
# Opcodes

The operations of vt, each with its name, its category and the source character it is listed under.
The list is ordered: where two opcodes are listed under one character, the earlier one owns it.
-/
namespace StackFront

/-- What an opcode is about. -/
inductive Category where
  | control
  | addressing
  | quote
  | io
  | stack
  | variables
  | math
  | call
  | system
  | literal
  deriving DecidableEq, Repr

namespace Category

/-- Every category. -/
def all : List Category :=
  [.control, .addressing, .quote, .io, .stack, .variables, .math, .call, .system, .literal]

theorem mem_all (c : Category) : c ∈ all := by
  cases c <;> decide

def name : Category → String
  | .control => "control"
  | .addressing => "addressing"
  | .quote => "quote"
  | .io => "io"
  | .stack => "stack"
  | .variables => "variable"
  | .math => "math"
  | .call => "call"
  | .system => "system"
  | .literal => "literal"

/-- The fill colour of programs of this category in drawings. -/
def color : Category → String
  | .control => "#90CAF9"
  | .addressing => "#80CBC4"
  | .quote => "#FFE082"
  | .io => "#FF7043"
  | .stack => "#C5E1A5"
  | .variables => "#F8BBD0"
  | .math => "#8BC34A"
  | .call => "#B39DDB"
  | .system => "#9575CD"
  | .literal => "#FFAB91"

end Category

/-- The operations of the language. -/
inductive Opcode where
  | ifNot
  | ifSo
  | beginBlock
  | endBlock
  | repeatBlock
  | endMethod
  | exit
  | teleport
  | moveLeft
  | moveRight
  | doubleQuote
  | singleQuote
  | callMethod
  | input
  | inputLength
  | length
  | getAllInput
  | outputAll
  | outputChar
  | outputNumeric
  | getLine
  | switch
  | multiSwitch
  | rotateRight
  | rotateLeft
  | reverse
  | part
  | duplicate
  | remove
  | object
  | newStack
  | removeStack
  | cloneStack
  | rightStack
  | leftStack
  | flatten
  | stackCount
  | temporaryVariable
  | finalVariable
  | sine
  | arcsine
  | tangent
  | arctangent
  | cosine
  | arccosine
  | pi
  | eulerNumber
  | log
  | random
  | add
  | subtract
  | multiply
  | divide
  | power
  | equals
  | modulo
  | truncate
  | factorize
  | prime
  | range
  | callProgramMethod
  | callShortProgramMethod
  | useCount
  | useName
  | wait
  | file
  | write
  | shell
  | evaluate
  deriving DecidableEq, Repr

namespace Opcode

/-- Every opcode, in the order in which characters are given to them. -/
def all : List Opcode := [
  .ifNot, .ifSo, .beginBlock, .endBlock, .repeatBlock, .endMethod, .exit, .teleport, .moveLeft,
  .moveRight, .doubleQuote, .singleQuote, .callMethod, .input, .inputLength, .length,
  .getAllInput, .outputAll, .outputChar, .outputNumeric, .getLine, .switch, .multiSwitch,
  .rotateRight, .rotateLeft, .reverse, .part, .duplicate, .remove, .object, .newStack,
  .removeStack, .cloneStack, .rightStack, .leftStack, .flatten, .stackCount, .temporaryVariable,
  .finalVariable, .sine, .arcsine, .tangent, .arctangent, .cosine, .arccosine, .pi, .eulerNumber,
  .log, .random, .add, .subtract, .multiply, .divide, .power, .equals, .modulo, .truncate,
  .factorize, .prime, .range, .callProgramMethod, .callShortProgramMethod, .useCount, .useName,
  .wait, .file, .write, .shell, .evaluate]

/-- Name, category and listed character of an opcode. -/
def entry : Opcode → String × Category × Char
  | .ifNot => ("IF_NOT", .control, ')')
  | .ifSo => ("IF", .control, '(')
  | .beginBlock => ("BEGIN_BLOCK", .control, '[')
  | .endBlock => ("END_BLOCK", .control, ']')
  | .repeatBlock => ("REPEAT", .control, '\\')
  | .endMethod => ("END", .control, ';')
  | .exit => ("EXIT", .control, 'x')
  | .teleport => ("TELEPORT", .addressing, '#')
  | .moveLeft => ("MOVE_LEFT", .addressing, '<')
  | .moveRight => ("MOVE_RIGHT", .addressing, '>')
  | .doubleQuote => ("DOUBLE_QUOTE", .quote, '\x22')
  | .singleQuote => ("SINGLE_QUOTE", .quote, '\x27')
  | .callMethod => ("CALL_METHOD", .call, 'm')
  | .input => ("INPUT", .io, 'i')
  | .inputLength => ("INPUT_LENGTH", .io, 'I')
  | .length => ("LENGTH", .io, 'l')
  | .getAllInput => ("GET_ALL_INPUT", .io, 'z')
  | .outputAll => ("OUTPUT_ALL", .io, 'Z')
  | .outputChar => ("OUTPUT_CHAR", .io, 'O')
  | .outputNumeric => ("OUTPUT_NUMERIC", .io, 'N')
  | .getLine => ("GET_LINE", .io, 'W')
  | .switch => ("SWITCH", .control, '$')
  | .multiSwitch => ("MULTI_SWITCH", .control, '%')
  | .rotateRight => ("ROTATE_RIGHT", .stack, '\x7d')
  | .rotateLeft => ("ROTATE_LEFT", .stack, '\x7b')
  | .reverse => ("REVERSE", .stack, 'r')
  | .part => ("PART", .stack, '@')
  | .duplicate => ("DUPLICATE", .stack, 'D')
  | .remove => ("REMOVE", .stack, 'X')
  | .object => ("OBJECT", .stack, 'o')
  | .newStack => ("NEW_STACK", .stack, '&')
  | .removeStack => ("REMOVE_STACK", .stack, 'Y')
  | .cloneStack => ("CLONE_STACK", .stack, ':')
  | .rightStack => ("RIGHT_STACK", .stack, '?')
  | .leftStack => ("LEFT_STACK", .stack, '|')
  | .flatten => ("FLATTEN", .stack, 'u')
  | .stackCount => ("STACK_COUNT", .stack, 'y')
  | .temporaryVariable => ("TEMPORARY_VARIABLE", .variables, 'v')
  | .finalVariable => ("FINAL_VARIABLE", .variables, 'V')
  | .sine => ("SINE", .math, 'S')
  | .arcsine => ("ARCSINE", .math, 's')
  | .tangent => ("TANGENT", .math, 'T')
  | .arctangent => ("ARCTANGENT", .math, 't')
  | .cosine => ("COSINE", .math, 'C')
  | .arccosine => ("ARCCOSINE", .math, 's')
  | .pi => ("PI", .math, 'P')
  | .eulerNumber => ("E", .math, 'E')
  | .log => ("LOG", .math, 'L')
  | .random => ("RANDOM", .math, 'R')
  | .add => ("ADD", .math, '+')
  | .subtract => ("SUBTRACT", .math, '-')
  | .multiply => ("MULTIPLY", .math, '*')
  | .divide => ("DIVIDE", .math, '/')
  | .power => ("POWER", .math, '^')
  | .equals => ("EQUALS", .math, '=')
  | .modulo => ("MODULO", .math, 'M')
  | .truncate => ("TRUNCATE", .math, '_')
  | .factorize => ("FACTORIZE", .math, 'h')
  | .prime => ("PRIME", .math, 'p')
  | .range => ("RANGE", .math, 'H')
  | .callProgramMethod => ("CALL_PROGRAM_METHOD", .call, 'k')
  | .callShortProgramMethod => ("CALL_SHORT_PROGRAM_METHOD", .call, 'K')
  | .useCount => ("USE_COUNT", .call, 'g')
  | .useName => ("USE_NAME", .call, 'G')
  | .wait => ("WAIT", .system, 'w')
  | .file => ("FILE", .system, '\x60')
  | .write => ("WRITE", .system, '.')
  | .shell => ("SHELL", .system, ',')
  | .evaluate => ("EVAL", .system, 'n')

def name (op : Opcode) : String := op.entry.1
def category (op : Opcode) : Category := op.entry.2.1

/-- The character an opcode is listed under, whether or not it owns it. -/
def listedChar (op : Opcode) : Char := op.entry.2.2

set_option maxRecDepth 2000 in
theorem mem_all (op : Opcode) : op ∈ all := by
  cases op <;> decide

/-- The opcode of a name. -/
def ofName? (name : String) : Option Opcode :=
  all.find? fun op => op.name = name

/-- The opcode that owns a character: the first one listed under it. -/
def ofChar? (c : Char) : Option Opcode :=
  all.find? fun op => op.listedChar = c

/-- The character that an opcode owns, if it owns one. -/
def char? (op : Opcode) : Option Char :=
  if ofChar? op.listedChar = some op then some op.listedChar else none

/-- The opcodes that own no character: another one is listed earlier under theirs. -/
def shadowed : List Opcode :=
  all.filter fun op => op.char?.isNone

end Opcode

end StackFront
