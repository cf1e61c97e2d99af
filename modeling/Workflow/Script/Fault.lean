import Workflow.Text.Position

/-!
# Faults of a script

A script is refused for one cause at one place. The cause is kept apart from its
wording: `Cause.message` gives the sentence shown to the author, and the place is
counted in characters until a reader needs a line and a column.
-/

namespace Workflow.Script

/-- The three bracket shapes that have to pair up in a script. -/
inductive Bracket where
  | round
  | square
  | curly
  deriving DecidableEq, Repr

/-- The character that opens a bracket of this shape. -/
def Bracket.opening : Bracket → Char
  | .round => '('
  | .square => '['
  | .curly => '\x7b'

/-- The character that closes a bracket of this shape. -/
def Bracket.closing : Bracket → Char
  | .round => ')'
  | .square => ']'
  | .curly => '\x7d'

/-- Why a script is refused. -/
inductive Cause where
  /-- A block comment runs to the end of the source. -/
  | unterminatedComment
  /-- A string literal meets a line feed or the end of the source. -/
  | unterminatedString
  /-- A template literal, or a substitution in it, runs to the end of the source. -/
  | unterminatedTemplate
  /-- A regular expression meets a line feed or the end of the source. -/
  | unterminatedRegex
  /-- The character starts no token. -/
  | invalidCharacter (c : Char)
  /-- The bracket is still open at the end of the source. -/
  | neverClosed (opened : Bracket)
  /-- A bracket of one shape is closed by one of another shape. -/
  | mismatched (opened closed : Bracket)
  /-- A closing bracket stands where no bracket is open. -/
  | unopened (closed : Bracket)
  /-- A type-only import names no module. -/
  | moduleExpected
  /-- Enumerations need generated code. -/
  | enumeration
  /-- A declaration lacks the name it declares. -/
  | nameExpected
  /-- A parameter with a modifier needs generated code. -/
  | parameterProperty
  /-- The given token was required. -/
  | expected (text : String)
  /-- A type list stands where an expression was required. -/
  | expressionExpected
  /-- No type starts here. -/
  | typeExpected
  /-- An angle bracket that opens a type list is never closed. -/
  | unterminatedTypeList
  deriving DecidableEq, Repr

/-- The sentence that tells an author why the script is refused. -/
def Cause.message : Cause → String
  | .unterminatedComment => "Unterminated comment"
  | .unterminatedString => "Unterminated string literal"
  | .unterminatedTemplate => "Unterminated template literal"
  | .unterminatedRegex => "Unterminated regular expression"
  | .invalidCharacter c => s!"Invalid character '{c}'"
  | .neverClosed opened => s!"'{opened.opening}' was never closed"
  | .mismatched opened closed => s!"Expected '{opened.closing}' but found '{closed.closing}'"
  | .unopened closed => s!"Unexpected '{closed.closing}'"
  | .moduleExpected => "Module specifier expected"
  | .enumeration => "Enums are not supported in task scripts"
  | .nameExpected => "Identifier expected"
  | .parameterProperty => "Parameter properties are not supported"
  | .expected text => s!"'{text}' expected"
  | .expressionExpected => "Expression expected"
  | .typeExpected => "Type expected"
  | .unterminatedTypeList => "Unterminated type argument list"

/-- A cause at a place, counted in characters from the start of the source. -/
structure Fault where
  /-- Why the script is refused. -/
  cause : Cause
  /-- The number of characters before the place. -/
  offset : Nat
  deriving DecidableEq, Repr

/-- A refused script as its author reads it. -/
structure Rejection where
  /-- Why the script is refused. -/
  cause : Cause
  /-- Where the cause lies. -/
  position : Text.Position
  deriving DecidableEq, Repr

/-- The fault with its place read as a line and a column of the source. -/
def Fault.inSource (f : Fault) (source : String) : Rejection :=
  ⟨f.cause, Text.Position.after (source.toList.take f.offset)⟩

/-- The sentence that reports a refused script. -/
def Rejection.message (r : Rejection) : String :=
  let place := s!"(line {r.position.line}, column {r.position.column})"
  s!"Unable to transpile current code: {r.cause.message} {place}"

end Workflow.Script
