/-!
# Script tokens

A script is read as a sequence of tokens. Every token carries the white space and
the comments in front of it, so that the tokens together hold the whole source.
-/

namespace Workflow.Script

/-- What a token is. -/
inductive TokenKind where
  /-- A name or a keyword. -/
  | word
  /-- A numeric literal. -/
  | number
  /-- A literal in single or double quotes. -/
  | string
  /-- A literal in backticks, with its substitutions. -/
  | template
  /-- A regular expression with its flags. -/
  | regex
  /-- An operator or a bracket. -/
  | punctuator
  /-- The end of the source. -/
  | finish
  deriving DecidableEq, Repr

/-- A token together with what stands in front of it. -/
structure Token where
  /-- What the token is. -/
  kind : TokenKind
  /-- White space and comments in front of the token. -/
  leading : String
  /-- The token as written. -/
  text : String
  /-- The number of characters before the text. -/
  start : Nat
  deriving DecidableEq, Repr

/-- Whether the token is the given word or punctuator. -/
def Token.is (t : Token) (text : String) : Bool :=
  (t.kind == .word || t.kind == .punctuator) && t.text == text

/-- Whether the token is the first on its line. -/
def Token.startsLine (t : Token) : Bool := t.leading.toList.contains '\n'

end Workflow.Script
