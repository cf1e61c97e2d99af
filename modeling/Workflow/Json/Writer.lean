import Workflow.Json.Entries

/-!
# Writing JSON

The compact form has no white space. The pretty form puts every item and entry on a
line of its own, indented by two spaces a level, and leaves empty lists and objects
on one line. Text is written raw but for the quote, the backslash and the control
characters.
-/

namespace Workflow.Json

/-- The digit of a number below sixteen. -/
def hexDigit (n : Nat) : Char := Nat.digitChar n

/-- A character as it is written in a text. -/
def escape (c : Char) : List Char :=
  match c with
  | '"' => ['\\', '"']
  | '\\' => ['\\', '\\']
  | '\x08' => ['\\', 'b']
  | '\x0c' => ['\\', 'f']
  | '\n' => ['\\', 'n']
  | '\r' => ['\\', 'r']
  | '\t' => ['\\', 't']
  | c =>
    if c.toNat < 0x20 then ['\\', 'u', '0', '0', hexDigit (c.toNat / 16), hexDigit (c.toNat % 16)]
    else [c]

/-- A text in quotes. -/
def writeText (s : String) : List Char := '"' :: (s.toList.flatMap escape ++ ['"'])

/-- A number. -/
def Number.write : Number → List Char
  | .integer n =>
    if n < 0 then '-' :: Double.natDigits n.natAbs else Double.natDigits n.natAbs
  | .double d => d.write

/-- A value that has no parts. -/
def writeBool (b : Bool) : List Char :=
  if b then ['t', 'r', 'u', 'e'] else ['f', 'a', 'l', 's', 'e']

mutual

/-- A value without white space. -/
def compactChars : Json → List Char
  | .null => ['n', 'u', 'l', 'l']
  | .bool b => writeBool b
  | .number n => n.write
  | .string s => writeText s
  | .array [] => ['[', ']']
  | .array (item :: items) => '[' :: (compactChars item ++ compactItems items)
  | .object [] => ['\x7b', '\x7d']
  | .object ((key, value) :: entries) =>
    '\x7b' :: (writeText key ++ ':' :: (compactChars value ++ compactEntries entries))

/-- The items behind the first one, and the bracket that closes them. -/
def compactItems : List Json → List Char
  | [] => [']']
  | item :: items => ',' :: (compactChars item ++ compactItems items)

/-- The entries behind the first one, and the bracket that closes them. -/
def compactEntries : List (String × Json) → List Char
  | [] => ['\x7d']
  | (key, value) :: entries =>
    ',' :: (writeText key ++ ':' :: (compactChars value ++ compactEntries entries))

end

/-- A line feed and the indentation of a level. -/
def newLine (level : Nat) : List Char := '\n' :: List.replicate (2 * level) ' '

mutual

/-- A value in the pretty form, on a level of indentation. -/
def prettyChars (level : Nat) : Json → List Char
  | .null => ['n', 'u', 'l', 'l']
  | .bool b => writeBool b
  | .number n => n.write
  | .string s => writeText s
  | .array [] => ['[', ']']
  | .array (item :: items) =>
    '[' :: (newLine (level + 1) ++ prettyChars (level + 1) item ++ prettyItems level items)
  | .object [] => ['\x7b', '\x7d']
  | .object ((key, value) :: entries) =>
    '\x7b' :: (newLine (level + 1) ++ writeText key ++ ':' :: ' ' ::
      (prettyChars (level + 1) value ++ prettyEntries level entries))

/-- The items behind the first one, and the bracket that closes them. -/
def prettyItems (level : Nat) : List Json → List Char
  | [] => newLine level ++ [']']
  | item :: items =>
    ',' :: (newLine (level + 1) ++ prettyChars (level + 1) item ++ prettyItems level items)

/-- The entries behind the first one, and the bracket that closes them. -/
def prettyEntries (level : Nat) : List (String × Json) → List Char
  | [] => newLine level ++ ['\x7d']
  | (key, value) :: entries =>
    ',' :: (newLine (level + 1) ++ writeText key ++ ':' :: ' ' ::
      (prettyChars (level + 1) value ++ prettyEntries level entries))

end

/-- The compact form. -/
def compact (v : Json) : String := String.ofList (compactChars v)

/-- The pretty form. -/
def pretty (v : Json) : String := String.ofList (prettyChars 0 v)

end Workflow.Json
