import Workflow.Json.Numeral

/-!
# Reading JSON

The strict grammar: four characters are white space, commas stand only between
items, a number has no leading zeros, and a text has no raw control characters.
Nothing but white space may follow the value. Lists and objects may be nested 127
levels deep; what lies deeper obeys the grammar but has no value.

Every function answers with what is left of the characters, which is shorter than
what it was given, so reading ends.
-/

namespace Workflow.Json

/-- The characters left behind a part of `cs` that is not empty. -/
abbrev Rest (cs : List Char) := { rest : List Char // rest.length < cs.length }

/-- The characters left behind a part of `cs` that may be empty. -/
abbrev RestOrAll (cs : List Char) := { rest : List Char // rest.length ≤ cs.length }

/-- Whether a character is white space between the parts of a text. -/
def isSpace (c : Char) : Bool := c == ' ' || c == '\t' || c == '\n' || c == '\r'

/-- The characters behind the white space at the front. -/
def skipSpace (cs : List Char) : List Char := cs.dropWhile isSpace

theorem length_skipSpace_le (cs : List Char) : (skipSpace cs).length ≤ cs.length :=
  (List.dropWhile_suffix isSpace).length_le

/-- The characters behind the white space at the front, with the bound on their number. -/
def afterSpace (cs : List Char) : RestOrAll cs := ⟨skipSpace cs, length_skipSpace_le cs⟩

/-- The levels of nesting whose lists and objects have values. -/
def nestingLimit : Nat := 127

/-- The number that four hexadecimal digits write. -/
def hexQuad? (a b c d : Char) : Option Nat :=
  Text.numberIn? 16 [a, b, c, d]

/-- A piece of a text: a character, or an escaped half of a surrogate pair. -/
inductive Piece where
  /-- A character. -/
  | char (c : Char)
  /-- Half of a surrogate pair. -/
  | half (unit : Nat)
  deriving DecidableEq, Repr

/-- The piece that an escaped code unit stands for. -/
def Piece.ofUnit (unit : Nat) : Piece :=
  if 0xD800 ≤ unit ∧ unit ≤ 0xDFFF then .half unit else .char (Char.ofNat unit)

/-- The characters of a text, if the halves of surrogate pairs in it form pairs. -/
def Piece.join : List Piece → Option (List Char)
  | [] => some []
  | .char c :: rest => (Piece.join rest).map (c :: ·)
  | .half high :: .half low :: rest =>
    if high < 0xDC00 ∧ 0xDC00 ≤ low then
      (Piece.join rest).map
        (Char.ofNat (0x10000 + (high - 0xD800) * 0x400 + (low - 0xDC00)) :: ·)
    else none
  | .half _ :: _ => none

/-- The character that stands behind a backslash for another one. -/
def unescape? (c : Char) : Option Char :=
  match c with
  | '"' => some '"'
  | '\\' => some '\\'
  | '/' => some '/'
  | 'b' => some '\x08'
  | 'f' => some '\x0c'
  | 'n' => some '\n'
  | 'r' => some '\r'
  | 't' => some '\t'
  | _ => none

/-- The pieces of a text whose opening quote has been read. -/
def readPieces (cs : List Char) : Option (List Piece × Rest cs) :=
  match cs with
  | [] => none
  | '"' :: rest => some ([], ⟨rest, by simp⟩)
  | '\\' :: 'u' :: a :: b :: c :: d :: rest => do
    let unit ← hexQuad? a b c d
    let (pieces, ⟨after, h⟩) ← readPieces rest
    return (Piece.ofUnit unit :: pieces, ⟨after, by simp only [List.length_cons]; omega⟩)
  | '\\' :: c :: rest => do
    let plain ← unescape? c
    let (pieces, ⟨after, h⟩) ← readPieces rest
    return (.char plain :: pieces, ⟨after, by simp only [List.length_cons]; omega⟩)
  | c :: rest =>
    if c.toNat < 0x20 || c == '\\' then none
    else do
      let (pieces, ⟨after, h⟩) ← readPieces rest
      return (.char c :: pieces, ⟨after, by simp only [List.length_cons]; omega⟩)

/-- A text whose opening quote has been read; it is none if half a surrogate pair stands
alone in it. -/
def readText (cs : List Char) : Option (Option String × Rest cs) := do
  let (pieces, rest) ← readPieces cs
  return ((Piece.join pieces).map String.ofList, rest)

theorem length_afterDigits_lt (c : Char) (rest : List Char) :
    (rest.dropWhile Char.isDigit).length < (c :: rest).length :=
  Nat.lt_succ_of_le (List.dropWhile_suffix Char.isDigit).length_le

/-- The digits at the front, of which there is at least one. -/
def readDigits (cs : List Char) : Option (List Char × Rest cs) :=
  match cs with
  | [] => none
  | c :: rest =>
    if c.isDigit then
      some (c :: rest.takeWhile Char.isDigit,
        ⟨rest.dropWhile Char.isDigit, length_afterDigits_lt c rest⟩)
    else none

/-- The fraction that may stand at the front. -/
def readFraction (cs : List Char) : Option (Option (List Char) × RestOrAll cs) :=
  match cs with
  | '.' :: rest => do
    let (digits, ⟨after, h⟩) ← readDigits rest
    return (some digits, ⟨after, by simp only [List.length_cons]; omega⟩)
  | other => some (none, ⟨other, Nat.le_refl _⟩)

/-- The sign that may stand in front of an exponent. -/
def readExponentSign (cs : List Char) : Bool × RestOrAll cs :=
  match cs with
  | '-' :: rest => (true, ⟨rest, by simp⟩)
  | '+' :: rest => (false, ⟨rest, by simp⟩)
  | other => (false, ⟨other, Nat.le_refl _⟩)

/-- The exponent that may stand at the front. -/
def readExponent (cs : List Char) : Option (Option Int × RestOrAll cs) :=
  match cs with
  | [] => some (none, ⟨[], Nat.le_refl _⟩)
  | c :: rest =>
    if c == 'e' || c == 'E' then do
      let (negative, ⟨unsigned, h⟩) := readExponentSign rest
      let (digits, ⟨after, h'⟩) ← readDigits unsigned
      let size : Int := Text.natOf digits
      return (some (if negative then -size else size),
        ⟨after, by simp only [List.length_cons]; omega⟩)
    else some (none, ⟨c :: rest, Nat.le_refl _⟩)

/-- The number at the front, of which the sign has been read. -/
def readNumeral (negative : Bool) (cs : List Char) : Option (Numeral × Rest cs) := do
  let (whole, ⟨a, ha⟩) ← readDigits cs
  if whole.head? == some '0' && 1 < whole.length then none
  else
    let (fraction, ⟨b, hb⟩) ← readFraction a
    let (exponent, ⟨c, hc⟩) ← readExponent b
    return (⟨negative, whole, fraction, exponent⟩, ⟨c, by omega⟩)

/-- What is left behind a word that must stand at the front. -/
def readWord (word : List Char) (cs : List Char) : Option (RestOrAll cs) :=
  if word.isPrefixOf cs then some ⟨cs.drop word.length, by simp⟩ else none

/-- A number as a part of a text. -/
def Numeral.toRaw (n : Numeral) : Raw := n.toNumber?.elim .refused .number

/-- A container as a part of a text: deeper than the limit it has no value. -/
def Raw.atDepth (depth : Nat) (part : Raw) : Raw := if depth < nestingLimit then part else .refused

/-- What is left behind a character that must stand at the front, white space before it
being allowed. -/
def readMark (mark : Char) (cs : List Char) : Option (Rest cs) :=
  match afterSpace cs with
  | ⟨[], _⟩ => none
  | ⟨c :: rest, h⟩ => if c = mark then some ⟨rest, h⟩ else none

mutual

/-- The value at the front, which `depth` lists and objects surround. -/
def readValue (depth : Nat) (cs : List Char) : Option (Raw × Rest cs) :=
  match afterSpace cs with
  | ⟨[], _⟩ => none
  | ⟨c :: rest, hr⟩ =>
    match c with
    | '"' => do
      let (text, ⟨after, ha⟩) ← readText rest
      return (text.elim .refused .string, ⟨after, Nat.lt_trans ha hr⟩)
    | '[' =>
      match readMark ']' rest with
      | some ⟨after, ha⟩ => some (Raw.atDepth depth (.array []), ⟨after, Nat.lt_trans ha hr⟩)
      | none => do
        let (items, ⟨after, ha⟩) ← readItems (depth + 1) rest
        return (Raw.atDepth depth (.array items), ⟨after, Nat.lt_trans ha hr⟩)
    | '\x7b' =>
      match readMark '\x7d' rest with
      | some ⟨after, ha⟩ => some (Raw.atDepth depth (.object []), ⟨after, Nat.lt_trans ha hr⟩)
      | none => do
        let (entries, ⟨after, ha⟩) ← readEntries (depth + 1) rest
        return (Raw.atDepth depth (.object entries), ⟨after, Nat.lt_trans ha hr⟩)
    | 'n' => do
      let ⟨after, ha⟩ ← readWord ['u', 'l', 'l'] rest
      return (.null, ⟨after, Nat.lt_of_le_of_lt ha hr⟩)
    | 't' => do
      let ⟨after, ha⟩ ← readWord ['r', 'u', 'e'] rest
      return (.bool true, ⟨after, Nat.lt_of_le_of_lt ha hr⟩)
    | 'f' => do
      let ⟨after, ha⟩ ← readWord ['a', 'l', 's', 'e'] rest
      return (.bool false, ⟨after, Nat.lt_of_le_of_lt ha hr⟩)
    | '-' => do
      let (numeral, ⟨after, ha⟩) ← readNumeral true rest
      return (numeral.toRaw, ⟨after, Nat.lt_trans ha hr⟩)
    | c => do
      let (numeral, ⟨after, ha⟩) ← readNumeral false (c :: rest)
      return (numeral.toRaw, ⟨after, Nat.lt_of_lt_of_le ha hr⟩)
termination_by (cs.length, 0)
decreasing_by all_goals (apply Prod.Lex.left; exact hr)

/-- The items of a list up to its closing bracket. -/
def readItems (depth : Nat) (cs : List Char) : Option (List Raw × Rest cs) := do
  let (item, ⟨after, ha⟩) ← readValue depth cs
  match readMark ',' after with
  | some ⟨rest, hr⟩ =>
    have hr : rest.length < cs.length := Nat.lt_trans hr ha
    let (items, ⟨last, hl⟩) ← readItems depth rest
    return (item :: items, ⟨last, Nat.lt_trans hl hr⟩)
  | none =>
    let ⟨rest, hr⟩ ← readMark ']' after
    return ([item], ⟨rest, Nat.lt_trans hr ha⟩)
termination_by (cs.length, 1)
decreasing_by
  · exact Prod.Lex.right _ (by decide)
  · exact Prod.Lex.left _ _ hr

/-- The entries of an object up to its closing bracket. -/
def readEntries (depth : Nat) (cs : List Char) : Option (List (Option String × Raw) × Rest cs) := do
  let ⟨quoted, hq⟩ ← readMark '"' cs
  let (key, ⟨a, ha⟩) ← readText quoted
  let ⟨b, hb⟩ ← readMark ':' a
  have hb : b.length < cs.length := Nat.lt_trans hb (Nat.lt_trans ha hq)
  let (value, ⟨c, hc⟩) ← readValue depth b
  match readMark ',' c with
  | some ⟨d, hd⟩ =>
    have hd : d.length < cs.length := Nat.lt_trans hd (Nat.lt_trans hc hb)
    let (entries, ⟨last, hl⟩) ← readEntries depth d
    return ((key, value) :: entries, ⟨last, Nat.lt_trans hl hd⟩)
  | none =>
    let ⟨d, hd⟩ ← readMark '\x7d' c
    return ([(key, value)], ⟨d, Nat.lt_trans hd (Nat.lt_trans hc hb)⟩)
termination_by (cs.length, 1)
decreasing_by
  · exact Prod.Lex.left _ _ hb
  · exact Prod.Lex.left _ _ hd

end

/-- The one value that a text holds. -/
def Raw.read? (text : String) : Option Raw := do
  let (part, ⟨rest, _⟩) ← readValue 0 text.toList
  if (skipSpace rest).isEmpty then some part else none

/-- The value that a text holds. -/
def read? (text : String) : Option Json := (Raw.read? text).bind Raw.value?

end Workflow.Json
