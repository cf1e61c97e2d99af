import Workflow.Text.Digits

/-!
# Escapes in addresses

A character that may not stand in a part of an address is escaped byte by byte: each
byte becomes a percent sign and two hexadecimal digits in capitals. What may not stand
is not printable ASCII, or it is one of a list that depends on the part. Escapes that
are already there are kept, because the percent sign is in none of the lists.
-/

namespace Workflow.Address

/-- The characters below 128 that are escaped in a fragment. -/
def fragmentEscaped : List Char := [' ', '"', '<', '>', '\x60']

/-- The characters below 128 that are escaped in a path. -/
def pathEscaped : List Char := [' ', '"', '<', '>', '\x60', '\x7b', '\x7d']

/-- The characters below 128 that are escaped in the name and the password of a user. -/
def userEscaped : List Char :=
  pathEscaped ++ ['#', '?', '/', ':', ';', '=', '@', '[', '\\', ']', '^', '|']

/-- The characters below 128 that are escaped in a query. -/
def queryEscaped : List Char := [' ', '"', '<', '>']

/-- A hexadecimal digit in capitals. -/
def hexDigit (n : Nat) : Char := (Nat.digitChar n).toUpper

/-- A byte as it is escaped. -/
def escapeByte (b : UInt8) : List Char := ['%', hexDigit (b.toNat / 16), hexDigit (b.toNat % 16)]

/-- A character as its escaped bytes. -/
def escapeChar (c : Char) : List Char := (String.singleton c).toUTF8.toList.flatMap escapeByte

/-- Characters in which those of a list are escaped, and those that are not printable in
ASCII. -/
def escape (escaped : List Char) (cs : List Char) : List Char :=
  cs.flatMap fun c =>
    if c.toNat < 0x20 || 0x7f ≤ c.toNat || escaped.contains c then escapeChar c else [c]

/-- The byte that an escape stands for. -/
def byteOf? (high low : Char) : Option UInt8 := (Text.numberIn? 16 [high, low]).map UInt8.ofNat

/-- The bytes that characters stand for when their escapes are resolved. -/
def unescapeBytes : List Char → List UInt8
  | '%' :: high :: low :: rest =>
    match byteOf? high low with
    | some b => b :: unescapeBytes rest
    | none => '%'.toUInt8 :: unescapeBytes (high :: low :: rest)
  | c :: cs => (String.singleton c).toUTF8.toList ++ unescapeBytes cs
  | [] => []

/-- The characters that stand for escaped ones, if their bytes are those of a text. -/
def unescape? (cs : List Char) : Option (List Char) :=
  (String.fromUTF8? (ByteArray.mk (unescapeBytes cs).toArray)).map String.toList

end Workflow.Address
