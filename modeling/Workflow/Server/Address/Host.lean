import Workflow.Server.Address.Escape
import Workflow.Server.Address.Punycode

/-!
# Hosts

A host is a name or a number. The number of the older kind has 32 bits and is written as
four decimal numbers with dots between them; it is read from up to four numbers, of which
the last one fills what the others leave, in the base eight behind a zero and sixteen
behind `0x`. The number of the newer kind has eight groups of 16 bits, which stand in
brackets. The longest run of zero groups is left out when it is written, if there are two
or more of them; among runs of one length it is the first.

A name is in small letters and has no character that would end it. If its last label is
a number, it must be a number as a whole.
-/

namespace Workflow.Address

/-- A host. -/
inductive Host where
  /-- A name. -/
  | name (letters : List Char)
  /-- A number of 32 bits. -/
  | short (number : Nat)
  /-- A number in groups of 16 bits. -/
  | long (groups : List Nat)
  deriving DecidableEq, Repr

namespace Host

/-- The number that a part of a short number writes. -/
def partOf? : List Char → Option Nat
  | [] => none
  | '0' :: 'x' :: ds | '0' :: 'X' :: ds => Text.numberIn? 16 ds
  | '0' :: d :: ds => Text.numberIn? 8 (d :: ds)
  | ds => Text.numberIn? 10 ds

/-- The parts between the dots of a name, without the empty one behind a dot at its end. -/
def labels (letters : List Char) : List (List Char) :=
  match (letters.splitOn '.').reverse with
  | [] :: before :: rest => (before :: rest).reverse
  | reversed => reversed.reverse

/-- Whether a name ends like a number. -/
def endsInNumber (letters : List Char) : Bool :=
  match (labels letters).getLast? with
  | none | some [] => false
  | some label => label.all Char.isDigit || (partOf? label).isSome

/-- The short number that a name writes. -/
def short? (letters : List Char) : Option Nat := do
  let parts ← (labels letters).mapM partOf?
  let first := parts.dropLast
  let last ← parts.getLast?
  if first.length < 4 && first.all (· < 256) && last < Nat.pow 256 (4 - first.length) then
    return first.zipIdx.foldl (fun n p => n + p.1 * Nat.pow 256 (3 - p.2)) last
  else none

/-- A byte of a short number within a long one, which has no zeros in front. -/
def byte? (digits : List Char) : Option Nat := do
  let n ← Text.numberIn? 10 digits
  if n < 256 && digits == Nat.toDigits 10 n then return n else none

/-- The groups that one part of a long number writes. Only the last part may be a short
number, which makes two groups. -/
def groupsOf? (isLast : Bool) (part : List Char) : Option (List Nat) :=
  if isLast && part.contains '.' then do
    match ← (part.splitOn '.').mapM byte? with
    | [a, b, c, d] => return [256 * a + b, 256 * c + d]
    | _ => none
  else if part.isEmpty || 4 < part.length then none
  else (Text.numberIn? 16 part).map ([·])

/-- The groups that parts write. -/
def groups? (endsNumber : Bool) : List (List Char) → Option (List Nat)
  | [] => some []
  | part :: rest => do
    return (← groupsOf? (endsNumber && rest.isEmpty) part) ++ (← groups? endsNumber rest)

/-- The parts between the colons of characters, of which there are none in no characters. -/
def parts (cs : List Char) : List (List Char) := if cs.isEmpty then [] else cs.splitOn ':'

/-- What stands before and behind the first two colons in a row. -/
def gap? : List Char → Option (List Char × List Char)
  | ':' :: ':' :: rest => some ([], rest)
  | [] => none
  | c :: rest => (gap? rest).map fun (before, behind) => (c :: before, behind)

/-- The long number that characters write. Two colons in a row leave out at least one
group. -/
def long? (cs : List Char) : Option (List Nat) := do
  match gap? cs with
  | some (before, behind) =>
    let front ← groups? false (parts before)
    let back ← groups? true (parts behind)
    if front.length + back.length < 8 then
      return front ++ List.replicate (8 - front.length - back.length) 0 ++ back
    else none
  | none =>
    let all ← groups? true (parts cs)
    if all.length = 8 then return all else none

/-- The characters that may not stand in the name of a host on the web. -/
def isForbidden (c : Char) : Bool :=
  c.toNat ≤ 0x20 || c.toNat == 0x7f ||
    ['#', '%', '/', ':', '<', '>', '?', '@', '[', '\\', ']', '^', '|'].contains c

/-- The characters that may not stand in the name of a host elsewhere. -/
def isForbiddenElsewhere (c : Char) : Bool :=
  [Char.ofNat 0, ' ', '#', '/', ':', '<', '>', '?', '@', '[', '\\', ']', '^', '|'].contains c

/-- The long number that characters behind an opening bracket write. -/
def readLong? (cs : List Char) : Option Host :=
  if cs.getLast? = some ']' then (long? cs.dropLast).map long else none

/-- The host on the web that characters write. -/
def read? : List Char → Option Host
  | '[' :: rest => readLong? rest
  | cs => do
    let letters := (← unescape? cs).map Char.toLower
    let letters := ['.'].intercalate ((letters.splitOn '.').map Punycode.encode)
    if letters.isEmpty || letters.any isForbidden then none
    else if endsInNumber letters then (short? letters).map short
    else some (name letters)

/-- The host elsewhere that characters write. -/
def readElsewhere? : List Char → Option Host
  | '[' :: rest => readLong? rest
  | cs => if cs.any isForbiddenElsewhere then none else some (name (escape [] cs))

/-- The length of the run of zeros at the front. -/
def zeros (groups : List Nat) : Nat := (groups.takeWhile (· == 0)).length

/-- The greatest length of a run of zeros. -/
def longestRun : List Nat → Nat
  | [] => 0
  | group :: rest => max (zeros (group :: rest)) (longestRun rest)

/-- Groups as they are written, with colons between them. -/
def writeGroups (groups : List Nat) : List Char :=
  [':'].intercalate (groups.map (Nat.toDigits 16))

/-- Groups as they are written, after those in `before`, where the first run of so many
zeros is left out. -/
def writeWithout (run : Nat) (before : List Nat) : List Nat → List Char
  | [] => writeGroups before
  | group :: rest =>
    if zeros (group :: rest) = run then
      writeGroups before ++ "::".toList ++ writeGroups ((group :: rest).drop run)
    else writeWithout run (before ++ [group]) rest

/-- The written form of a host. -/
def text : Host → List Char
  | name letters => letters
  | short n =>
    let byte (i : Nat) : List Char := Nat.toDigits 10 (n / Nat.pow 256 i % 256)
    byte 3 ++ '.' :: byte 2 ++ '.' :: byte 1 ++ '.' :: byte 0
  | long groups =>
    let run := longestRun groups
    '[' :: (if run < 2 then writeGroups groups else writeWithout run [] groups) ++ [']']

end Host

end Workflow.Address
