import Workflow.Text.Blank
import Workflow.Text.Digits

/-!
# Timestamps

A timestamp is read from a date, a time of day and an offset, and kept in universal
time. Reading is lenient in its layout: numbers may be shorter, blanks may stand
between the parts, and a space may take the place of the `T`. Writing uses one form,
with as few of 0, 3, 6 or 9 digits of a second as hold the value. The second 60 of a
leap second is kept.
-/

namespace Workflow

/-- A moment in universal time. -/
structure Timestamp where
  /-- The days since the first of January 1970. -/
  day : Int
  /-- The seconds since midnight. -/
  second : Nat
  /-- The nanoseconds since the second; a leap second has more than one thousand million. -/
  nanos : Nat
  deriving DecidableEq, Repr

namespace Timestamp

open Text (natOf)

/-- The nanoseconds of a second. -/
def nanosPerSecond : Nat := 1000000000

/-- The characters behind the blanks at the front. -/
def skipBlanks (cs : List Char) : List Char := cs.dropWhile Text.isBlank

/-- A number of at most `width` digits at the front, and the digits it has. -/
def digits? (width : Nat) (cs : List Char) : Option (List Char × List Char) :=
  match (cs.take width).takeWhile Char.isDigit with
  | [] => none
  | digits => some (digits, cs.drop digits.length)

/-- A number of at most two digits within bounds, behind blanks. -/
def field? (least greatest : Nat) (cs : List Char) : Option (Nat × List Char) := do
  let (digits, rest) ← digits? 2 (skipBlanks cs)
  let n := natOf digits
  if least ≤ n ∧ n ≤ greatest then some (n, rest) else none

/-- The years that are counted. -/
def isYear (year : Int) : Bool := -262143 ≤ year ∧ year ≤ 262142

/-- A year behind blanks. With a sign it may have any number of digits. -/
def year? (cs : List Char) : Option (Int × List Char) := do
  let (year, rest) ←
    match skipBlanks cs with
    | '-' :: rest => (digits? rest.length rest).map fun (ds, r) => (-(natOf ds : Int), r)
    | '+' :: rest => (digits? rest.length rest).map fun (ds, r) => ((natOf ds : Int), r)
    | rest => (digits? 4 rest).map fun (ds, r) => ((natOf ds : Int), r)
  if isYear year then some (year, rest) else none

/-- A character that must stand behind blanks. -/
def separator? (c : Char) (cs : List Char) : Option (List Char) :=
  match skipBlanks cs with
  | d :: rest => if c = d then some rest else none
  | [] => none

/-- The nanoseconds behind a point, of which the first nine digits count. -/
def fraction? (cs : List Char) : Option (Nat × List Char) :=
  match cs with
  | '.' :: rest => do
    let (digits, after) ← digits? 9 rest
    return (natOf digits * Nat.pow 10 (9 - digits.length), after.dropWhile Char.isDigit)
  | _ => some (0, cs)

/-- The minutes of an offset, behind blanks or colons. -/
def offsetMinutes? (cs : List Char) : Option (Nat × List Char) :=
  match cs.dropWhile fun c => c == ':' || Text.isBlank c with
  | a :: b :: rest =>
    if a.isDigit && b.isDigit then
      let n := natOf [a, b]
      if n < 60 then some (n, rest) else none
    else none
  | _ => none

/-- The sign of an offset. -/
def offsetSign? (c : Char) : Option Int :=
  if c = '+' then some 1 else if c = '-' ∨ c = '\u2212' then some (-1) else none

/-- The minutes by which a local time is ahead of universal time. -/
def offset? (cs : List Char) : Option (Int × List Char) :=
  match skipBlanks cs with
  | [] => none
  | c :: rest =>
    if c = 'Z' ∨ c = 'z' then some (0, rest)
    else if ((c :: rest).take 3).map Char.toUpper = ['U', 'T', 'C'] then some (0, rest.drop 2)
    else do
      let sign ← offsetSign? c
      match rest with
      | a :: b :: after =>
        if a.isDigit && b.isDigit then
          let (minutes, last) ← offsetMinutes? after
          let total := natOf [a, b] * 60 + minutes
          if total < 24 * 60 then some (sign * total, last) else none
        else none
      | _ => none

/-- Whether a year has a 29th of February. -/
def isLeapYear (year : Int) : Bool := year % 4 == 0 && (year % 100 != 0 || year % 400 == 0)

/-- The days of a month. -/
def daysInMonth (year : Int) (month : Nat) : Nat :=
  if month = 2 then (if isLeapYear year then 29 else 28)
  else if [4, 6, 9, 11].contains month then 30
  else 31

/-- The days from the first of January 1970 to a date. Years are counted from March, so
that the day that leap years add is the last one. -/
def dayOf (year : Int) (month day : Nat) : Int :=
  let y := if month ≤ 2 then year - 1 else year
  let m : Int := if 2 < month then month - 3 else month + 9
  365 * y + y / 4 - y / 100 + y / 400 + (153 * m + 2) / 5 + day - 1 - 719468

/-- The date of a day. -/
def dateOf (day : Int) : Int × Nat × Nat :=
  let z := day + 719468
  let era := z / 146097
  let doe := z % 146097
  let yoe := (doe - doe / 1460 + doe / 36524 - doe / 146096) / 365
  let doy := doe - (365 * yoe + yoe / 4 - yoe / 100)
  let mp := (5 * doy + 2) / 153
  let d := doy - (153 * mp + 2) / 5 + 1
  let m := if mp < 10 then mp + 3 else mp - 9
  (yoe + era * 400 + (if m ≤ 2 then 1 else 0), m.toNat, d.toNat)

/-- Reads a timestamp. -/
def ofChars? (cs : List Char) : Option Timestamp := do
  let (year, cs) ← year? cs
  let cs ← separator? '-' cs
  let (month, cs) ← field? 1 12 cs
  let cs ← separator? '-' cs
  let (day, cs) ← field? 1 (daysInMonth year month) cs
  let cs ←
    match cs with
    | c :: rest => if c = 'T' ∨ c = 't' ∨ c = ' ' then some rest else none
    | [] => none
  let (hour, cs) ← field? 0 23 cs
  let cs ← separator? ':' cs
  let (minute, cs) ← field? 0 59 cs
  let cs ← separator? ':' cs
  let (second, cs) ← field? 0 60 cs
  let (fraction, cs) ← fraction? cs
  let (offset, cs) ← offset? cs
  if !(skipBlanks cs).isEmpty then none
  let leap := second == 60
  let seconds : Int := hour * 3600 + minute * 60 + (if leap then 59 else second) - offset * 60
  let utcDay := dayOf year month day + seconds / 86400
  if isYear (dateOf utcDay).1 then
    some ⟨utcDay, (seconds % 86400).toNat, fraction + (if leap then nanosPerSecond else 0)⟩
  else none

/-- Reads a timestamp. -/
def ofText? (text : String) : Option Timestamp := ofChars? text.toList

/-- A number with zeros in front, up to a width. -/
def padded (width n : Nat) : String :=
  let digits := toString n
  String.ofList (List.replicate (width - digits.length) '0') ++ digits

/-- A year, with a sign if it has not four digits. -/
def yearText (year : Int) : String :=
  if 0 ≤ year ∧ year ≤ 9999 then padded 4 year.natAbs
  else (if year < 0 then "-" else "+") ++ padded 4 year.natAbs

/-- The date of a timestamp. -/
def dateText (t : Timestamp) : String :=
  let (year, month, day) := dateOf t.day
  yearText year ++ "-" ++ padded 2 month ++ "-" ++ padded 2 day

/-- The digits of a second behind the point. -/
def fractionText (nanos : Nat) : String :=
  if nanos = 0 then ""
  else if nanos % 1000000 = 0 then "." ++ padded 3 (nanos / 1000000)
  else if nanos % 1000 = 0 then "." ++ padded 6 (nanos / 1000)
  else "." ++ padded 9 nanos

/-- The time of day of a timestamp. -/
def timeText (t : Timestamp) : String :=
  let leap := nanosPerSecond ≤ t.nanos
  padded 2 (t.second / 3600) ++ ":" ++ padded 2 (t.second / 60 % 60) ++ ":" ++
    padded 2 (t.second % 60 + (if leap then 1 else 0)) ++
    fractionText (if leap then t.nanos - nanosPerSecond else t.nanos)

/-- A timestamp as it is exchanged. -/
def write (t : Timestamp) : String := t.dateText ++ "T" ++ t.timeText ++ "Z"

/-- A timestamp as it is shown. -/
def display (t : Timestamp) : String := t.dateText ++ " " ++ t.timeText ++ " UTC"

end Timestamp

end Workflow
