import Workflow.Json.Raw
import Workflow.Text.Digits

/-!
# Reading numbers

A numeral without fraction and exponent that fits 64 bits is an integer. Every other
numeral is a double, computed as the reader of the format does it: the digits are
gathered into 64 bits as long as they fit, and the double of that number is
multiplied or divided by one power of ten, each step rounded by itself. The result
can differ from the nearest double in the last place.
-/

namespace Workflow.Json

/-- A number as it is written. -/
structure Numeral where
  /-- Whether there is a minus sign. -/
  negative : Bool
  /-- The digits before the point. -/
  whole : List Char
  /-- The digits behind the point, if there is one. -/
  fraction : Option (List Char)
  /-- The written exponent, if there is one. -/
  exponent : Option Int
  deriving DecidableEq, Repr

namespace Numeral

/-- Appends digits to a significand as long as it fits 64 bits. The second part holds the
digits that were not taken. -/
def gather (significand : Nat) : List Char → Nat × List Char
  | [] => (significand, [])
  | c :: rest =>
    let next := significand * 10 + Text.digitValue c
    if next < Nat.pow 2 64 then gather next rest else (significand, c :: rest)

/-- The double nearest to a power of ten. -/
def powerOfTen (n : Nat) : Option Double := Double.ofNat (Nat.pow 10 n)

/-- The greatest power of ten that is a double. -/
def greatestPower : Nat := 308

/-- Divides by ten to the power `n`, in steps of at most the greatest power. -/
def scaleDown (f : Double) (n : Nat) : Option Double :=
  if _h : n ≤ greatestPower then (powerOfTen n).bind f.div
  else if f.isZero then some f
  else do
    let power ← powerOfTen greatestPower
    let g ← f.div power
    scaleDown g (n - greatestPower)
termination_by n
decreasing_by exact Nat.sub_lt (by omega) (by decide)

/-- Multiplies by a power of ten, or fails when the result would be infinite. -/
def scaleBy (f : Double) (exponent : Int) : Option Double :=
  if exponent < 0 then scaleDown f exponent.natAbs
  else if exponent ≤ greatestPower then (powerOfTen exponent.natAbs).bind f.mul
  else if f.isZero then some f
  else none

/-- The double that a numeral writes, unless it is out of range. -/
def toDouble? (n : Numeral) : Option Double := do
  let fraction := n.fraction.getD []
  let (first, skipped) := gather 0 n.whole
  let (significand, ignored) := gather first fraction
  let exponent :=
    n.exponent.getD 0 + skipped.length - ((fraction.length - ignored.length : Nat) : Int)
  let f ← (Double.ofNat significand).bind (scaleBy · exponent)
  return if n.negative then f.neg else f

/-- The number that a numeral writes, unless it is out of range. Zero with a minus sign is
a double. -/
def toNumber? (n : Numeral) : Option Number :=
  let whole := Text.natOf n.whole
  if n.fraction.isNone && n.exponent.isNone then
    if n.negative then
      if 0 < whole ∧ whole ≤ Nat.pow 2 63 then some (.integer (-whole))
      else n.toDouble?.map .double
    else if whole < Nat.pow 2 64 then some (.integer whole)
    else n.toDouble?.map .double
  else n.toDouble?.map .double

end Numeral

end Workflow.Json
