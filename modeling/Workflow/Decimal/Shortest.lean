import Workflow.Decimal.Double

/-!
# The shortest decimal of a double

The decimals that read back as a double fill the interval between the middles to
its two neighbours, ends included if the significand is even. The shortest decimal
is found on the grids of 1, 2, … 17 significant digits: on each the two points next
to the value are tried, the first grid with a point in the interval wins, and of two
points the nearer one. A tie goes to the even digit.
-/

namespace Workflow.Double

/-- Whether `num / den` is at least ten to the power `e`. -/
def atLeastPower (num den : Nat) (e : Int) : Bool :=
  if 0 ≤ e then den * Nat.pow 10 e.toNat ≤ num else den ≤ num * Nat.pow 10 (-e).toNat

/-- The decimal exponent of the positive number `num / den`, estimated from the lengths of
the two numbers and then raised as far as the number allows. -/
def decimalExponent (num den : Nat) : Int :=
  let estimate := ((num.log2 : Int) - den.log2) * 1233 / 4096 - 1
  ([3, 2, 1].find? fun (n : Nat) => atLeastPower num den (estimate + n)).elim estimate
    fun n => estimate + n

/-- A positive decimal number: digits and a power of ten. -/
structure Decimal where
  /-- The digits, read as a natural number. -/
  digits : Nat
  /-- The power of ten that the digits are multiplied by. -/
  exponent : Int
  deriving DecidableEq, Repr

/-- The interval of the numbers that read back as a double, in the units in which the
double itself is four times its significand. -/
structure Interval where
  /-- The lower end. -/
  low : Nat
  /-- The upper end. -/
  high : Nat
  /-- Whether the ends belong to the interval. -/
  closed : Bool
  deriving DecidableEq, Repr

/-- The numbers that read back as `a`. Below a power of two the neighbours lie closer. -/
def interval (a : Double) : Interval :=
  let narrow := a.significand = Nat.pow 2 52 ∧ 0 < a.scale
  ⟨4 * a.significand - (if narrow then 1 else 2), 4 * a.significand + 2, a.significand % 2 == 0⟩

/-- Whether `num / den` lies in the interval. -/
def Interval.has (i : Interval) (num den : Nat) : Bool :=
  if i.closed then i.low * den ≤ num && num ≤ i.high * den
  else i.low * den < num && num < i.high * den

/-- The point of the grid of multiples of `10 ^ e` nearest to a double that reads back as
it, if there is one. -/
def onGrid (a : Double) (e : Int) : Option Decimal :=
  -- A double is `4 * significand` units, and ten to the power `e` is `ten / unit` units.
  let ten := (if 0 ≤ e then Nat.pow 10 e.toNat else 1) * Nat.pow 2 (1076 - a.scale)
  let unit := (if 0 ≤ e then 1 else Nat.pow 10 (-e).toNat) * Nat.pow 2 (a.scale - 1076)
  let value := 4 * a.significand * unit
  let below := value / ten
  let above := below + 1
  let i := a.interval
  match i.has (below * ten) unit, i.has (above * ten) unit with
  | true, true =>
    let rest := 2 * (value % ten)
    if rest < ten ∨ (rest = ten ∧ below % 2 = 0) then some ⟨below, e⟩ else some ⟨above, e⟩
  | true, false => some ⟨below, e⟩
  | false, true => some ⟨above, e⟩
  | false, false => none

/-- The shortest decimal that reads back as a double other than zero. -/
def shortest (a : Double) : Decimal :=
  let top := decimalExponent (a.significand * Nat.pow 2 a.scale) (Nat.pow 2 1074)
  ((List.range 17).findSome? fun (n : Nat) => onGrid a (top - n)).getD ⟨0, 0⟩

/-- The decimal digits of a natural number, the most significant one first. -/
def natDigits (n : Nat) : List Char := Nat.toDigits 10 n

/-- The digits of a decimal without zeros at the end, and the power of ten of the first. -/
def Decimal.scientific (d : Decimal) : List Char × Int :=
  let digits := natDigits d.digits
  ((digits.reverse.dropWhile (· == '0')).reverse, d.exponent + (digits.length - 1 : Nat))

end Workflow.Double
