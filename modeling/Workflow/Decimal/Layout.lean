import Workflow.Decimal.Shortest

/-!
# Writing doubles

A double is written with the digits of its shortest decimal. Numbers of ordinary
size are written positionally and keep at least one digit behind the point; all
others are written with an exponent, whose sign is always there.
-/

namespace Workflow.Double

/-- Which powers of ten of the first digit are written positionally. -/
structure Layout where
  /-- The least power. -/
  least : Int
  /-- The greatest power. -/
  greatest : Int
  deriving DecidableEq, Repr

/-- Numbers from `0.00001` up to below ten to the power 16 are written positionally. -/
def Layout.ordinary : Layout := ⟨-5, 15⟩

/-- Digits, the first of which has the given power of ten, with a point. -/
def positional (digits : List Char) (power : Int) : List Char :=
  if power < 0 then '0' :: '.' :: (List.replicate (-power - 1).toNat '0' ++ digits)
  else
    let whole := power.toNat + 1
    let fraction := digits.drop whole
    digits.take whole ++ List.replicate (whole - digits.length) '0' ++
      '.' :: (if fraction.isEmpty then ['0'] else fraction)

/-- Digits, the first of which has the given power of ten, with an exponent. -/
def exponential (digits : List Char) (power : Int) : List Char :=
  let mantissa :=
    match digits with
    | first :: second :: rest => first :: '.' :: second :: rest
    | _ => digits
  mantissa ++ 'e' :: (if power < 0 then '-' else '+') :: natDigits power.natAbs

/-- The text of a double. -/
def write (a : Double) : List Char :=
  let unsigned :=
    if a.isZero then ['0', '.', '0']
    else
      let (digits, power) := a.shortest.scientific
      if Layout.ordinary.least ≤ power ∧ power ≤ Layout.ordinary.greatest then
        positional digits power
      else exponential digits power
  if a.negative then '-' :: unsigned else unsigned

end Workflow.Double
