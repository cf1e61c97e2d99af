/-!
# Double precision numbers

A finite double is a sign, a significand and a scale; its value is the significand
times two to the power of the scale, divided by `2 ^ 1074`. Every value but zero has
one such form. Results are rounded to the nearest double, a tie going to the even
significand, and there is none when the result would be infinite. All of this is
exact arithmetic on natural numbers.
-/

namespace Workflow

/-- A finite double precision number. -/
structure Double where
  /-- Whether the sign is negative; zero has both signs. -/
  negative : Bool
  /-- The significand, of at most 53 binary digits. -/
  significand : Nat
  /-- The value is the significand times two to this power, divided by `2 ^ 1074`. -/
  scale : Nat
  /-- The significand has 53 digits unless the scale is the least one. -/
  canonical : significand < Nat.pow 2 53 ∧ scale ≤ 2045 ∧ (scale = 0 ∨ Nat.pow 2 52 ≤ significand)
  deriving DecidableEq, Repr

namespace Double

/-- Zero, with either sign. -/
def zero (negative : Bool) : Double :=
  ⟨negative, 0, 0, by decide⟩

/-- The quotient of two natural numbers, rounded to the nearest one; a tie goes to the
even one. -/
def roundQuotient (num den : Nat) : Nat :=
  let q := num / den
  let r := 2 * (num % den)
  if r < den ∨ (r = den ∧ q % 2 = 0) then q else q + 1

/-- The double that rounds `num / den` with the given scale, if it has the right number
of digits. -/
def atScale (negative : Bool) (num den scale : Nat) : Option Double :=
  let q := roundQuotient (num * Nat.pow 2 1074) (den * Nat.pow 2 scale)
  if h : q < Nat.pow 2 53 ∧ scale ≤ 2045 ∧ (scale = 0 ∨ Nat.pow 2 52 ≤ q) then
    some ⟨negative, q, scale, h⟩
  else none

/-- The double nearest to `num / den`, or none when it would be infinite. The lengths of
the two numbers leave at most three scales to try. -/
def ofRatio (negative : Bool) (num den : Nat) : Option Double :=
  if num = 0 then some (zero negative)
  else
    let least := num.log2 + 1021 - den.log2
    [least, least + 1, least + 2].findSome? (atScale negative num den)

/-- The double nearest to a natural number, or none when it would be infinite. -/
def ofNat (n : Nat) : Option Double := ofRatio false n 1

/-- The product, or none when it would be infinite. -/
def mul (a b : Double) : Option Double :=
  ofRatio (a.negative != b.negative)
    (a.significand * b.significand * Nat.pow 2 (a.scale + b.scale)) (Nat.pow 2 2148)

/-- The quotient by a number other than zero, or none when it would be infinite. -/
def div (a b : Double) : Option Double :=
  ofRatio (a.negative != b.negative) (a.significand * Nat.pow 2 a.scale)
    (b.significand * Nat.pow 2 b.scale)

/-- The number with the other sign. -/
def neg (a : Double) : Double := { a with negative := !a.negative }

/-- Whether the value is zero. -/
def isZero (a : Double) : Bool := a.significand == 0

end Double

end Workflow
