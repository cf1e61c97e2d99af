/-!
# Digits

A run of digits writes a natural number, in the base ten if no other is named. Leading
zeros do not count, and no digits at all write zero.
-/

namespace Workflow.Text

/-- The value of a decimal digit. -/
def digitValue (c : Char) : Nat := c.toNat - '0'.toNat

/-- The natural number that decimal digits write. -/
def natOf (digits : List Char) : Nat := Nat.ofDigitChars 10 digits 0

/-- The value of a digit in a base of up to sixteen. -/
def hexValue? (c : Char) : Option Nat :=
  if '0' ≤ c ∧ c ≤ '9' then some (c.toNat - '0'.toNat)
  else if 'a' ≤ c ∧ c ≤ 'f' then some (c.toNat - 'a'.toNat + 10)
  else if 'A' ≤ c ∧ c ≤ 'F' then some (c.toNat - 'A'.toNat + 10)
  else none

/-- The natural number that digits write in a base, if all of them are digits of the base. -/
def numberIn? (base : Nat) (digits : List Char) : Option Nat :=
  digits.foldlM (fun n c => do
    let d ← hexValue? c
    if d < base then return base * n + d else none) 0

/-- The digits of a number write the number. -/
theorem natOf_toDigits (n : Nat) : natOf (Nat.toDigits 10 n) = n :=
  Nat.ofDigitChars_toDigits (by decide) (by decide)

theorem toList_toString (n : Nat) : (toString n).toList = Nat.toDigits 10 n := by
  simp [toString, Nat.repr]

theorem toString_injective {m n : Nat} (h : toString m = toString n) : m = n := by
  rw [← natOf_toDigits m, ← toList_toString, h, toList_toString, natOf_toDigits]

end Workflow.Text
