/-!
# Punycode

The name of a host is written in ASCII. A label with other letters is written as its
ASCII letters, a hyphen, and digits that say which letters to insert where: the other
letters come in by their code points, the smallest first, and each one is given by how
many steps lie before it, a step being a place to insert a code point at. Numbers are
written in the base 36 with the lowest digit first, and a digit below a threshold ends a
number. The thresholds follow the numbers that were written before.
-/

namespace Workflow.Address.Punycode

/-- A digit in the base 36. Letters come before numerals. -/
def digit (n : Nat) : Char :=
  if n < 26 then Char.ofNat ('a'.toNat + n) else Char.ofNat ('0'.toNat + (n - 26))

/-- The threshold of the digit in a position, which is counted by 36. -/
def threshold (position bias : Nat) : Nat := max 1 (min 26 (position - bias))

/-- A threshold is never zero, so a number ends. -/
theorem threshold_pos (position bias : Nat) : 0 < threshold position bias :=
  Nat.lt_of_lt_of_le (by decide) (Nat.le_max_left 1 _)

/-- What is left of a number behind a digit is less than the number. -/
theorem left_lt {number t : Nat} (ht : 0 < t) (h : ¬number < t) :
    (number - t) / (36 - t) < number :=
  Nat.lt_of_le_of_lt (Nat.div_le_self _ _)
    (Nat.sub_lt (Nat.lt_of_lt_of_le ht (Nat.le_of_not_lt h)) ht)

/-- The digits of a number, from a position on. -/
def digits (bias position number : Nat) : List Char :=
  let t := threshold position bias
  if h : number < t then [digit number]
  else digit (t + (number - t) % (36 - t)) :: digits bias (position + 36) ((number - t) / (36 - t))
termination_by number
decreasing_by exact left_lt (threshold_pos position bias) h

/-- The part of the thresholds that the size of a number settles. -/
def scale (number bias : Nat) : Nat :=
  if h : 455 < number then scale (number / 35) (bias + 36)
  else bias + 36 * number / (number + 38)
termination_by number
decreasing_by exact Nat.div_lt_self (Nat.lt_of_le_of_lt (Nat.zero_le _) h) (by decide)

/-- The thresholds after a number, when so many letters have been placed. -/
def adapt (number placed : Nat) (isFirst : Bool) : Nat :=
  let damped := if isFirst then number / 700 else number / 2
  scale (damped + damped / placed) 0

/-- How far a label has been written. -/
structure State where
  /-- The digits. -/
  written : List Char
  /-- The least code point that may still be inserted. -/
  least : Nat
  /-- The steps since the last letter. -/
  steps : Nat
  /-- The thresholds. -/
  bias : Nat
  /-- The letters that have been placed. -/
  placed : Nat

/-- The state after a letter of the label, when a code point is inserted. -/
def State.place (plain point : Nat) (s : State) (c : Char) : State :=
  if c.toNat < point then { s with steps := s.steps + 1 }
  else if c.toNat = point then
    { s with
      written := s.written ++ digits s.bias 36 s.steps
      steps := 0
      bias := adapt s.steps (s.placed + 1) (s.placed == plain)
      placed := s.placed + 1 }
  else s

/-- The state after a code point has been inserted everywhere. -/
def State.insert (label : List Char) (plain : Nat) (s : State) (point : Nat) : State :=
  let start := { s with steps := s.steps + (point - s.least) * (s.placed + 1) }
  let after := label.foldl (State.place plain point) start
  { after with least := point + 1, steps := after.steps + 1 }

/-- Whether the letters of a label are in ASCII already. -/
def isPlain (label : List Char) : Bool := label.all (·.toNat < 128)

/-- A label in ASCII. -/
def encode (label : List Char) : List Char :=
  if isPlain label then label
  else
    let plain := label.filter (·.toNat < 128)
    let points := ((label.filter (128 ≤ ·.toNat)).map Char.toNat).eraseDups.mergeSort
    let start : State := ⟨[], 128, 0, 72, plain.length⟩
    let rest := (points.foldl (State.insert label plain.length) start).written
    "xn--".toList ++ (if plain.isEmpty then [] else plain ++ ['-']) ++ rest

end Workflow.Address.Punycode
