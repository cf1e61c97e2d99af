/-!
# Character classes given by ranges

A character class is written as an ascending list of closed code point ranges.
Membership reads the list from the front and stops at the first range that lies
beyond the character, so a class costs little for the low code points that make
up most texts.
-/

namespace Workflow.Text

/-- A list of closed code point ranges, in ascending order. -/
abbrev Ranges := List (Nat × Nat)

/-- Whether a code point lies in one of the ranges of an ascending list. -/
def Ranges.has : Ranges → Nat → Bool
  | [], _ => false
  | (first, last) :: rest, n => !decide (n < first) && (decide (n ≤ last) || Ranges.has rest n)

/-- A code point below the first range is in no ascending class. -/
theorem Ranges.has_of_lt_first {first last n : Nat} {rest : Ranges} (h : n < first) :
    Ranges.has ((first, last) :: rest) n = false := by
  simp [Ranges.has, h]

/-- A code point of the first range is in the class. -/
theorem Ranges.has_of_mem_first {first last n : Nat} {rest : Ranges} (h : first ≤ n)
    (h' : n ≤ last) : Ranges.has ((first, last) :: rest) n = true := by
  simp [Ranges.has, h', Nat.not_lt.mpr h]

end Workflow.Text
