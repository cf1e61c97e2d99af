/-!
# Positions in a text

A place in a text is a number of characters from its start. People read it as a
line and a column, both counted from one; only a line feed ends a line, and a
column counts characters.
-/

namespace Workflow.Text

/-- A line and a column, both counted from one. -/
structure Position where
  /-- One more than the number of line feeds before the place. -/
  line : Nat
  /-- One more than the number of characters between the last line feed and the place. -/
  column : Nat
  deriving DecidableEq, Repr

/-- The position reached from `p` by reading one character. -/
def Position.advance (p : Position) (c : Char) : Position :=
  if c = '\n' then ⟨p.line + 1, 1⟩ else ⟨p.line, p.column + 1⟩

/-- The position just after a text that starts a file. -/
def Position.after (before : List Char) : Position :=
  before.foldl Position.advance ⟨1, 1⟩

/-- The line of a place is one more than the number of line feeds before it. -/
theorem Position.line_after (before : List Char) :
    (Position.after before).line = before.count '\n' + 1 := by
  suffices h : ∀ (cs : List Char) (p : Position),
      (cs.foldl Position.advance p).line = cs.count '\n' + p.line by
    simpa [Position.after] using h before ⟨1, 1⟩
  intro cs
  induction cs with
  | nil => simp
  | cons c rest ih =>
    intro p
    rw [List.foldl_cons, ih, List.count_cons]
    by_cases h : c = '\n'
    · simp [Position.advance, h]
      omega
    · simp [Position.advance, h]

end Workflow.Text
