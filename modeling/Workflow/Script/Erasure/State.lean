import Workflow.Script.StatementExtent

/-!
# The state of type erasure

Erasure reads a token table once from front to back and marks tokens that only
exist for types. What it knows at a token is which tokens are still kept, the
brackets it stands in, how far each of them has got with a variable declaration
and how many conditional expressions wait for their colon there, and which curly
brackets open the body of a class.
-/

namespace Workflow.Script

/-- What a bracket, or the whole source, is for. -/
inductive FrameKind where
  /-- The source outside every bracket. -/
  | top
  /-- Curly brackets of a block or of an object literal. -/
  | block
  /-- Curly brackets of a class. -/
  | classBody
  /-- Round brackets of a parameter list. -/
  | parameters
  /-- Any other round brackets. -/
  | group
  /-- Square brackets. -/
  | square
  /-- Curly brackets of an import or of an export. -/
  | moduleClause
  deriving DecidableEq, Repr

/-- How far a variable declaration has been read. -/
inductive Declaration where
  /-- The next token is a declared name, or opens a pattern. -/
  | expectName
  /-- Inside a pattern that closes at the given index. -/
  | inPattern (close : Nat)
  /-- Behind a declared name or pattern. -/
  | afterName
  /-- Behind the equals sign. -/
  | initializer
  deriving DecidableEq, Repr

/-- What is known about an open bracket. -/
structure Frame where
  /-- What the bracket is for. -/
  kind : FrameKind
  /-- The question marks of conditional expressions that wait for their colon. -/
  conditionals : Nat
  /-- How far a variable declaration has been read, if there is one. -/
  declaration : Option Declaration
  deriving DecidableEq, Repr

/-- The frame of a bracket that has just been opened. -/
def Frame.fresh (kind : FrameKind) : Frame := ⟨kind, 0, none⟩

/-- What erasure knows at a token. -/
structure Erasure where
  /-- For every token whether it is still kept. -/
  kept : Array Bool
  /-- The innermost open bracket. -/
  frame : Frame
  /-- The brackets around it, innermost first. -/
  outer : List Frame
  /-- The indices of the curly brackets that open a class body. -/
  classBodies : List Nat
  deriving DecidableEq, Repr

namespace Erasure

/-- Nothing is removed and no bracket open before the first token. -/
def start (table : TokenTable) : Erasure :=
  ⟨Array.replicate table.tokens.size true, .fresh .top, [], []⟩

/-- Whether the token at an index is kept. -/
def keeps (s : Erasure) (i : Nat) : Bool := s.kept[i]? == some true

/-- The nearest kept token before `i`. -/
def previous (s : Erasure) : Nat → Option Nat
  | 0 => none
  | i + 1 => if s.keeps i then some i else s.previous i

/-- Removes the tokens from `first` up to, not including, `stop`. The end of the source
is never removed. -/
def remove (s : Erasure) (table : TokenTable) (first stop : Nat) : Erasure :=
  { s with
    kept := s.kept.mapIdx fun k kept =>
      kept && !(decide (first ≤ k) && decide (k < min stop table.finish)) }

/-- Changes the innermost frame. -/
def onFrame (s : Erasure) (f : Frame → Frame) : Erasure := { s with frame := f s.frame }

/-- The nearest kept token lies before the token asked about. -/
theorem previous_lt {s : Erasure} {i p : Nat} (h : s.previous i = some p) : p < i := by
  induction i with
  | zero => simp [previous] at h
  | succ i ih =>
    rw [previous] at h
    split at h
    · cases h; exact Nat.lt_succ_self _
    · exact Nat.lt_succ_of_lt (ih h)

/-- A token is kept after a removal if it was kept before and lies outside the range. -/
theorem keeps_remove (s : Erasure) (table : TokenTable) (first stop k : Nat) :
    (s.remove table first stop).keeps k =
      (s.keeps k && !(decide (first ≤ k) && decide (k < min stop table.finish))) := by
  simp only [keeps, remove, Array.getElem?_mapIdx]
  cases s.kept[k]? with
  | none => rfl
  | some b => cases b <;> simp

end Erasure

end Workflow.Script
