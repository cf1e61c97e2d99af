/-!
# Indices that move forward

The functions that look for the end of a type or of a statement answer with an index
that lies behind the one they are asked about. The facts below join such steps.
-/

namespace Workflow.Script.Index

/-- A step over two tokens moves forward. -/
theorem lt_two (i : Nat) : i < i + 2 := Nat.lt_add_of_pos_right (by decide)

/-- What lies beyond the token after the next lies beyond the token. -/
theorem lt_of_two_lt {i e : Nat} (h : i + 2 < e) : i < e := Nat.lt_trans (lt_two i) h

/-- What lies beyond the next token does not lie before the token. -/
theorem le_of_succ_lt {i e : Nat} (h : i + 1 < e) : i ≤ e := Nat.le_of_lt (Nat.lt_of_succ_lt h)

/-- A step forward and then one that does not go back do not go back. -/
theorem le_of_lt_of_le {i m e : Nat} (h : i < m) (h' : m ≤ e) : i ≤ e :=
  Nat.le_of_lt (Nat.lt_of_lt_of_le h h')

/-- A step forward, a token and another step forward move forward. -/
theorem lt_of_lt_of_succ_lt {i m e : Nat} (h : i < m) (h' : m + 1 < e) : i < e :=
  Nat.lt_trans h (Nat.lt_of_succ_lt h')

/-- Five steps forward from the next token and one that does not go back do not go back. -/
theorem le_of_steps {i b c d f m e : Nat} (hb : i + 1 < b) (hc : b < c) (hd : c < d) (hf : d < f)
    (hm : f < m) (he : m ≤ e) : i ≤ e := by
  omega

/-- What does not lie before the token after the next lies beyond the token. -/
theorem lt_of_two_le {i e : Nat} (h : i + 2 ≤ e) : i < e := Nat.lt_of_lt_of_le (lt_two i) h

/-- What does not lie before a later token lies beyond the token. -/
theorem lt_of_later_le {i e : Nat} (m : { m : Nat // i + 1 ≤ m }) (h : m.1 ≤ e) : i < e :=
  Nat.lt_of_lt_of_le m.2 h

/-- What lies beyond the token next to a later one lies beyond the token. -/
theorem lt_of_later_lt {i e : Nat} (m : { m : Nat // i + 1 ≤ m }) (h : m.1 + 1 < e) : i < e :=
  Nat.lt_trans m.2 (Nat.lt_of_succ_lt h)

end Workflow.Script.Index
