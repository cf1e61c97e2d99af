import Mathlib.Data.List.Basic
import Workflow.Text.Position

/-!
# Positions lie in the text they are read off

A text has one line more than line feeds. The position behind some characters of a text names
one of its lines, and a place in that line or just behind it.
-/

namespace Workflow.Text

/-- The line is one of the text, and the column a place in that line or just behind it. -/
structure Position.LiesIn (p : Position) (text : List Char) : Prop where
  one_le_line : 1 ≤ p.line
  line_le : p.line ≤ text.count '\n' + 1
  one_le_column : 1 ≤ p.column
  column_le : ∃ line, (text.splitOn '\n')[p.line - 1]? = some line ∧ p.column ≤ line.length + 1

theorem Position.one_le_column_foldl (cs : List Char) {p : Position} (h : 1 ≤ p.column) :
    1 ≤ (cs.foldl Position.advance p).column := by
  induction cs generalizing p with
  | nil => exact h
  | cons c cs ih =>
    rw [List.foldl_cons]
    refine ih ?_
    unfold Position.advance
    split
    · exact Nat.le_refl 1
    · exact Nat.le_add_left 1 p.column

/-- The column counts what stands between the last line feed and the place, all of which is in
the line of the place. On the first line it is counted on from where the text starts. -/
theorem Position.exists_line_of_foldl (before after : List Char) (p : Position) :
    ∃ line, ((before ++ after).splitOn '\n')[before.count '\n']? = some line ∧
      (before.foldl Position.advance p).column ≤
        line.length + if before.count '\n' = 0 then p.column else 1 := by
  induction before generalizing p with
  | nil =>
    obtain ⟨line, lines, hlines⟩ := List.exists_cons_of_ne_nil (List.splitOn_ne_nil '\n' after)
    exact ⟨line, by simp [hlines], by simp⟩
  | cons c before ih =>
    rw [List.cons_append, List.splitOn_cons_eq_if_modifyHead, List.foldl_cons]
    by_cases hc : c = '\n'
    · obtain ⟨line, hline, hcolumn⟩ := ih (p.advance c)
      subst hc
      refine ⟨line, by simpa using hline, ?_⟩
      rw [List.count_cons_self, if_neg (Nat.succ_ne_zero _)]
      simpa [Position.advance] using hcolumn
    · obtain ⟨line, hline, hcolumn⟩ := ih (p.advance c)
      rw [if_neg (by simpa using hc), List.count_cons_of_ne hc]
      simp only [Position.advance, if_neg hc] at hcolumn ⊢
      by_cases hfirst : before.count '\n' = 0
      · rw [hfirst] at hline
        refine ⟨c :: line, by simp [hfirst, hline], ?_⟩
        simp only [hfirst, if_true, List.length_cons] at hcolumn ⊢
        omega
      · refine ⟨line, ?_, by simpa [hfirst] using hcolumn⟩
        rw [List.getElem?_modifyHead, if_neg hfirst, hline]

/-- The position behind some characters of a text lies in the text. -/
theorem Position.liesIn_after (text : List Char) (offset : Nat) :
    (Position.after (text.take offset)).LiesIn text := by
  have hline := Position.line_after (text.take offset)
  obtain ⟨line, hsplit, hcolumn⟩ :=
    Position.exists_line_of_foldl (text.take offset) (text.drop offset) ⟨1, 1⟩
  rw [List.take_append_drop] at hsplit
  refine ⟨?_, ?_, Position.one_le_column_foldl _ (Nat.le_refl 1), line, ?_, ?_⟩
  · omega
  · have hcount := (List.take_sublist offset text).count_le '\n'
    omega
  · rw [hline, Nat.add_sub_cancel, hsplit]
  · simpa [Position.after] using hcolumn

end Workflow.Text
