import Workflow.Proofs.Script.InterchangeState
import Workflow.Script.Erasure

/-!
# Erasure of tables that differ in a member name

One step of erasure does the same in both tables: the member name itself is passed over because of
the point before it, and at every other token the two erasures see the same. So whole runs go
through the same states, and end in the same one.
-/

namespace Workflow.Script.TokenTable.Renamed

open Erasure

variable {table table' : TokenTable} {p i k : Nat} {s : Erasure} (h : table.Renamed table' p)

/-- The readings go on at the same token in the same state. -/
def SameAdvance (p : Nat) {i : Nat} (a b : Advance i) : Prop := a = b ∧ a.state.KeepsPoint p

include h

/-- Behind what is removed, both runs go on at the same place. -/
theorem advanceOver (hs : s.KeepsPoint p) {r : Removal i} (hr : r.stop ≠ p + 1) :
    SameAdvance p (s.advanceOver table r) (s.advanceOver table' r) := by
  unfold Erasure.advanceOver
  rw [h.remove]
  exact ⟨rfl, h.keepsPoint_remove hs hr r.first⟩

/-! ## Words -/

/-- The same assertion is removed in both tables. -/
theorem assertion (hi : i ≠ p + 1) (hword : table.isWord i = true) :
    BothGive (SameRemoval p) (s.assertion table i) (s.assertion table' i) := by
  have hne : i + 1 ≠ p + 1 := h.succ_ne_of_isWord hword
  unfold Erasure.assertion
  simp (disch := decide) only [h.endsOperand, h.is_mark, h.startsType]
  split
  case isTrue => exact .result .none
  rw [h.is_of_ne hi, h.is_of_ne hne]
  split
  case isTrue hconst =>
    exact .result (.some (h.succ_ne_of_is (Bool.and_eq_true_iff.mp hconst).2 (by decide)))
  case isFalse => exact (h.typeEnd hne).bindEnd fun _ _ _ hne => .result (.some hne)

/-- A word that is no member starts the same in both tables. -/
theorem plainWord (hs : s.KeepsPoint p) (hi : i ≠ p + 1) (hword : table.isWord i = true) :
    BothGive (SameAdvance p) (s.plainWord table i) (s.plainWord table' i) := by
  unfold Erasure.plainWord
  dsimp only
  rw [h.text i hi]
  split
  case h_1 | h_2 | h_3 =>
    simp (disch := decide) only [h.isWord, h.is_mark]
    split
    case isTrue => exact .result ⟨rfl, hs⟩
    case isFalse => exact .result ⟨rfl, hs⟩
  case h_4 htext =>
    refine (h.functionHeading hs htext).bind ?_
    rintro s' _ ⟨rfl, hs'⟩
    exact .result ⟨rfl, hs'⟩
  case h_5 htext =>
    refine (h.classHeading hs htext).bind ?_
    rintro s' _ ⟨rfl, hs'⟩
    exact .result ⟨rfl, hs'⟩
  case h_6 | h_7 =>
    refine (h.assertion hi hword).bind ?_
    rintro (_ | r) _ ⟨rfl, hr⟩
    · exact .result ⟨rfl, hs⟩
    · exact .result (h.advanceOver hs (hr r rfl))
  case h_8 => exact .result ⟨rfl, hs⟩

/-- The kept member name stands behind its kept point. -/
theorem follows_point (hs : s.KeepsPoint p) (hkept : s.keeps (p + 1) = true) :
    (s.follows table (p + 1) "." || s.follows table (p + 1) "?.") = true := by
  obtain ⟨hkind, htext⟩ := h.point
  rw [Erasure.follows, Erasure.follows, hs.previous hkept, Option.any_some, Option.any_some, is_eq,
    is_eq, hkind]
  simpa using htext

/-- A word behind the point is passed over, whatever it is. -/
theorem word (hs : s.KeepsPoint p) (hkept : s.keeps i = true) (hword : table.isWord i = true) :
    BothGive (SameAdvance p) (s.word table i) (s.word table' i) := by
  unfold Erasure.word
  rw [h.follows_mark (by decide), h.follows_mark (by decide)]
  split
  case isTrue => exact .result ⟨rfl, hs⟩
  case isFalse hpoint =>
    have hi : i ≠ p + 1 := by
      rintro rfl
      exact hpoint (h.follows_point hs hkept)
    split
    case isTrue =>
      refine (h.classMember hs hi).bind ?_
      rintro ⟨removal, s'⟩ ⟨_, _⟩ ⟨⟨rfl, hr⟩, rfl, hs'⟩
      cases removal with
      | none => exact h.plainWord hs' hi hword
      | some r => exact .result (h.advanceOver hs' (hr r rfl))
    rw [h.isOneOf_of_ne hi, h.isWord]
    split
    case isTrue => exact .fail
    case isFalse => exact h.plainWord hs hi hword

/-! ## Marks -/

theorem openBracket (s : Erasure) (i : Nat) (kind : FrameKind) (pattern : Bool) :
    s.openBracket table' i kind pattern = s.openBracket table i kind pattern := by
  rw [Erasure.openBracket, Erasure.openBracket, h.closeOf]

/-- A closing bracket is read in the same way in both tables. -/
theorem closeBracket (hs : s.KeepsPoint p) (i : Nat) :
    BothGive (SameAdvance p) (s.closeBracket table i) (s.closeBracket table' i) := by
  unfold Erasure.closeBracket
  split
  · exact .result ⟨rfl, hs⟩
  · simp (disch := decide) only [h.is_mark]
    split
    case isTrue hresult =>
      have hne := h.succ_ne_of_is (Bool.and_eq_true_iff.mp hresult).2 (by decide)
      refine (h.typeEnd hne).bindEnd fun e _ _ hne => .result (h.advanceOver ?_ ?_)
      · exact hs
      · exact hne
    case isFalse => exact .result ⟨rfl, hs⟩

/-- A colon is read in the same way in both tables. -/
theorem colon (hs : s.KeepsPoint p) (hi : i + 1 ≠ p + 1) :
    BothGive (SameAdvance p) (s.colon table i) (s.colon table' i) := by
  unfold Erasure.colon
  split
  case isTrue => exact .result ⟨rfl, hs⟩
  split
  case isTrue =>
    exact (h.typeEnd hi).bindEnd fun _ _ _ hne => .result (h.advanceOver hs hne)
  case isFalse => exact .result ⟨rfl, hs⟩

/-- A question mark is read in the same way in both tables. -/
theorem question (hs : s.KeepsPoint p) (hi : i + 1 ≠ p + 1) :
    SameAdvance p (s.question table i) (s.question table' i) := by
  unfold Erasure.question
  rw [funext h.isWord]
  simp (disch := decide) only [h.is_mark]
  split
  case isTrue => exact h.advanceOver hs hi
  case isFalse => exact ⟨rfl, hs⟩

/-- An angle bracket is read in the same way in both tables. -/
theorem angle (hs : s.KeepsPoint p) (hi : i + 1 ≠ p + 1) :
    BothGive (SameAdvance p) (s.angle table i) (s.angle table' i) := by
  obtain ⟨harguments, hends⟩ := h.typeArgumentsEnd hi
  unfold Erasure.angle
  rw [harguments]
  simp (disch := decide) only [h.endsOperand, h.is_test, h.is_mark, h.kind, h.followsConstructor]
  split
  case isTrue =>
    split
    case h_1 e he heq =>
      split
      case isTrue => exact .result (h.advanceOver hs (hends _ heq))
      case isFalse => exact .result ⟨rfl, hs⟩
    case h_2 => exact .result ⟨rfl, hs⟩
  case isFalse =>
    refine (h.angleEnd i).bindEnd fun e _ _ hne => ?_
    simp only [h.opensParameters]
    split
    case isTrue => exact .result (h.advanceOver hs hne)
    split
    case h_1 e he heq => exact .result (h.advanceOver hs (hends _ heq))
    case h_2 => exact .fail

theorem exclamation (hs : s.KeepsPoint p) (hi : i + 1 ≠ p + 1) :
    SameState p (s.exclamation table i) (s.exclamation table' i) := by
  unfold Erasure.exclamation
  rw [h.leading i, funext (h.endsOperand s), h.remove]
  dsimp only
  split
  case isTrue => exact ⟨rfl, h.keepsPoint_remove hs hi i⟩
  case isFalse => exact ⟨rfl, hs⟩

/-- A mark is read in the same way in both tables. -/
theorem punctuator (hs : s.KeepsPoint p) (hi : table.kind i = .punctuator) :
    BothGive (SameAdvance p) (s.punctuator table i) (s.punctuator table' i) := by
  unfold Erasure.punctuator
  rw [h.text_of_mark hi]
  split
  case h_1 =>
    simp only [h.opensParameters, h.openBracket]
    exact .result ⟨rfl, hs⟩
  case h_2 =>
    rw [h.openBracket]
    exact .result ⟨rfl, hs⟩
  case h_3 =>
    simp only [h.opensModuleClause, h.openBracket]
    exact .result ⟨rfl, hs⟩
  case h_4 | h_5 | h_6 => exact h.closeBracket hs i
  case h_7 htext => exact h.angle hs (h.succ_ne_of_text htext (by decide))
  case h_8 htext => exact h.colon hs (h.succ_ne_of_text htext (by decide))
  case h_9 htext => exact .result (h.question hs (h.succ_ne_of_text htext (by decide)))
  case h_10 htext =>
    obtain ⟨heq, hs'⟩ := h.exclamation hs (h.succ_ne_of_text htext (by decide))
    rw [← heq]
    exact .result ⟨rfl, hs'⟩
  case h_11 | h_12 | h_13 | h_14 => exact .result ⟨rfl, hs⟩

/-! ## Runs -/

/-- The same statements are removed as a whole. -/
theorem removalAt (s : Erasure) (i : Nat) :
    BothGive (SameRemoval p) (s.removalAt table i) (s.removalAt table' i) := by
  unfold Erasure.removalAt
  rw [h.startsStatement]
  exact bothRemove_if fun _ => h.statementRemoval i

/-- One step does the same in both tables. -/
theorem step (hs : s.KeepsPoint p) (hkept : s.keeps i = true) :
    BothGive (SameAdvance p) (s.step table i) (s.step table' i) := by
  unfold Erasure.step
  refine (h.removalAt s i).bind ?_
  rintro (_ | r) _ ⟨rfl, hr⟩
  · simp only [h.kind]
    split
    case h_1 hword => exact h.word hs hkept (by simp [TokenTable.isWord, hword])
    case h_2 hmark => exact h.punctuator hs hmark
    case h_3 => exact .result ⟨rfl, hs⟩
  · exact .result (h.advanceOver hs (hr r rfl))

/-- Runs that start in the same state end in the same state. -/
theorem run (hs : s.KeepsPoint p) (i : Nat) :
    BothGive (SameState p) (Erasure.run table s i) (Erasure.run table' s i) := by
  induction hn : table.finish - i using Nat.strongRecOn generalizing s i with
  | _ n ih =>
    rw [Erasure.run.eq_def table, Erasure.run.eq_def table']
    simp only [h.finish]
    split
    case isFalse => exact .result ⟨rfl, hs⟩
    split
    case isTrue hkept =>
      have hstep := h.step hs hkept
      generalize s.step table i = x at hstep
      generalize s.step table' i = y at hstep
      cases hstep with
      | fail => exact .fail
      | @result a b hab =>
        obtain ⟨rfl, ha⟩ := hab
        have := a.lt
        exact ih _ (by omega) ha a.next rfl
    case isFalse => exact ih _ (by omega) hs (i + 1) rfl

/-- What is kept of a script is kept of it with the other name. -/
theorem run_start (hrun : Erasure.run table (.start table) 0 = .ok s) :
    Erasure.run table' (.start table') 0 = .ok s := by
  have hsame : Erasure.start table' = .start table := by
    rw [Erasure.start, Erasure.start, h.size]
  have hstart : (Erasure.start table).KeepsPoint p := by
    have hinside := h.inside
    rw [TokenTable.finish] at hinside
    intro _
    simp only [Erasure.keeps, Erasure.start, Array.getElem?_replicate]
    rw [if_pos (by omega)]
    rfl
  obtain ⟨_, hrun', rfl, -⟩ := (h.run hstart 0).exists_of_ok hrun
  rw [hsame, hrun']

end Workflow.Script.TokenTable.Renamed
