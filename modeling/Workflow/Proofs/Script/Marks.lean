import Workflow.Proofs.Script.Spans
import Workflow.Script.Erasure

/-!
# Marks are only taken away

Whatever erasure does at a token, it changes the marks of kept tokens in one way: it
removes ranges of tokens, which are chains of whole groups and plain tokens or statements
that only declare types. A property of the marks that every such removal keeps is therefore
kept by each step, and by a whole run. That the end of the source is kept is one.
-/

namespace Workflow.Script

/-- The range is one that erasure may remove. -/
inductive TokenTable.Removable (table : TokenTable) : Nat → Nat → Prop
  | span {first stop : Nat} : table.Span first stop → Removable table first stop
  | statement {i : Nat} {r : TokenTable.Removal i} : table.statementRemoval i = .ok (some r) →
      Removable table r.first r.stop

/-- Removing tokens keeps the property of the marks. -/
def KeptByRemoval (table : TokenTable) (P : Array Bool → Prop) : Prop :=
  ∀ (s : Erasure) (first stop : Nat), table.Removable first stop → P s.kept →
    P (s.remove table first stop).kept

namespace KeptByRemoval

variable {table : TokenTable} {P : Array Bool → Prop} (hP : KeptByRemoval table P)
  {s t : Erasure} {i k e : Nat} {a : Erasure.Advance i}

include hP

/-- To remove a chain keeps what every such removal keeps. -/
theorem remove (h : table.Span k e) (hs : P s.kept) : P (s.remove table k e).kept :=
  hP s k e (.span h) hs

/-- A list of types that is removed is a chain. -/
theorem removeTypeList (h : s.removeTypeList table k = .ok (e, t)) (hs : P s.kept) : P t.kept := by
  unfold Erasure.removeTypeList at h
  split at h
  · obtain ⟨m, hangle, h⟩ := exists_of_bind_eq_ok h
    cases h
    exact hP.remove (.angleEnd hangle) hs
  · cases h
    exact hs

/-- From the heading of a function a chain is removed, or nothing. -/
theorem functionHeading (h : s.functionHeading table i = .ok t) (hs : P s.kept) : P t.kept := by
  obtain ⟨⟨e, t'⟩, hlist, h⟩ := exists_of_bind_eq_ok h
  cases h
  exact hP.removeTypeList hlist hs

/-- From a base class chains are removed, or nothing. -/
theorem extendsClause (h : Erasure.extendsClause table s k = .ok (e, t)) (hs : P s.kept) :
    P t.kept := by
  fun_induction Erasure.extendsClause table s k with
  | case1 s k _ _ ih =>
    obtain ⟨⟨m, hm⟩, hangle, h⟩ := exists_of_bind_eq_ok h
    exact ih m hm h (hP.remove (.angleEnd hangle) hs)
  | case2 s k _ _ _ ih => exact ih h hs
  | case3 s k _ _ _ ih => exact ih h hs
  | case4 s k _ =>
    cases h
    exact hs

/-- From the heading of a class only chains are removed. -/
theorem classHeading (h : s.classHeading table i = .ok t) (hs : P s.kept) : P t.kept := by
  obtain ⟨⟨k₁, s₁⟩, h₁, h⟩ := exists_of_bind_eq_ok h
  have hs₁ : P s₁.kept := by
    unfold Erasure.classParameters at h₁
    simp only at h₁
    split at h₁
    · exact hP.removeTypeList h₁ hs
    · cases h₁
      exact hs
  obtain ⟨⟨k₂, s₂⟩, h₂, h⟩ := exists_of_bind_eq_ok h
  have hs₂ : P s₂.kept := by
    unfold Erasure.classBase at h₂
    split at h₂
    · exact hP.extendsClause h₂ hs₁
    · cases h₂
      exact hs₁
  obtain ⟨⟨k₃, s₃⟩, h₃, h⟩ := exists_of_bind_eq_ok h
  have hs₃ : P s₃.kept := by
    unfold Erasure.classInterfaces at h₃
    split at h₃
    · rename_i hk
      obtain ⟨m, htypes, h₃⟩ := exists_of_bind_eq_ok h₃
      cases h₃
      exact hP.remove (.mark hk (by decide) (.typeListEnd htypes)) hs₂
    · cases h₃
      exact hs₂
  cases h
  unfold Erasure.openBody
  split
  · exact hs₃
  · exact hs₃

omit hP in
/-- The type parameters of a method are a chain. -/
theorem span_of_methodParameters {k m : { k : Nat // i < k }}
    (h : s.methodParameters table i k = .ok (m, t)) : table.Span k m := by
  unfold Erasure.methodParameters at h
  split at h
  · obtain ⟨⟨e, he⟩, hangle, h⟩ := exists_of_bind_eq_ok h
    simp only at h
    split at h
    · cases h
      exact .angleEnd hangle
    · cases h
      exact .nil
  · cases h
    exact .nil

/-- At a method only its type parameters are removed. -/
theorem methodParameters {k m : { k : Nat // i < k }}
    (h : s.methodParameters table i k = .ok (m, t)) (hs : P s.kept) : P t.kept := by
  unfold Erasure.methodParameters at h
  split at h
  · obtain ⟨⟨e, he⟩, hangle, h⟩ := exists_of_bind_eq_ok h
    simp only at h
    split at h
    · cases h
      exact hP.remove (.angleEnd hangle) hs
    · cases h
      exact hs
  · cases h
    exact hs

omit hP in
/-- A mark behind the name of a member. -/
theorem span_isMarked (h : Erasure.isMarked table i = true) (hrest : table.Span (i + 2) e) :
    table.Span (i + 1) e := by
  rcases Bool.or_eq_true_iff.mp h with h | h
  · exact .mark h (by decide) hrest
  · exact .mark h (by decide) hrest

omit hP in
/-- What is removed at a member of a class is a chain. -/
theorem span_of_classMember {r : TokenTable.Removal i} (hword : table.isWord i = true)
    (h : s.classMember table i = .ok (some r, t)) : table.Span r.first r.stop := by
  unfold Erasure.classMember at h
  split at h
  · cases h
  · split at h
    · cases h
      exact .word hword .nil
    · obtain ⟨⟨⟨m, hm⟩, s₁⟩, hparameters, h⟩ := exists_of_bind_eq_ok h
      simp only at h
      split at h
      · rename_i hcolon
        obtain ⟨⟨e, he⟩, htype, h⟩ := exists_of_bind_eq_ok h
        cases h
        have hannotation : table.Span m e := .mark hcolon (by decide) (.typeEnd htype)
        simp only
        split
        · rename_i hmarked
          have hlist := span_of_methodParameters hparameters
          rw [Erasure.afterMark, if_pos hmarked] at hlist
          exact span_isMarked hmarked (hlist.trans hannotation)
        · exact hannotation
      · split at h
        · cases h
        · cases h

/-- At a member of a class only chains are removed. -/
theorem classMember {r : Option (TokenTable.Removal i)}
    (h : s.classMember table i = .ok (r, t)) (hs : P s.kept) : P t.kept := by
  unfold Erasure.classMember at h
  split at h
  · cases h
    exact hs
  · split at h
    · cases h
      exact hs
    · obtain ⟨⟨m, s₁⟩, h₁, h⟩ := exists_of_bind_eq_ok h
      have hs₁ := hP.methodParameters h₁ hs
      simp only at h
      split at h
      · obtain ⟨n, -, h⟩ := exists_of_bind_eq_ok h
        cases h
        exact hs₁
      · split at h
        · rename_i hmarked
          cases h
          exact hP.remove (span_isMarked (Bool.and_eq_true_iff.mp hmarked).1 .nil) hs₁
        · cases h
          exact hs₁

omit hP in
/-- An assertion that is removed is a chain. -/
theorem span_of_assertion {r : TokenTable.Removal i} (hword : table.isWord i = true)
    (h : s.assertion table i = .ok (some r)) : table.Span r.first r.stop := by
  unfold Erasure.assertion at h
  simp only at h
  split at h
  · cases h
  · split at h
    · rename_i hconst
      cases h
      exact .word hword (.mark (Bool.and_eq_true_iff.mp hconst).2 (by decide) .nil)
    · obtain ⟨⟨e, he⟩, htype, h⟩ := exists_of_bind_eq_ok h
      cases h
      exact .word hword (.typeEnd htype)

/-- At a word that is no member only chains are removed. -/
theorem plainWord (hword : table.isWord i = true) (h : s.plainWord table i = .ok a)
    (hs : P s.kept) : P a.state.kept := by
  unfold Erasure.plainWord at h
  split at h
  case h_1 | h_2 | h_3 =>
    simp only at h
    split at h
    · cases h
      exact hs
    · cases h
      exact hs
  case h_4 =>
    obtain ⟨s₁, h₁, h⟩ := exists_of_bind_eq_ok h
    cases h
    exact hP.functionHeading h₁ hs
  case h_5 =>
    obtain ⟨s₁, h₁, h⟩ := exists_of_bind_eq_ok h
    cases h
    exact hP.classHeading h₁ hs
  case h_6 | h_7 =>
    obtain ⟨r, hassertion, h⟩ := exists_of_bind_eq_ok h
    split at h
    · cases h
      exact hP.remove (span_of_assertion hword hassertion) hs
    · cases h
      exact hs
  case h_8 =>
    cases h
    exact hs

/-- At a word only chains are removed. -/
theorem word (hword : table.isWord i = true) (h : s.word table i = .ok a) (hs : P s.kept) :
    P a.state.kept := by
  unfold Erasure.word at h
  split at h
  · cases h
    exact hs
  · split at h
    · obtain ⟨⟨r, s₁⟩, h₁, h⟩ := exists_of_bind_eq_ok h
      have hs₁ := hP.classMember h₁ hs
      simp only at h
      split at h
      · cases h
        exact hP.remove (span_of_classMember hword h₁) hs₁
      · exact hP.plainWord hword h hs₁
    · split at h
      · cases h
      · exact hP.plainWord hword h hs

/-- Behind parameters a type is removed, which is a chain. -/
theorem closeBracket (h : s.closeBracket table i = .ok a) (hs : P s.kept) : P a.state.kept := by
  unfold Erasure.closeBracket at h
  split at h
  · cases h
    exact hs
  · simp only at h
    split at h
    · rename_i hcolon
      obtain ⟨m, htype, h⟩ := exists_of_bind_eq_ok h
      cases h
      exact hP.remove (.mark (Bool.and_eq_true_iff.mp hcolon).2 (by decide) (.typeEnd htype)) hs
    · cases h
      exact hs

/-- At a colon a type is removed, which is a chain. -/
theorem colon (hi : table.text i = ":") (h : s.colon table i = .ok a) (hs : P s.kept) :
    P a.state.kept := by
  unfold Erasure.colon at h
  split at h
  · cases h
    exact hs
  · split at h
    · obtain ⟨m, htype, h⟩ := exists_of_bind_eq_ok h
      cases h
      exact hP.remove (.text hi (by decide) (.typeEnd htype)) hs
    · cases h
      exact hs

/-- At a question mark that mark alone is removed. -/
theorem question (hi : table.text i = "?") (hs : P s.kept) : P (s.question table i).state.kept := by
  unfold Erasure.question
  simp only
  split
  · exact hP.remove (.text hi (by decide) .nil) hs
  · exact hs

/-- At an angle bracket a list of types or an assertion is removed, which is a chain. -/
theorem angle (hi : table.text i = "<") (h : s.angle table i = .ok a) (hs : P s.kept) :
    P a.state.kept := by
  unfold Erasure.angle at h
  simp only at h
  split at h
  · split at h
    · rename_i harguments
      split at h
      · cases h
        exact hP.remove (.typeArgumentsEnd hi harguments) hs
      · cases h
        exact hs
    · cases h
      exact hs
  · obtain ⟨m, hangle, h⟩ := exists_of_bind_eq_ok h
    split at h
    · cases h
      exact hP.remove (.angleEnd hangle) hs
    · split at h
      · rename_i harguments
        cases h
        exact hP.remove (.typeArgumentsEnd hi harguments) hs
      · cases h

/-- At an exclamation mark that mark alone is removed. -/
theorem exclamation (hi : table.text i = "!") (hs : P s.kept) : P (s.exclamation table i).kept := by
  unfold Erasure.exclamation
  simp only
  split
  · exact hP.remove (.text hi (by decide) .nil) hs
  · exact hs

/-- At a mark only chains are removed. -/
theorem punctuator (h : s.punctuator table i = .ok a) (hs : P s.kept) : P a.state.kept := by
  unfold Erasure.punctuator at h
  split at h
  case h_1 | h_2 | h_3 =>
    cases h
    exact hs
  case h_4 | h_5 | h_6 => exact hP.closeBracket h hs
  case h_7 hi => exact hP.angle hi h hs
  case h_8 hi => exact hP.colon hi h hs
  case h_9 hi =>
    cases h
    exact hP.question hi hs
  case h_10 hi =>
    cases h
    exact hP.exclamation hi hs
  case h_11 | h_12 | h_13 | h_14 =>
    cases h
    exact hs

/-- What removals keep, each step keeps. -/
theorem step (h : s.step table i = .ok a) (hs : P s.kept) : P a.state.kept := by
  obtain ⟨removal, hremoval, h⟩ := exists_of_bind_eq_ok h
  split at h
  · cases h
    unfold Erasure.removalAt at hremoval
    split at hremoval
    · exact hP s _ _ (.statement hremoval) hs
    · cases hremoval
  · split at h
    · rename_i hkind
      exact hP.word (by simp [TokenTable.isWord, hkind]) h hs
    · exact hP.punctuator h hs
    · cases h
      exact hs

/-- What removals keep, a whole run keeps. -/
theorem run (h : Erasure.run table s i = .ok t) (hs : P s.kept) : P t.kept := by
  fun_induction Erasure.run table s i with
  | case1 => cases h
  | case2 s i _ _ advance hstep ih => exact ih h (hP.step hstep hs)
  | case3 s i _ _ ih => exact ih h hs
  | case4 =>
    cases h
    exact hs

end KeptByRemoval

/-- The end of the source is kept. -/
theorem keeps_finish_of_run {table : TokenTable} {s : Erasure} (hsize : 0 < table.tokens.size)
    (h : Erasure.run table (.start table) 0 = .ok s) : s.keeps table.finish = true := by
  have hP : KeptByRemoval table fun kept => (kept[table.finish]? == some true) = true := by
    intro s first stop _ hs
    have hkeeps : s.keeps table.finish = true := hs
    have hlast : ¬ table.finish < min stop table.finish := by omega
    change (s.remove table first stop).keeps table.finish = true
    rw [Erasure.keeps_remove, hkeeps, decide_eq_false hlast, Bool.and_false, Bool.not_false,
      Bool.and_self]
  refine hP.run h ?_
  simp only [Erasure.start, TokenTable.finish, Array.getElem?_replicate]
  rw [if_pos (by omega), beq_self_eq_true]

end Workflow.Script
