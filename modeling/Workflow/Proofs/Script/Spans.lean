import Mathlib.Tactic.Common
import Workflow.Proofs.Fallible
import Workflow.Script.Erasure.Class

/-!
# What the tokens of an extent are

Where a type, a list in angle brackets or a declaration ends is found token by token, and
bracketed groups are passed over whole. So what lies between the first token and the end
that is found is a chain of single tokens, none of which is a bracket or a semicolon, and of
whole groups. Only three kinds of statement end where something is searched for that need
not stand in the statement at all.
-/

namespace Workflow.Script

/-- The texts of brackets. -/
def bracketMarks : List String := ["(", "[", "\x7b", ")", "]", "\x7d"]

/-- The brackets, and the mark that ends a statement. -/
def boundaries : List String := bracketMarks ++ [";"]

namespace TokenTable

/-- A token stands at the index, and not the end of the source. -/
def Present (table : TokenTable) (k : Nat) : Prop := table.kind k ≠ .finish ∨ table.text k ≠ ""

/-- From the first index to the second there are whole groups in brackets, and otherwise
neither brackets nor semicolons. -/
inductive Span (table : TokenTable) : Nat → Nat → Prop
  | nil {k : Nat} : Span table k k
  | plain {k e : Nat} : table.Present k →
      (table.kind k = .punctuator → table.text k ∉ boundaries) →
      Span table (k + 1) e → Span table k e
  | group {k e : Nat} {text : String} : table.is k text = true → text ∈ ["(", "[", "\x7b"] →
      Span table (table.closeOf k + 1) e → Span table k e

variable {table : TokenTable} {i k m e : Nat}

/-- What is told by its text has that text. -/
theorem text_of_is {text : String} (h : table.is k text = true) : table.text k = text := by
  unfold is at h
  unfold TokenTable.text
  cases htoken : table.tokens[k]? with
  | none => simp [htoken] at h
  | some t =>
    rw [htoken] at h
    simp only [Option.any_some, Token.is, Bool.and_eq_true, beq_iff_eq] at h
    simpa using h.2

theorem kind_ne_of_is {text : String} (h : table.is k text = true) : table.kind k ≠ .finish := by
  unfold is at h
  unfold TokenTable.kind
  cases htoken : table.tokens[k]? with
  | none => simp [htoken] at h
  | some t =>
    intro hkind
    simp only [Option.map_some, Option.getD_some] at hkind
    simp [htoken, Token.is, hkind] at h

/-- A mark is told by its own text. -/
theorem is_of_kind (h : table.kind k = .punctuator) : table.is k (table.text k) = true := by
  unfold kind at h
  unfold is TokenTable.text
  cases htoken : table.tokens[k]? with
  | none => simp [htoken] at h
  | some t =>
    rw [htoken] at h
    simp only [Option.map_some, Option.getD_some] at h
    simp [Token.is, h]

namespace Span

/-- Two chains that meet make up one. -/
theorem trans (h : table.Span k m) (h' : table.Span m e) : table.Span k e := by
  induction h with
  | nil => exact h'
  | plain hpresent hk _ ih => exact .plain hpresent hk (ih h')
  | group hk htext _ ih => exact .group hk htext (ih h')

/-- A chain never goes backwards. -/
theorem le (h : table.Span k e) : k ≤ e := by
  induction h with
  | nil => exact Nat.le_refl _
  | plain _ _ _ ih => exact Nat.le_of_succ_le ih
  | @group k e _ _ _ _ ih => exact table.le_of_closeOf_le ih

/-- A literal or a word may be put in front of a chain. -/
theorem other (hkind : table.kind k ∉ [.punctuator, .finish]) (h : table.Span (k + 1) e) :
    table.Span k e := by
  simp only [List.mem_cons, List.not_mem_nil, or_false, not_or] at hkind
  exact .plain (.inl hkind.2) (fun hk => absurd hk hkind.1) h

theorem word (hk : table.isWord k = true) (h : table.Span (k + 1) e) : table.Span k e :=
  h.other (by rw [beq_iff_eq.mp hk]; decide)

/-- A token that has a text, and no boundary, may be put in front of a chain. -/
theorem text {text : String} (hk : table.text k = text) (htext : text ∉ "" :: boundaries)
    (h : table.Span (k + 1) e) : table.Span k e := by
  rw [List.mem_cons, not_or, ← hk] at htext
  exact .plain (.inr htext.1) (fun _ => htext.2) h

theorem mark {text : String} (hk : table.is k text = true) (htext : text ∉ boundaries)
    (h : table.Span (k + 1) e) : table.Span k e :=
  .plain (.inl (kind_ne_of_is hk)) (fun _ => text_of_is hk ▸ htext) h

/-- What ends behind a required token has it as its last one. -/
theorem expect {text : String} {r : { m : Nat // k < m }} (h : table.expect k text = .ok r)
    (htext : text ∉ boundaries) : table.Span k r := by
  unfold TokenTable.expect at h
  split at h
  · rename_i hk
    cases h
    exact .mark hk htext .nil
  · cases h

/-- From the place of the search to the closing bracket there is a chain. -/
theorem angleEndFrom {first depth : Nat} {r : { e : Nat // m < e }}
    (h : table.angleEndFrom first depth m = .ok r) : table.Span m r := by
  fun_induction TokenTable.angleEndFrom table first depth m with
  | case1 => cases h
  | case2 depth m _ htext ih =>
    obtain ⟨e, he, h⟩ := exists_of_bind_eq_ok h
    cases h
    exact .text htext (by decide) (ih he)
  | case3 depth m _ htext _ =>
    cases h
    exact .text htext (by decide) .nil
  | case4 depth m _ htext _ ih =>
    obtain ⟨e, he, h⟩ := exists_of_bind_eq_ok h
    cases h
    exact .text htext (by decide) (ih he)
  | case5 depth m hkind htext ih | case6 depth m hkind htext ih | case7 depth m hkind htext ih =>
    obtain ⟨e, he, h⟩ := exists_of_bind_eq_ok h
    cases h
    exact .group (is_of_kind hkind) (by rw [htext]; decide) (ih he)
  | case8 | case9 | case10 | case11 => cases h
  | case12 depth m hkind _ _ hround hsquare hcurly hsemicolon hround' hsquare' hcurly' ih =>
    obtain ⟨e, he, h⟩ := exists_of_bind_eq_ok h
    cases h
    refine .plain (.inl (by rw [hkind]; decide)) (fun _ hmem => ?_) (ih he)
    simp only [boundaries, bracketMarks, List.cons_append, List.nil_append, List.mem_cons,
      List.not_mem_nil, or_false] at hmem
    rcases hmem with h | h | h | h | h | h | h <;> contradiction
  | case13 depth m hkind ih | case14 depth m hkind ih | case15 depth m hkind ih
  | case16 depth m hkind ih | case17 depth m hkind ih =>
    obtain ⟨e, he, h⟩ := exists_of_bind_eq_ok h
    cases h
    exact .other (by rw [hkind]; decide) (ih he)

/-- A list in angle brackets is a chain. -/
theorem angleEnd {r : { e : Nat // k < e }} (h : table.angleEnd k = .ok r) : table.Span k r :=
  angleEndFrom h

/-- The prefixes of an operand are a chain. -/
theorem afterTypePrefixes : table.Span k (table.afterTypePrefixes k) := by
  fun_induction TokenTable.afterTypePrefixes table k with
  | case1 k hk m hm heq ih =>
    rw [heq] at ih
    exact .word hk.1 ih
  | case2 => exact .nil

theorem afterNew : table.Span k (table.afterNew k) := by
  unfold TokenTable.afterNew
  split
  · rename_i h
    exact .mark (Bool.and_eq_true_iff.mp h).1 (by decide) .nil
  · exact .nil

/-- A name with its members is a chain. -/
theorem afterMembers : table.Span k (table.afterMembers k) := by
  fun_induction TokenTable.afterMembers table k with
  | case1 k hk m hm heq ih =>
    rw [heq] at ih
    exact .mark hk.1 (by decide) (.word hk.2 ih)
  | case2 => exact .nil

/-- What an operand goes on with is a chain. -/
theorem postfixEnd {r : { e : Nat // k ≤ e }} (h : table.postfixEnd k = .ok r) :
    table.Span k r := by
  fun_induction TokenTable.postfixEnd table k with
  | case1 =>
    cases h
    exact .nil
  | case2 k _ _ ih =>
    obtain ⟨⟨m, hm⟩, hangle, h⟩ := exists_of_bind_eq_ok h
    obtain ⟨e, he, h⟩ := exists_of_bind_eq_ok h
    cases h
    exact (angleEnd hangle).trans (ih m hm he)
  | case3 k _ _ hk ih =>
    obtain ⟨e, he, h⟩ := exists_of_bind_eq_ok h
    cases h
    exact .group hk (by decide) (ih he)
  | case4 k _ _ _ hk ih =>
    obtain ⟨e, he, h⟩ := exists_of_bind_eq_ok h
    cases h
    exact .mark hk.1 (by decide) (.word hk.2 (ih he))
  | case5 =>
    cases h
    exact .nil

/-- An operator between the operands of a type. -/
theorem operator (hk : (table.is k "|" || table.is k "&") = true) (h : table.Span (k + 1) e) :
    table.Span k e := by
  rcases Bool.or_eq_true_iff.mp hk with hk | hk
  · exact .mark hk (by decide) h
  · exact .mark hk (by decide) h

theorem afterLeadingOperator : table.Span k (table.afterLeadingOperator k) := by
  unfold TokenTable.afterLeadingOperator
  split
  · rename_i h
    exact .operator h .nil
  · exact .nil

/-- The types that start behind a token are chains. -/
def TypesBehind (table : TokenTable) (k : Nat) : Prop :=
  ∀ m, k < m → k < table.tokens.size → ∀ r, table.typeEnd m = .ok r → table.Span m r

/-- Types that are chains behind a token are chains behind every later one. -/
theorem TypesBehind.of_le (h : TypesBehind table k) (hle : k ≤ m) : TypesBehind table m :=
  fun n hn hsize => h n (Nat.lt_of_le_of_lt hle hn) (Nat.lt_of_le_of_lt hle hsize)

/-- Whatever goes on behind an operand, its end is that of a chain. -/
theorem of_postfixEnd {f : { e : Nat // m ≤ e } → { e : Nat // k < e }} {r : { e : Nat // k < e }}
    (h : (table.postfixEnd m >>= fun e => pure (f e)) = .ok r) (hf : ∀ e, (f e).val = e.val) :
    table.Span m r := by
  obtain ⟨e, he, h⟩ := exists_of_bind_eq_ok h
  cases h
  rw [hf]
  exact postfixEnd he

/-- A type behind a token is a chain, also where it ends an operand that starts at the token. -/
theorem TypesBehind.span (htypes : TypesBehind table k)
    {f : { e : Nat // m < e } → { e : Nat // k < e }} {r : { e : Nat // k < e }}
    (h : (table.typeEnd m >>= fun e => pure (f e)) = .ok r) (hf : ∀ e, (f e).val = e.val)
    (hm : k < m) (hkind : table.kind k ≠ .finish) : table.Span m r := by
  obtain ⟨e, he, h⟩ := exists_of_bind_eq_ok h
  cases h
  rw [hf]
  exact htypes m hm (table.lt_size_of_kind_ne hkind) e he

/-- An operand that starts with a mark is a chain if the types that start further on are. -/
theorem plainOperandEnd_mark (htypes : TypesBehind table k) (hkind : table.kind k = .punctuator)
    {r : { e : Nat // k < e }} (h : table.plainOperandEnd k = .ok r) : table.Span k r := by
  have hle := table.le_closeOf k
  have hother : table.kind k ≠ .finish := by rw [hkind]; decide
  have hgroup : ∀ {e : Nat}, table.text k ∈ ["(", "[", "\x7b"] →
      table.Span (table.closeOf k + 1) e → table.Span k e := .group (is_of_kind hkind)
  rw [TokenTable.plainOperandEnd] at h
  split at h
  case h_5 =>
    split at h
    case h_1 htext =>
      split at h
      · rename_i hnumber
        exact .text htext (by decide)
          (.other (by rw [hnumber]; decide) (of_postfixEnd h fun _ => rfl))
      · cases h
    case h_2 htext | h_3 htext =>
      exact hgroup (by simp [htext]) (of_postfixEnd h fun _ => rfl)
    case h_4 htext =>
      refine hgroup (by simp [htext]) ?_
      split at h
      · rename_i harrow
        exact .mark harrow (by decide) (htypes.span h (fun _ => rfl) (by omega) hother)
      · exact of_postfixEnd h fun _ => rfl
    case h_5 =>
      obtain ⟨⟨params, hparams⟩, hangle, h⟩ := exists_of_bind_eq_ok h
      simp only at h
      split at h
      · rename_i hround
        obtain ⟨⟨result, hresult⟩, harrow, h⟩ := exists_of_bind_eq_ok h
        have hlt : k < result := by
          have := table.le_closeOf params
          omega
        exact (angleEnd hangle).trans (.group hround (by decide) ((expect harrow (by decide)).trans
          (htypes.span h (fun _ => rfl) hlt hother)))
      · cases h
    case h_6 => cases h
  all_goals simp_all

/-- An operand is a chain if the types that start further on are. -/
theorem plainOperandEnd (htypes : TypesBehind table k)
    {r : { e : Nat // k < e }} (h : table.plainOperandEnd k = .ok r) : table.Span k r := by
  by_cases hmark : table.kind k = .punctuator
  · exact plainOperandEnd_mark htypes hmark h
  rw [TokenTable.plainOperandEnd] at h
  split at h
  case h_1 hkind =>
    have hname : table.Span k (table.afterMembers (k + 1)) :=
      .other (by rw [hkind]; decide) afterMembers
    have hlt := (table.afterMembers (k + 1)).2
    simp only at h
    split at h
    · rename_i hn
      have his := (Bool.and_eq_true_iff.mp hn).1
      exact hname.trans (.mark his (by decide)
        (htypes.span h (fun _ => rfl) (by omega) (by rw [hkind]; decide)))
    · exact hname.trans (of_postfixEnd h fun _ => rfl)
  case h_2 hkind | h_3 hkind | h_4 hkind =>
    exact .other (by rw [hkind]; decide) (of_postfixEnd h fun _ => rfl)
  case h_5 hkind => exact absurd hkind hmark
  case h_6 | h_7 => cases h

/-- An operand with its prefixes is a chain if the types that start further on are. -/
theorem operandEnd (htypes : TypesBehind table k)
    {r : { e : Nat // k < e }} (h : table.operandEnd k = .ok r) : table.Span k r := by
  rw [TokenTable.operandEnd] at h
  obtain ⟨e, he, h⟩ := exists_of_bind_eq_ok h
  cases h
  have hprefixes := (table.afterTypePrefixes k).2
  have hnew := (table.afterNew (table.afterTypePrefixes k)).2
  exact afterTypePrefixes.trans (afterNew.trans
    (plainOperandEnd (htypes.of_le (Nat.le_trans hprefixes hnew)) he))

/-- What a type goes on with is a chain if the types that start further on are. -/
theorem typeEndFrom (htypes : TypesBehind table k)
    {r : { e : Nat // k ≤ e }} (h : table.typeEndFrom k = .ok r) : table.Span k r := by
  induction hn : table.tokens.size - k using Nat.strongRecOn generalizing k with
  | _ n ih =>
    rw [TokenTable.typeEndFrom] at h
    have hbehind : TypesBehind table (k + 1) := htypes.of_le (Nat.le_succ k)
    have hrest : ∀ {m : Nat} {r : { e : Nat // m ≤ e }}, k < m → k < table.tokens.size →
        table.typeEndFrom m = .ok r → table.Span m r :=
      fun hm hk hr => ih _ (by omega) (htypes.of_le (Nat.le_of_lt hm)) hr rfl
    split at h
    · rename_i hk
      obtain ⟨⟨m, hm⟩, hoperand, h⟩ := exists_of_bind_eq_ok h
      obtain ⟨e, he, h⟩ := exists_of_bind_eq_ok h
      cases h
      have hsize : k < table.tokens.size :=
        (Bool.or_eq_true_iff.mp hk).elim table.lt_size_of_is table.lt_size_of_is
      exact .operator hk
        ((operandEnd hbehind hoperand).trans (hrest (Nat.lt_of_succ_lt hm) hsize he))
    · split at h
      · rename_i hk
        obtain ⟨⟨bound, hBound⟩, hbound, h⟩ := exists_of_bind_eq_ok h
        obtain ⟨⟨yes, hYes⟩, hyes, h⟩ := exists_of_bind_eq_ok h
        obtain ⟨⟨colon, hColon⟩, hcolon, h⟩ := exists_of_bind_eq_ok h
        obtain ⟨⟨no, hNo⟩, hno, h⟩ := exists_of_bind_eq_ok h
        obtain ⟨⟨m, hm⟩, htype, h⟩ := exists_of_bind_eq_ok h
        obtain ⟨e, he, h⟩ := exists_of_bind_eq_ok h
        cases h
        have hsize := table.lt_size_of_is hk.1
        have hcondition : table.Span (k + 1) yes :=
          (operandEnd hbehind hbound).trans (expect hyes (by decide))
        have hbranches : table.Span yes m :=
          (htypes yes (by omega) hsize _ hcolon).trans
            ((expect hno (by decide)).trans (htypes no (by omega) hsize _ htype))
        exact .mark hk.1 (by decide)
          (hcondition.trans (hbranches.trans (hrest (by omega) hsize he)))
      · cases h
        exact .nil

/-- A type is a chain, by induction on where it starts. -/
theorem typeEnd {r : { e : Nat // k < e }} (h : table.typeEnd k = .ok r) : table.Span k r := by
  induction hn : table.tokens.size - k using Nat.strongRecOn generalizing k with
  | _ n ih =>
    have htypes : TypesBehind table k := fun m hm hsize r hr => ih _ (by omega) hr rfl
    rw [TokenTable.typeEnd] at h
    obtain ⟨⟨m, hm⟩, hoperand, h⟩ := exists_of_bind_eq_ok h
    obtain ⟨e, he, h⟩ := exists_of_bind_eq_ok h
    cases h
    have hle := (table.afterLeadingOperator k).2
    have hspan := operandEnd (htypes.of_le hle) hoperand
    exact afterLeadingOperator.trans
      (hspan.trans (typeEndFrom (htypes.of_le (Nat.le_trans hle (Nat.le_of_lt hm))) he))

/-- A list of types is a chain. -/
theorem typeListEnd {r : { e : Nat // k < e }} (h : Erasure.typeListEnd table k = .ok r) :
    table.Span k r := by
  fun_induction Erasure.typeListEnd table k with
  | case1 k ih =>
    obtain ⟨⟨m, hm⟩, htype, h⟩ := exists_of_bind_eq_ok h
    simp only at h
    split at h
    · rename_i hcomma
      obtain ⟨e, he, h⟩ := exists_of_bind_eq_ok h
      cases h
      exact (typeEnd htype).trans (.mark hcomma (by decide) (ih m hm hcomma he))
    · cases h
      exact typeEnd htype

theorem typeArgumentsEndFrom {r : { e : Nat // k < e }}
    (h : Erasure.typeArgumentsEndFrom table k = some r) : table.Span k r := by
  fun_induction Erasure.typeArgumentsEndFrom table k with
  | case1 | case5 => cases h
  | case2 k m _ htype hclose =>
    cases h
    exact (typeEnd htype).trans (.mark hclose (by decide) .nil)
  | case3 => cases h
  | case4 k m _ htype _ hcomma e _ hlist ih =>
    cases h
    exact (typeEnd htype).trans (.mark hcomma (by decide) (ih hlist))

/-- Type arguments are a chain. -/
theorem typeArgumentsEnd {r : { e : Nat // k < e }} (hk : table.text k = "<")
    (h : Erasure.typeArgumentsEnd table k = some r) : table.Span k r := by
  unfold Erasure.typeArgumentsEnd at h
  split at h
  · cases h
  · rename_i e he heq
    cases h
    exact .text hk (by decide) (typeArgumentsEndFrom heq)

/-- A type behind a colon is a chain. -/
theorem annotationEnd {r : { e : Nat // k ≤ e }} (h : table.annotationEnd k = .ok r) :
    table.Span k r := by
  unfold TokenTable.annotationEnd at h
  split at h
  · rename_i hk
    obtain ⟨e, he, h⟩ := exists_of_bind_eq_ok h
    cases h
    exact .mark hk (by decide) (typeEnd he)
  · cases h
    exact .nil

/-- A declared variable with its type is a chain. -/
theorem bindingEnd {r : { e : Nat // k < e }} (h : table.bindingEnd k = .ok r) :
    table.Span k r := by
  unfold TokenTable.bindingEnd at h
  split at h
  · rename_i hk
    cases h
    rcases Bool.or_eq_true_iff.mp hk with hk | hk
    · exact .group hk (by decide) .nil
    · exact .group hk (by decide) .nil
  · split at h
    · rename_i hk
      cases h
      exact .word hk .nil
    · cases h

/-- Declared variables with commas between them are a chain. -/
theorem bindingsEnd {r : { e : Nat // k < e }} (h : table.bindingsEnd k = .ok r) :
    table.Span k r := by
  fun_induction TokenTable.bindingsEnd table k with
  | case1 k ih =>
    obtain ⟨⟨p, hp⟩, hbinding, h⟩ := exists_of_bind_eq_ok h
    obtain ⟨⟨q, hq⟩, hannotation, h⟩ := exists_of_bind_eq_ok h
    have hspan : table.Span k q := (bindingEnd hbinding).trans (annotationEnd hannotation)
    simp only at h
    split at h
    · rename_i hcomma
      obtain ⟨e, he, h⟩ := exists_of_bind_eq_ok h
      cases h
      exact hspan.trans (.mark hcomma (by decide) (ih p hp q hq hcomma he))
    · cases h
      exact hspan

/-- The head of a declared function is a chain. -/
theorem signatureEnd {r : { e : Nat // k < e }} (h : table.signatureEnd k = .ok r) :
    table.Span k r := by
  unfold TokenTable.signatureEnd at h
  have hname : table.Span k
      (if table.isWord k then (⟨k + 1, Nat.le_succ k⟩ : { p : Nat // k ≤ p })
        else ⟨k, Nat.le_refl k⟩).val := by
    split
    · rename_i hk
      exact .word hk .nil
    · exact .nil
  generalize (if table.isWord k then (⟨k + 1, Nat.le_succ k⟩ : { p : Nat // k ≤ p })
    else ⟨k, Nat.le_refl k⟩) = name at h hname
  obtain ⟨p, hp⟩ := name
  dsimp -zeta only at h
  extract_lets rest at h
  obtain ⟨⟨q, hq⟩, hlist, h⟩ : ∃ q, table.Span p q.val ∧ rest q = .ok r := by
    split at h
    · obtain ⟨⟨q, hq⟩, hangle, h⟩ := exists_of_bind_eq_ok h
      exact ⟨⟨q, Nat.le_of_lt hq⟩, angleEnd hangle, h⟩
    · exact ⟨⟨p, Nat.le_refl p⟩, .nil, h⟩
  simp only [rest] at h
  split at h
  · rename_i hround
    obtain ⟨e, he, h⟩ := exists_of_bind_eq_ok h
    cases h
    exact hname.trans (hlist.trans (.group hround (by decide) (annotationEnd he)))
  · cases h

/-- A type alias is a chain, but for the semicolon that may end it. -/
theorem aliasEnd {r : { e : Nat // k < e }} (h : table.aliasEnd k = .ok r) :
    ∃ m, table.Span k m ∧ r.val = table.afterSemicolon m := by
  unfold TokenTable.aliasEnd at h
  extract_lets rest at h
  obtain ⟨p, hlist, h⟩ : ∃ p, table.Span k p.val ∧ rest p = .ok r := by
    split at h
    · obtain ⟨⟨p, hp⟩, hangle, h⟩ := exists_of_bind_eq_ok h
      exact ⟨⟨p, Nat.le_of_lt hp⟩, angleEnd hangle, h⟩
    · exact ⟨⟨k, Nat.le_refl k⟩, .nil, h⟩
  obtain ⟨⟨q, hq⟩, hequals, h⟩ := exists_of_bind_eq_ok h
  obtain ⟨⟨m, hm⟩, htype, h⟩ := exists_of_bind_eq_ok h
  cases h
  exact ⟨m, hlist.trans ((expect hequals (by decide)).trans (typeEnd htype)), rfl⟩

/-- A type-only export is a chain, but for the semicolon that may end it. -/
theorem exportEnd (hk : table.is k "\x7b" = true) :
    ∃ m, table.Span k m ∧ (table.exportEnd k).val = table.afterSemicolon m := by
  let close := table.closeOf k + 1
  refine ⟨if table.is close "from" && table.kind (close + 1) == .string then close + 2 else close,
    .group hk (by decide) ?_, rfl⟩
  split
  · rename_i hsource
    obtain ⟨hfrom, hstring⟩ := Bool.and_eq_true_iff.mp hsource
    exact .mark hfrom (by decide) (.other (by rw [beq_iff_eq.mp hstring]; decide) .nil)
  · exact .nil

/-- An ambient variable or function is a chain, but for the semicolon that may end it. -/
theorem ambientEnd (hk : table.text k ∈ ["const", "let", "var", "function"])
    {r : { e : Nat // k < e }} (h : table.ambientEnd k = .ok r) :
    ∃ m, table.Span k m ∧ r.val = table.afterSemicolon m := by
  unfold TokenTable.ambientEnd at h
  split at h
  case h_1 htext => simp [htext] at hk
  case h_2 htext | h_3 htext | h_4 htext =>
    obtain ⟨⟨m, hm⟩, hbindings, h⟩ := exists_of_bind_eq_ok h
    cases h
    exact ⟨m, .text htext (by decide) (bindingsEnd hbindings), rfl⟩
  case h_5 htext =>
    obtain ⟨⟨m, hm⟩, hsignature, h⟩ := exists_of_bind_eq_ok h
    cases h
    exact ⟨m, .text htext (by decide) (signatureEnd hsignature), rfl⟩
  case h_6 => simp_all

end Span

/-- The statement at an index ends where a body or a module is found, which is searched for
up to the end of the source. -/
def endsBySearch (table : TokenTable) (i : Nat) : Bool :=
  let j := if table.is i "export" then i + 1 else i
  match table.text j with
  | "interface" | "import" => true
  | "declare" => !(["const", "let", "var", "function"].contains (table.text (j + 1)))
  | _ => false

/-- The index of the word that tells the kind of the statement at `i`: the first one, or the
one behind an `export`. -/
def headAt (table : TokenTable) (i : Nat) : Nat := if table.is i "export" then i + 1 else i

/-- The tokens from the first index to the second are removed for a statement at `i`, whose kind
the word at `j` tells. -/
inductive Removes (table : TokenTable) (i j : Nat) : Nat → Nat → Prop
  | interface {e : { m : Nat // j + 2 < m }} : table.text j = "interface" →
      table.isWord (j + 1) = true → table.bodyEnd (j + 2) = .ok e → Removes table i j i e
  | typeAlias {e : { m : Nat // j + 2 < m }} : table.text j = "type" →
      table.isWord (j + 1) = true → table.aliasEnd (j + 2) = .ok e → Removes table i j i e
  | exportType : table.text j = "type" → table.is (j + 1) "\x7b" = true →
      Removes table i j i (table.exportEnd (j + 1))
  | importType {m : { e : Nat // j + 2 < e }} : table.text j = "import" →
      table.is (j + 1) "type" = true → table.moduleEnd j (j + 2) = .ok m →
      Removes table i j i (table.afterSemicolon m)
  | ambient {e : { m : Nat // j + 1 < m }} : table.text j = "declare" →
      table.isOneOf (j + 1) declarable = true → table.ambientEnd (j + 1) = .ok e →
      Removes table i j i e
  | abstractWord : table.text j = "abstract" → table.is (j + 1) "class" = true →
      Removes table i j j (j + 1)

/-- What is removed as a statement is removed for one of the words that start such a statement. -/
theorem removes_of_statementRemoval {r : Removal i} (h : table.statementRemoval i = .ok (some r)) :
    table.Removes i (table.headAt i) r.first r.stop := by
  have hhead : (if table.is i "export" then (⟨i + 1, Nat.le_succ i⟩ : { j : Nat // i ≤ j })
      else ⟨i, Nat.le_refl i⟩).val = table.headAt i := by
    unfold headAt
    split <;> rfl
  unfold statementRemoval at h
  dsimp only at h
  rw [← hhead]
  generalize (if table.is i "export" then (⟨i + 1, Nat.le_succ i⟩ : { j : Nat // i ≤ j })
    else ⟨i, Nat.le_refl i⟩) = head at h
  obtain ⟨j, hj⟩ := head
  dsimp only at h ⊢
  split at h
  case h_1 htext =>
    split at h
    · rename_i hguard
      obtain ⟨⟨e, he⟩, hbody, h⟩ := exists_of_bind_eq_ok h
      cases h
      exact .interface htext (Bool.and_eq_true_iff.mp hguard).1 hbody
    · cases h
  case h_2 htext =>
    split at h
    · rename_i hguard
      obtain ⟨⟨e, he⟩, halias, h⟩ := exists_of_bind_eq_ok h
      cases h
      exact .typeAlias htext (Bool.and_eq_true_iff.mp hguard).1 halias
    · split at h
      · rename_i hguard
        cases h
        exact .exportType htext (Bool.and_eq_true_iff.mp hguard).2
      · cases h
  case h_3 htext =>
    split at h
    · rename_i hguard
      obtain ⟨⟨m, hm⟩, hmodule, h⟩ := exists_of_bind_eq_ok h
      cases h
      simp only [Bool.and_eq_true] at hguard
      exact .importType htext hguard.1.2 hmodule
    · cases h
  case h_4 htext =>
    split at h
    · rename_i hguard
      obtain ⟨⟨e, he⟩, hambient, h⟩ := exists_of_bind_eq_ok h
      cases h
      exact .ambient htext hguard hambient
    · cases h
  case h_5 htext =>
    split at h
    · rename_i hguard
      cases h
      exact .abstractWord htext hguard
    · cases h
  case h_6 | h_7 =>
    split at h
    · cases h
    · cases h
  case h_8 => cases h

/-- The word that tells the kind of a statement does not stand in front of it. -/
theorem le_headAt : i ≤ table.headAt i := by
  unfold headAt
  split <;> omega

/-- The `export` in front of a statement is no bracket and no semicolon. -/
theorem span_headAt : table.Span i (table.headAt i) := by
  unfold headAt
  split
  · rename_i hexport
    exact .mark hexport (by decide) .nil
  · exact .nil

/-- Which statements end by a search is told by their first words. -/
theorem endsBySearch_eq : table.endsBySearch i =
    match table.text (table.headAt i) with
    | "interface" | "import" => true
    | "declare" =>
      !(["const", "let", "var", "function"].contains (table.text (table.headAt i + 1)))
    | _ => false := rfl

/-- The range to remove for any other statement is a chain, but for the semicolon that may
end it. -/
theorem span_of_statementRemoval {r : Removal i} (h : table.statementRemoval i = .ok (some r))
    (hread : table.endsBySearch i = false) :
    ∃ m, table.Span r.first m ∧ r.stop = table.afterSemicolon m := by
  obtain ⟨first, stop, hlt⟩ := r
  have hstart : table.Span i (table.headAt i) := span_headAt
  have hremoves : table.Removes i (table.headAt i) first stop := removes_of_statementRemoval h
  rw [endsBySearch_eq] at hread
  cases hremoves with
  | interface htext | importType htext => simp [htext] at hread
  | typeAlias htext hname halias =>
    obtain ⟨m, hspan, hstop⟩ := Span.aliasEnd halias
    exact ⟨m, hstart.trans (.text htext (by decide) (.word hname hspan)), hstop⟩
  | exportType htext hcurly =>
    obtain ⟨m, hspan, hstop⟩ := Span.exportEnd hcurly
    exact ⟨m, hstart.trans (.text htext (by decide) hspan), hstop⟩
  | ambient htext hword hambient =>
    simp only [htext, Bool.not_eq_false', List.contains_eq_mem, decide_eq_true_eq] at hread
    obtain ⟨m, hspan, hstop⟩ := Span.ambientEnd hread hambient
    exact ⟨m, hstart.trans (.text htext (by decide) hspan), hstop⟩
  | abstractWord htext hclass =>
    refine ⟨table.headAt i + 1, .text htext (by decide) .nil, ?_⟩
    have hsemicolon : table.is (table.headAt i + 1) ";" ≠ true := fun hsemicolon => by
      simpa [text_of_is hclass] using text_of_is hsemicolon
    simp [afterSemicolon, hsemicolon]

end TokenTable

end Workflow.Script
