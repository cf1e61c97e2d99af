import Workflow.Proofs.Script.Pairs

/-!
# Where a statement that only declares types ends

What follows a semicolon belongs to the next statement, unless the semicolon stands in
brackets that the statement opens. A chain of whole groups and other tokens has its
semicolons in its groups, so a statement that is read token by token ends no later than at
its semicolon. Where a body or a module is searched for instead, the statement ends there
exactly if the search meets no semicolon on its way.
-/

namespace Workflow.Script.TokenTable

/-- The token is a semicolon. -/
def IsSemicolon (table : TokenTable) (k : Nat) : Prop :=
  table.kind k = .punctuator ∧ table.text k = ";"

instance (table : TokenTable) (k : Nat) : Decidable (table.IsSemicolon k) :=
  inferInstanceAs (Decidable (_ ∧ _))

section

variable {source : String} {table : TokenTable} (htable : tokenize source = .ok table)
  {i k m e first : Nat}

include htable

/-- The semicolons of a chain stand in its groups, so none is on a level in front of it. -/
theorem Span.around_ne (h : table.Span m e) (hfirst : first ≤ m) (hm : m ≤ k) (he : k < e)
    (hsemicolon : table.IsSemicolon k) : table.around k ≠ table.around first := by
  induction h with
  | nil => omega
  | @plain m e _ hplain hspan ih =>
    rcases Nat.eq_or_lt_of_le hm with rfl | hlt
    · exact absurd (by rw [hsemicolon.2]; decide) (hplain hsemicolon.1)
    · exact ih (by omega) hlt he
  | @group m e text hopen htext hspan ih =>
    have hbrackets : table.text k ∉ bracketMarks := by
      rw [hsemicolon.2]
      decide
    have hne : k ≠ m := by
      rintro rfl
      refine hbrackets ?_
      rw [text_of_is hopen]
      exact List.mem_append_left [")", "]", "\x7d"] htext
    by_cases hin : k < table.closeOf m
    · intro heq
      have hmem : m ∈ table.around k :=
        mem_around_iff.mpr ⟨table.lt_size_of_is hopen, by omega, hin⟩
      rw [heq, mem_around_iff] at hmem
      omega
    · have hclose : k ≠ table.closeOf m := by
        rintro rfl
        have hlt : m < table.closeOf m := by omega
        have hpartner := partner_symm htable (partner_of_lt_closeOf hlt)
        exact hbrackets (bracket_of_partner htable hpartner).2.1
      exact ih (by have := table.le_closeOf m; omega) (by omega) he

/-- A removed range holds no semicolon on the level of its first token but the last token,
exactly if no such semicolon stands in front of the token that the end of the statement is
searched by. So a statement that is not searched takes no token of the next one with it. -/
theorem semicolon_last_iff {r : Removal i} (h : table.statementRemoval i = .ok (some r)) :
    (∀ k, r.first ≤ k → k < r.stop → table.IsSemicolon k →
      table.around k = table.around r.first → k + 1 = r.stop) ↔
    ∀ a ∈ table.sought? i, ∀ k, r.first ≤ k → k < a → table.IsSemicolon k →
      table.around k ≠ table.around r.first := by
  cases hsearch : table.endsBySearch i with
  | false =>
    obtain ⟨m, hspan, hstop⟩ := span_of_statementRemoval h hsearch
    have hle : r.stop ≤ m + 1 := hstop ▸ afterSemicolon_le m
    simp only [sought?_of_not_endsBySearch hsearch, Option.not_mem_none, false_implies,
      implies_true, iff_true]
    intro k hfirst hk hsemicolon hlevel
    by_contra hlast
    exact hspan.around_ne htable (Nat.le_refl _) hfirst (by omega) hsemicolon hlevel
  | true =>
    obtain ⟨a, ha, hends⟩ := exists_sought h hsearch
    obtain ⟨m, hspan, hstop⟩ := hends.exists_span
    have hfirst := hends.first_lt
    have hlt := hends.lt_stop
    constructor
    · rintro hlast b hb k hk hkb hsemicolon hlevel
      obtain rfl := Option.some.inj (ha.symm.trans hb)
      have := hlast k hk (by omega) hsemicolon hlevel
      omega
    · intro hnone k hk hkstop hsemicolon hlevel
      by_contra hlast
      by_cases hka : k < a
      · exact hnone a ha k hk hka hsemicolon hlevel
      · exact hspan.around_ne htable (by omega) (by omega) (by omega) hsemicolon hlevel

end

/-- An interface takes the semicolons of its members with it and nothing of the next line. -/
theorem semicolon_last_interface : ∃ table, ∃ r : Removal 0,
    tokenize "interface A \x7b b: string; \x7d\nconst c = 1;" = .ok table ∧
    table.statementRemoval 0 = .ok (some r) ∧ r.stop = 8 ∧
    ∀ k, r.first ≤ k → k < r.stop → table.IsSemicolon k →
      table.around k = table.around r.first → k + 1 = r.stop := by
  obtain ⟨table, s, htable, -, hcheck⟩ := exists_run_of_bind
    "interface A \x7b b: string; \x7d\nconst c = 1;"
    (fun table _ => table.sought? 0 == some 2 &&
      ((List.range 2).all fun k => !decide (table.IsSemicolon k)) &&
      (table.statementRemoval 0).toOption.join.any fun r => r.stop == 8) (by decide +kernel)
  simp only [Bool.and_eq_true, beq_iff_eq, List.all_eq_true, List.mem_range, Bool.not_eq_true',
    decide_eq_false_iff_not] at hcheck
  obtain ⟨⟨hsought, hnone⟩, hstop⟩ := hcheck
  obtain ⟨r, hr, hstop⟩ := (Option.any_eq_true ..).mp hstop
  have hr := toOption_eq_some_iff.mp (Option.join_eq_some_iff.mp hr)
  refine ⟨table, r, htable, hr, by simpa using hstop, (semicolon_last_iff htable hr).mpr ?_⟩
  rintro a ha k - hk hsemicolon
  obtain rfl := Option.some.inj (hsought.symm.trans ha)
  exact absurd hsemicolon (hnone k hk)

/-- A declaration of a module without a body ends at its semicolon. Its body is searched for all
the same, and the curly brackets of the next line are taken for it. -/
theorem exists_statement_removed_with : ∃ table s, ∃ r : Removal 0, ∃ k,
    tokenize "declare module \"foo\";\nconst x = \x7b a: 1 \x7d;" = .ok table ∧
    Erasure.run table (.start table) 0 = .ok s ∧
    eraseTypes "declare module \"foo\";\nconst x = \x7b a: 1 \x7d;" = .ok "\n" ∧
    table.statementRemoval 0 = .ok (some r) ∧ r.first ≤ k ∧ k + 1 < r.stop ∧
    table.IsSemicolon k ∧ table.around k = table.around r.first ∧
    table.is (k + 1) "const" = true ∧ s.keeps (k + 1) = false := by
  obtain ⟨table, s, htable, hrun, hcheck⟩ := exists_run_of_bind
    "declare module \"foo\";\nconst x = \x7b a: 1 \x7d;"
    (fun table s => (table.statementRemoval 0).toOption.join.any fun r =>
      r.first == 0 && r.stop == 13 && decide (table.IsSemicolon 3) &&
        table.around 3 == table.around 0 && table.is 4 "const" && !s.keeps 4) (by decide +kernel)
  obtain ⟨r, hr, hcheck⟩ := (Option.any_eq_true ..).mp hcheck
  have hr := toOption_eq_some_iff.mp (Option.join_eq_some_iff.mp hr)
  simp only [Bool.and_eq_true, beq_iff_eq, decide_eq_true_eq, Bool.not_eq_true'] at hcheck
  obtain ⟨⟨⟨⟨⟨hfirst, hstop⟩, hsemicolon⟩, hlevel⟩, hconst⟩, hremoved⟩ := hcheck
  exact ⟨table, s, r, 3, htable, hrun, by decide +kernel, hr, by omega, by omega, hsemicolon,
    by rw [hfirst, hlevel], hconst, hremoved⟩

end Workflow.Script.TokenTable
