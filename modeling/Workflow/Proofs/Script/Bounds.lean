import Workflow.Proofs.Script.Lookahead
import Workflow.Proofs.Script.StatementEnd

/-!
# No end lies behind the end of the source

The end of the source is the last token of a table, and no bracket. So a chain of groups and
other tokens stays in front of it, and an end that is found lies at it at most: the end of a
type, of a list in angle brackets, and of a statement that only declares types, be it read token
by token or searched for.
-/

namespace Workflow.Script

section

variable {source : String} {table : TokenTable} (htable : tokenize source = .ok table)
  {i k m e first : Nat}

include htable

/-- The last token is the end of the source, and has no text. -/
theorem exists_last : ∃ front last, table.tokens.toList = front ++ [last] ∧ last.kind = .finish ∧
    last.text = "" := by
  obtain ⟨t, ts, htokens, hof⟩ := readTokens_eq_iff.mp (tokenize_eq_ok_iff.mp htable).1
  obtain ⟨front, last, heq, hkind, htext, -⟩ := readsOn_iff.mp hof.reads
  exact ⟨front, last, htokens.trans heq, hkind, htext⟩

/-- The end of the source is the last of the tokens. -/
theorem size_eq_finish : table.tokens.size = table.finish + 1 := by
  obtain ⟨front, last, htokens, -⟩ := exists_last htable
  have hsize := congrArg List.length htokens
  rw [Array.length_toList, List.length_append, List.length_singleton] at hsize
  rw [TokenTable.finish]
  omega

/-- What is not the end of the source stands in front of it. -/
theorem lt_finish_of_present (h : table.Present k) : k < table.finish := by
  obtain ⟨front, last, htokens, hkind, htext⟩ := exists_last htable
  have hsize := size_eq_finish htable
  by_contra hle
  rcases Nat.eq_or_lt_of_le (Nat.le_of_not_lt hle) with rfl | hlt
  · have hfinish : table.tokens[table.finish]? = some last := by
      have hlength := congrArg List.length htokens
      rw [Array.length_toList, List.length_append, List.length_singleton] at hlength
      rw [← Array.getElem?_toList, htokens, show table.finish = front.length by omega,
        List.getElem?_concat_length]
    simp [TokenTable.Present, TokenTable.kind, TokenTable.text, hfinish, hkind, htext] at h
  · have hnone : table.tokens[k]? = none := Array.getElem?_eq_none (by omega)
    simp [TokenTable.Present, TokenTable.kind, TokenTable.text, hnone] at h

/-- Every other token stands in front of the end. -/
theorem lt_finish_of_kind_ne (h : table.kind k ≠ .finish) : k < table.finish :=
  lt_finish_of_present htable (.inl h)

theorem lt_finish_of_is {text : String} (h : table.is k text = true) : k < table.finish :=
  lt_finish_of_kind_ne htable (TokenTable.kind_ne_of_is h)

/-- Tokens in front of the end of the source are well formed. -/
theorem formed_of_getElem? {t : Token} (h : table.tokens[k]? = some t) (hkind : t.kind ≠ .finish) :
    t.Formed := by
  obtain ⟨u, us, htokens, hof⟩ := readTokens_eq_iff.mp (tokenize_eq_ok_iff.mp htable).1
  obtain ⟨front, last, heq, hlast, -, hformed, -⟩ := readsOn_iff.mp hof.reads
  rw [← Array.getElem?_toList, htokens, heq] at h
  rcases List.mem_append.mp (List.mem_of_getElem? h) with hfront | hend
  · exact hformed t hfront
  · exact absurd (List.mem_singleton.mp hend ▸ hlast) hkind

/-- An angle bracket that opens is a punctuator. -/
theorem kind_of_is_angle (h : table.is k "<" = true) : table.kind k = .punctuator := by
  have hne := TokenTable.kind_ne_of_is h
  have htext := TokenTable.text_of_is h
  rw [TokenTable.kind] at hne ⊢
  rw [TokenTable.text] at htext
  cases htoken : table.tokens[k]? with
  | none => simp [htoken] at hne
  | some t =>
    simp only [htoken, Option.map_some, Option.getD_some] at hne htext ⊢
    exact (formed_of_getElem? htable htoken hne).kind_of_mark (htext ▸ List.mem_cons_self)

/-- A bracket in front of the end of the source is closed in front of it. -/
theorem closeOf_lt_finish (h : k < table.finish) : table.closeOf k < table.finish := by
  unfold TokenTable.closeOf
  split
  · rename_i j hpartner
    have hj := (bracket_of_partner htable (partner_symm htable hpartner)).2.2
    omega
  · exact h

/-- A chain that starts in front of the end of the source does not go beyond it. -/
theorem TokenTable.Span.le_finish (h : table.Span k e) (hk : k ≤ table.finish) :
    e ≤ table.finish := by
  induction h with
  | nil => exact hk
  | plain hpresent _ _ ih => exact ih (lt_finish_of_present htable hpresent)
  | group hopen _ _ ih => exact ih (closeOf_lt_finish htable (lt_finish_of_is htable hopen))

/-- A chain that is not empty starts in front of the end of the source. -/
theorem TokenTable.Span.le_finish_of_lt (h : table.Span k e) (hlt : k < e) : e ≤ table.finish := by
  cases h with
  | nil => exact absurd hlt (Nat.lt_irrefl k)
  | plain hpresent _ hrest => exact hrest.le_finish htable (lt_finish_of_present htable hpresent)
  | group hopen _ hrest =>
    exact hrest.le_finish htable (closeOf_lt_finish htable (lt_finish_of_is htable hopen))

/-! ## Types -/

/-- A type ends at the end of the source at most. -/
theorem typeEnd_le_finish {r : { e : Nat // k < e }} (h : table.typeEnd k = .ok r) :
    r.val ≤ table.finish := (TokenTable.Span.typeEnd h).le_finish_of_lt htable r.2

theorem operandEnd_le_finish {r : { e : Nat // k < e }} (h : table.operandEnd k = .ok r) :
    r.val ≤ table.finish :=
  (TokenTable.Span.operandEnd (fun _ _ _ _ => TokenTable.Span.typeEnd) h).le_finish_of_lt htable r.2

/-- A list in angle brackets ends at the end of the source at most. -/
theorem angleEnd_le_finish {r : { e : Nat // k < e }} (h : table.angleEnd k = .ok r) :
    r.val ≤ table.finish := (TokenTable.Span.angleEnd h).le_finish_of_lt htable r.2

/-! ## Statements -/

/-- A semicolon stands in front of the end. -/
theorem afterSemicolon_le_finish (h : k ≤ table.finish) :
    (table.afterSemicolon k).val ≤ table.finish := by
  unfold TokenTable.afterSemicolon
  split
  · rename_i hsemicolon
    exact lt_finish_of_is htable hsemicolon
  · exact h

/-- A chain, and the semicolon that may end it, do not go beyond the end of the source. -/
theorem TokenTable.Span.afterSemicolon_le_finish (h : table.Span k m)
    (hlt : k < (table.afterSemicolon m).val) : (table.afterSemicolon m).val ≤ table.finish := by
  rcases Nat.eq_or_lt_of_le h.le with rfl | hm
  · unfold TokenTable.afterSemicolon at hlt ⊢
    split at hlt
    · rename_i hsemicolon
      rw [if_pos hsemicolon]
      exact lt_finish_of_is htable hsemicolon
    · exact absurd hlt (Nat.lt_irrefl k)
  · exact Workflow.Script.afterSemicolon_le_finish htable (h.le_finish_of_lt htable hm)

/-- A body ends at the end of the source at most. -/
theorem bodyEnd_le_finish {r : { e : Nat // k < e }} (h : table.bodyEnd k = .ok r) :
    r.val ≤ table.finish := by
  obtain ⟨brace, -, -, hlt, hspan⟩ := TokenTable.span_of_bodyEnd h
  exact hspan.le_finish_of_lt htable hlt

/-- An import ends at the end of the source at most. -/
theorem moduleEnd_le_finish {r : { e : Nat // m < e }} (h : table.moduleEnd first m = .ok r) :
    r.val ≤ table.finish := by
  obtain ⟨name, -, -, hlt, hspan⟩ := TokenTable.span_of_moduleEnd h
  exact hspan.le_finish_of_lt htable hlt

/-- The type of an alias ends at the end of the source at most. -/
theorem aliasEnd_le_finish {r : { e : Nat // k < e }} (h : table.aliasEnd k = .ok r) :
    r.val ≤ table.finish := by
  obtain ⟨m, hspan, hstop⟩ := TokenTable.Span.aliasEnd h
  have hlt := r.2
  rw [hstop] at hlt ⊢
  exact hspan.afterSemicolon_le_finish htable hlt

/-- What is declared for other code ends at the end of the source at most. -/
theorem ambientEnd_le_finish {r : { e : Nat // k < e }} (h : table.ambientEnd k = .ok r) :
    r.val ≤ table.finish := by
  by_cases hk : table.text k ∈ ["const", "let", "var", "function"]
  · obtain ⟨m, hspan, hstop⟩ := TokenTable.Span.ambientEnd hk h
    have hlt := r.2
    rw [hstop] at hlt ⊢
    exact hspan.afterSemicolon_le_finish htable hlt
  · unfold TokenTable.ambientEnd at h
    split at h
    case h_1 =>
      obtain ⟨e, halias, h⟩ := exists_of_bind_eq_ok h
      cases h
      have hend := aliasEnd_le_finish htable halias
      exact hend
    case h_2 htext | h_3 htext | h_4 htext | h_5 htext => simp [htext] at hk
    case h_6 =>
      obtain ⟨m, hbody, h⟩ := exists_of_bind_eq_ok h
      cases h
      exact afterSemicolon_le_finish htable (bodyEnd_le_finish htable hbody)

/-- A statement that only declares types ends at the end of the source at most. -/
theorem statementRemoval_le_finish {r : TokenTable.Removal i}
    (h : table.statementRemoval i = .ok (some r)) : r.stop ≤ table.finish := by
  obtain ⟨first, stop, hlt⟩ := r
  have hremoves : table.Removes i (table.headAt i) first stop :=
    TokenTable.removes_of_statementRemoval h
  cases hremoves with
  | interface _ _ hbody => exact bodyEnd_le_finish htable hbody
  | typeAlias _ _ halias => exact aliasEnd_le_finish htable halias
  | exportType _ hcurly =>
    obtain ⟨m, hspan, hstop⟩ := TokenTable.Span.exportEnd hcurly
    have hexport := (table.exportEnd (table.headAt i + 1)).2
    rw [hstop] at hexport
    exact Nat.le_trans (Nat.le_of_eq hstop) (hspan.afterSemicolon_le_finish htable hexport)
  | importType _ _ hmodule =>
    exact afterSemicolon_le_finish htable (moduleEnd_le_finish htable hmodule)
  | ambient _ _ hambient => exact ambientEnd_le_finish htable hambient
  | abstractWord _ hclass => exact Nat.le_of_lt (lt_finish_of_is htable hclass)

end

end Workflow.Script
