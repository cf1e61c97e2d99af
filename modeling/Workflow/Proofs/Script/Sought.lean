import Mathlib.Data.List.Basic
import Workflow.Proofs.Script.Spans

/-!
# What the end of a statement is searched by

The end of an interface, of a type-only import and of most ambient declarations is not read
token by token from the first token on: the body, the name of the module or what follows the
name is searched for first, and what stands in front of it is passed over, whatever it is.
From there on the statement is a chain of whole groups and other tokens.
-/

namespace Workflow.Script.TokenTable

/-- The groups in brackets that the token at an index stands in, by the indices of their first
brackets. Tokens are on the same level if they stand in the same groups. -/
def around (table : TokenTable) (k : Nat) : List Nat :=
  (List.range table.tokens.size).filter fun g => decide (g < k ∧ k < table.closeOf g)

/-- The index of the token that the end of an ambient declaration is searched by, whose keyword
stands at `k`: its body, or what follows the name of an alias. -/
def ambientSought? (table : TokenTable) (k : Nat) : Option Nat :=
  match table.text k with
  | "const" | "let" | "var" | "function" => none
  | "type" => some (k + 2)
  | _ => (table.braceFrom (k + 1) (k + 1)).toOption.map (·.val)

/-- The index of the token that the end of the statement at `i` is searched by: its body, the
module it names, or what follows the name of an ambient alias. What stands in front of that
token is passed over, whatever it is. -/
def sought? (table : TokenTable) (i : Nat) : Option Nat :=
  let j := table.headAt i
  match table.text j with
  | "interface" => (table.braceFrom (j + 2) (j + 2)).toOption.map (·.val)
  | "import" => (table.moduleEnd j (j + 2)).toOption.map (·.val - 1)
  | "declare" => table.ambientSought? (j + 1)
  | _ => none

variable {table : TokenTable} {i k m e g first stop : Nat}

/-- The groups around a token open in front of it and close behind it. -/
theorem mem_around_iff :
    g ∈ table.around k ↔ g < table.tokens.size ∧ g < k ∧ k < table.closeOf g := by
  simp [around]

/-- A bracket that closes behind itself closes at its partner. -/
theorem partner_of_lt_closeOf (h : g < table.closeOf g) :
    table.partner[g]? = some (some (table.closeOf g)) := by
  unfold closeOf at h ⊢
  split at h
  · rename_i j hj
    rw [hj, Nat.max_eq_right (by omega)]
  · exact absurd h (Nat.lt_irrefl g)

/-- The first curly bracket from an index on is one. -/
theorem is_braceFrom {r : { e : Nat // m ≤ e }} (h : table.braceFrom first m = .ok r) :
    table.is r.val "\x7b" = true := by
  fun_induction braceFrom table first m with
  | case1 m _ hbrace =>
    cases h
    exact hbrace
  | case2 m _ _ _ ih =>
    obtain ⟨⟨n, hn⟩, -, h⟩ := exists_of_bind_eq_ok h
    obtain ⟨e, he, h⟩ := exists_of_bind_eq_ok h
    cases h
    exact ih n hn he
  | case3 m _ _ _ _ ih | case4 m _ _ _ _ ih =>
    obtain ⟨e, he, h⟩ := exists_of_bind_eq_ok h
    cases h
    exact ih he
  | case5 => cases h

/-- A module ends behind a string. -/
theorem kind_moduleEnd {r : { e : Nat // m < e }} (h : table.moduleEnd first m = .ok r) :
    table.kind (r.val - 1) = .string := by
  fun_induction moduleEnd table first m with
  | case1 m _ hstring =>
    cases h
    exact hstring
  | case2 m _ _ _ ih | case3 m _ _ _ ih =>
    obtain ⟨e, he, h⟩ := exists_of_bind_eq_ok h
    cases h
    exact ih he
  | case4 => cases h

theorem afterSemicolon_le (m : Nat) : (table.afterSemicolon m).val ≤ m + 1 := by
  unfold afterSemicolon
  split
  · exact Nat.le_refl _
  · exact Nat.le_succ m

/-- A body ends with the group that its curly bracket opens. -/
theorem span_of_bodyEnd {r : { m : Nat // k < m }} (h : table.bodyEnd k = .ok r) :
    ∃ a, (table.braceFrom k k).toOption.map (·.val) = some a ∧ k ≤ a ∧ a < r.val ∧
      table.Span a r := by
  obtain ⟨⟨brace, hle⟩, hbrace, h⟩ := exists_of_bind_eq_ok h
  cases h
  exact ⟨brace, by simp [hbrace, Except.toOption], hle, Nat.lt_succ_of_le (table.le_closeOf brace),
    .group (is_braceFrom hbrace) (by decide) .nil⟩

/-- The ambient declarations that are not read from their keyword on are read from the token on
that is searched for. -/
theorem span_of_ambientEnd {r : { m : Nat // k < m }} (h : table.ambientEnd k = .ok r)
    (hk : table.text k ∉ ["const", "let", "var", "function"]) :
    ∃ a m, table.ambientSought? k = some a ∧ k < a ∧ a < r.val ∧ table.Span a m ∧
      r.val = table.afterSemicolon m := by
  unfold ambientEnd at h
  unfold ambientSought?
  split at h
  case h_1 htext =>
    obtain ⟨⟨e, he⟩, halias, h⟩ := exists_of_bind_eq_ok h
    cases h
    obtain ⟨m, hspan, hstop⟩ := Span.aliasEnd halias
    exact ⟨k + 2, m, by simp [htext], by omega, he, hspan, hstop⟩
  case h_2 htext | h_3 htext | h_4 htext | h_5 htext => simp [htext] at hk
  case h_6 htype hconst hlet hvar hfunction =>
    obtain ⟨⟨m, hm⟩, hbody, h⟩ := exists_of_bind_eq_ok h
    cases h
    obtain ⟨a, ha, hle, hlt, hspan⟩ := span_of_bodyEnd hbody
    exact ⟨a, m, by split <;> first | contradiction | exact ha, by omega,
      Nat.lt_of_lt_of_le hlt (table.afterSemicolon m).2, hspan, rfl⟩

/-- A module is sought by the string that names it. -/
theorem span_of_moduleEnd {r : { e : Nat // m < e }} (h : table.moduleEnd first m = .ok r) :
    ∃ a, (table.moduleEnd first m).toOption.map (·.val - 1) = some a ∧ m ≤ a ∧ a < r.val ∧
      table.Span a r := by
  have hm := r.2
  refine ⟨r.val - 1, by simp [h, Except.toOption], by omega, by omega,
    .other (by rw [kind_moduleEnd h]; decide) ?_⟩
  rw [Nat.sub_add_cancel (by omega)]
  exact .nil

/-- The tokens of a statement are removed, and its end is found from the token `a` on. -/
structure EndsFrom (table : TokenTable) (first a stop : Nat) : Prop where
  /-- The statement starts with a word of its own. -/
  front : table.Span first (first + 1)
  /-- The token that is searched for stands behind that word. -/
  first_lt : first < a
  /-- It belongs to the statement. -/
  lt_stop : a < stop
  /-- From there on the statement is read token by token, up to a semicolon it may end with. -/
  chain : ∃ m, table.Span a m ∧ (stop = m ∨ stop = table.afterSemicolon m)

/-- The chain ends with the range, or in front of the semicolon that the range ends with. -/
theorem EndsFrom.exists_span (h : table.EndsFrom first g stop) :
    ∃ m, table.Span g m ∧ stop ≤ m + 1 := by
  obtain ⟨m, hspan, rfl | rfl⟩ := h.chain
  · exact ⟨stop, hspan, Nat.le_succ stop⟩
  · exact ⟨m, hspan, afterSemicolon_le m⟩

/-- The word in front of a statement is no bracket and no semicolon. -/
theorem span_first {text : String} (h : table.text (table.headAt i) = text)
    (htext : text ∉ "" :: boundaries) : table.Span i (i + 1) := by
  unfold headAt at h
  split at h
  · rename_i hexport
    exact .mark hexport (by decide) .nil
  · exact .text h htext .nil

/-- A statement whose end is searched for is read token by token from the token on that is
searched for. -/
theorem exists_sought {r : Removal i} (h : table.statementRemoval i = .ok (some r))
    (hsearch : table.endsBySearch i = true) :
    ∃ a, table.sought? i = some a ∧ table.EndsFrom r.first a r.stop := by
  obtain ⟨first, stop, hlt⟩ := r
  have hremoves : table.Removes i (table.headAt i) first stop := removes_of_statementRemoval h
  have hle : i ≤ table.headAt i := le_headAt
  rw [endsBySearch_eq] at hsearch
  unfold sought?
  dsimp only
  cases hremoves with
  | @interface e htext hname hbody =>
    obtain ⟨a, ha, hfirst, hlast, hspan⟩ := span_of_bodyEnd hbody
    exact ⟨a, by simpa [htext] using ha, span_first htext (by decide), by omega, hlast, e, hspan,
      .inl rfl⟩
  | @importType m htext htype hmodule =>
    obtain ⟨a, ha, hfirst, hlast, hspan⟩ := span_of_moduleEnd hmodule
    exact ⟨a, by simpa [htext] using ha, span_first htext (by decide), by omega,
      Nat.lt_of_lt_of_le hlast (table.afterSemicolon m).2, m, hspan, .inr rfl⟩
  | @ambient e htext hword hambient =>
    obtain ⟨a, m, ha, hfirst, hlast, hspan, hstop⟩ :=
      span_of_ambientEnd hambient (by simpa [htext, List.contains_eq_mem] using hsearch)
    exact ⟨a, by simpa [htext] using ha, span_first htext (by decide), by omega, hlast, m, hspan,
      .inr hstop⟩
  | typeAlias htext | exportType htext | abstractWord htext => simp [htext] at hsearch

/-- No end of any other statement is searched for. -/
theorem sought?_of_not_endsBySearch (h : table.endsBySearch i = false) :
    table.sought? i = none := by
  rw [endsBySearch_eq] at h
  unfold sought?
  dsimp only
  split
  · rename_i htext
    simp [htext] at h
  · rename_i htext
    simp [htext] at h
  · rename_i htext
    simp only [htext, Bool.not_eq_false', List.contains_eq_mem, List.mem_cons, List.not_mem_nil,
      or_false, decide_eq_true_eq] at h
    unfold ambientSought?
    rcases h with h | h | h | h <;> simp only [h]
  · rfl

end Workflow.Script.TokenTable
