import Workflow.Proofs.Script.Rereading

/-!
# Tokens cut a source into parts

The tokens of a source hold each of its characters once and in order, and every token starts
where the parts before its text end. The end of the source is the last token and the only one
without a text. In front of a token stand white space and comments, and these are complete: a
comment between marks goes on to the first closing mark, and another one to the end of its line.
-/

namespace Workflow.Script

/-- White space and complete comments. The last line of a source, behind which no token
follows, ends without a line feed. -/
inductive Spacing (last : Bool) : List Char → Prop
  /-- Nothing stands in front. -/
  | none : Spacing last []
  /-- A blank character. -/
  | blank {c : Char} {cs : List Char} : Text.isBlank c = true → Spacing last cs →
      Spacing last (c :: cs)
  /-- A comment up to the line feed that ends its line. -/
  | line {body cs : List Char} : '\n' ∉ body → Spacing last ('\n' :: cs) →
      Spacing last ('/' :: '/' :: (body ++ '\n' :: cs))
  /-- A comment up to the end of the source. -/
  | lastLine {body : List Char} : last = true → '\n' ∉ body → Spacing last ('/' :: '/' :: body)
  /-- A comment up to the first mark that closes it. -/
  | block {body cs : List Char} : ¬ ['*', '/'] <:+: body → Spacing last cs →
      Spacing last ('/' :: '*' :: (body ++ '*' :: '/' :: cs))

/-- White space and complete comments at the start of a source, where a line that begins with
`#!` may come first. -/
inductive HeadSpacing (last : Bool) : List Char → Prop
  | plain {cs : List Char} : Spacing last cs → HeadSpacing last cs
  | line {body cs : List Char} : '\n' ∉ body → Spacing last ('\n' :: cs) →
      HeadSpacing last ('#' :: '!' :: (body ++ '\n' :: cs))
  | lastLine {body : List Char} : last = true → '\n' ∉ body →
      HeadSpacing last ('#' :: '!' :: body)

/-- The tokens cut the source into parts. -/
structure Partitions (source : String) (ts : List Token) : Prop where
  /-- No character is lost or taken twice. -/
  characters : charactersOf ts = source.toList
  /-- A token starts behind everything that stands before its text. -/
  start : ∀ front t behind, ts = front ++ t :: behind →
    t.start = (charactersOf front).length + t.leading.toList.length
  /-- The end of the source is the last token, and the only one without a text. -/
  finish : ∃ front last, ts = front ++ [last] ∧ last.kind = .finish ∧ last.text = "" ∧
    ∀ t ∈ front, t.kind ≠ .finish ∧ t.text ≠ ""
  /-- White space and comments stand in front of the first token, and at most a `#!` line. -/
  head : ∀ t ∈ ts.head?, HeadSpacing (t.kind == .finish) t.leading.toList
  /-- White space and comments stand in front of every other token. -/
  tail : ∀ t ∈ ts.tail, Spacing (t.kind == .finish) t.leading.toList

variable {cs rest : List Char} {last : Bool}

/-- A comment ends at the first mark that closes it. -/
theorem exists_of_commentTail (h : commentTail cs = some rest) :
    ∃ body, cs = body ++ '*' :: '/' :: rest ∧ ¬ ['*', '/'] <:+: body := by
  fun_induction commentTail cs with
  | case1 => cases h
  | case2 after =>
    cases h
    exact ⟨[], rfl, by simp⟩
  | case3 c tail hopen ih =>
    obtain ⟨body, rfl, hbody⟩ := ih h
    refine ⟨c :: body, rfl, fun hinfix => ?_⟩
    rcases List.infix_cons_iff.mp hinfix with hprefix | hinside
    · obtain ⟨hc, hbody⟩ := List.cons_prefix_cons.mp hprefix
      obtain ⟨behind, rfl⟩ := hbody
      exact hopen _ hc.symm rfl
    · exact hbody hinside

/-- White space and comments in front of a token are complete. -/
theorem Trivia.spacing (h : Trivia cs) : Spacing last cs := by
  induction h with
  | none => exact .none
  | blank hblank _ ih => exact .blank hblank ih
  | line hbody _ ih => exact .line hbody ih
  | block hbody _ ih =>
    obtain ⟨body, rfl, hfirst⟩ := exists_of_commentTail hbody
    simpa using Spacing.block hfirst ih

/-- What is left to the end of a line begins with the line feed or with nothing. -/
theorem spacing_of_triviaTail (h : triviaTail cs = .ok []) : Spacing true cs := by
  fun_induction triviaTail cs with
  | case1 => exact .none
  | case2 tail ih =>
    obtain ⟨line, hline, heq, hnil | ⟨after, hafter⟩⟩ := exists_line tail
    · rw [hnil, List.append_nil] at heq
      exact .lastLine rfl (heq ▸ hline)
    · have hrest := ih h
      rw [hafter] at heq hrest
      rw [heq]
      exact .line hline hrest
  | case3 tail after hafter ih =>
    obtain ⟨body, rfl, hfirst⟩ := exists_of_commentTail hafter
    exact .block hfirst (ih h)
  | case4 => cases h
  | case5 c tail _ _ hblank ih => exact .blank hblank (ih h)
  | case6 => cases h

theorem headSpacing_of_headTail (h : headTail cs = .ok []) : HeadSpacing true cs := by
  unfold headTail at h
  split at h
  · rename_i tail
    obtain ⟨line, hline, heq, hnil | ⟨after, hafter⟩⟩ := exists_line tail
    · rw [hnil, List.append_nil] at heq
      exact .lastLine rfl (heq ▸ hline)
    · have hrest := spacing_of_triviaTail h
      rw [hafter] at heq hrest
      rw [heq]
      exact .line hline hrest
  · exact .plain (spacing_of_triviaTail h)

theorem Token.Spaced.spacing {t : Token} (h : t.Spaced) :
    Spacing (t.kind == .finish) t.leading.toList := by
  unfold Token.Spaced at h
  split at h
  · rename_i hkind
    rw [hkind]
    exact spacing_of_triviaTail h
  · exact h.spacing

theorem Token.HeadSpaced.headSpacing {t : Token} (h : t.HeadSpaced) :
    HeadSpacing (t.kind == .finish) t.leading.toList := by
  unfold Token.HeadSpaced at h
  split at h
  · rename_i hkind
    rw [hkind]
    exact headSpacing_of_headTail h
  · generalize t.leading.toList = leading at h
    cases h with
    | plain hfront => exact .plain hfront.spacing
    | line hbody hfront => exact .line hbody hfront.spacing

/-- The tokens of a source cut it into parts. -/
theorem partitions_of_tokenize {source : String} {table : TokenTable}
    (htable : tokenize source = .ok table) : Partitions source table.tokens.toList := by
  obtain ⟨t, ts, htokens, hof⟩ := readTokens_eq_iff.mp (tokenize_eq_ok_iff.mp htable).1
  obtain ⟨front, last, heq, hkind, htext, hformed, hspaced, -⟩ := readsOn_iff.mp hof.reads
  rw [htokens]
  refine ⟨hof.characters, ?_, ⟨front, last, heq, hkind, htext, fun u hu => ?_⟩, ?_, ?_⟩
  · intro before u behind hsplit
    have hplaced := hof.placed
    rw [hsplit, placed_append] at hplaced
    simpa [Placed] using hplaced.2.1
  · have hu := hformed u hu
    obtain ⟨c, body, htext⟩ := hu.exists_cons
    refine ⟨hu.kind_ne_finish, fun hnil => ?_⟩
    rw [hnil] at htext
    cases htext
  · intro u hu
    obtain rfl := Option.some.inj hu
    exact hof.head.headSpacing
  · exact fun u hu => (hspaced u hu).spacing

/-- A line for the shell, a comment of each kind and a literal with a line feed. -/
theorem partitions_commented : ∃ table,
    tokenize "#!/bin/sh\na /* b */ + \x60c\n\x60 // d" = .ok table ∧
      (table.tokens.toList.map fun t => (t.leading, t.text, t.start)) =
        [("#!/bin/sh\n", "a", 10), (" /* b */ ", "+", 20), (" ", "\x60c\n\x60", 22),
          (" // d", "", 31)] ∧
      Partitions "#!/bin/sh\na /* b */ + \x60c\n\x60 // d" table.tokens.toList := by
  have htokens : ((tokenize "#!/bin/sh\na /* b */ + \x60c\n\x60 // d").map fun table =>
      table.tokens.toList.map fun t => (t.leading, t.text, t.start)) =
        .ok [("#!/bin/sh\n", "a", 10), (" /* b */ ", "+", 20), (" ", "\x60c\n\x60", 22),
          (" // d", "", 31)] := by decide +kernel
  cases htable : tokenize "#!/bin/sh\na /* b */ + \x60c\n\x60 // d" with
  | error fault =>
    rw [htable] at htokens
    cases htokens
  | ok table =>
    rw [htable] at htokens
    exact ⟨table, rfl, Except.ok.inj htokens, partitions_of_tokenize htable⟩

end Workflow.Script
