import Workflow.Proofs.Script.Consumption
import Workflow.Proofs.Script.Counters
import Workflow.Proofs.Script.Frames
import Workflow.Proofs.Script.Nesting
import Workflow.Proofs.Text.Position

/-!
# Erasing types is safe for every source

Whatever a source holds, reading it consumes characters, every search and every step goes forward
and stays in front of the end of the source, no counter is taken down from zero, a bracket is
always left open, and a source that is refused is refused at a place in it.
-/

namespace Workflow.Script

/-- What is searched for in a table lies ahead, at the end of the source at most. -/
structure MovesForward (table : TokenTable) : Prop where
  /-- A bracket is closed behind it and in front of the end of the source. -/
  bracket : ∀ {k text}, table.is k text = true → text ∈ ["(", "[", "\x7b"] →
    table.partner[k]? = some (some (table.closeOf k)) ∧ k < table.closeOf k ∧
      table.closeOf k < table.finish
  typeEnd : ∀ {k e}, Answers (table.typeEnd k) e → k < e ∧ e ≤ table.finish
  operandEnd : ∀ {k e}, Answers (table.operandEnd k) e → k < e ∧ e ≤ table.finish
  angleEnd : ∀ {k e}, Answers (table.angleEnd k) e → k < e ∧ e ≤ table.finish
  /-- Where a list in angle brackets opens, its brackets are counted without going below zero. -/
  countedAngleEnd : ∀ {k}, table.is k "<" = true →
    table.countedAngleEnd k 0 k = some ((table.angleEnd k).map Subtype.val)

/-- What holds of erasing the types of a source, whether it is accepted or not. -/
structure ErasedSafely (source : String) : Prop where
  /-- Reading takes at least one character for each token, and ends. -/
  consumes : Consumes source (readTokens source)
  /-- Wherever a template literal starts, the braces of its substitutions are counted without
  going below zero. -/
  templates : ∀ {front rest}, source.toList = front ++ '\x60' :: rest →
    countedTemplateTail (rest.length + 1) [] rest = some (templateTail (rest.length + 1) [] rest)
  /-- Searches among the tokens go forward. -/
  searches : ∀ {table}, tokenize source = .ok table → MovesForward table
  /-- The run through the tokens goes forward. -/
  runs : ∀ {table}, tokenize source = .ok table → Erasure.RunsForward table
  /-- A fault has a line of the source, and a column in it. -/
  faults : ∀ {r}, eraseTypes source = .error r → r.position.LiesIn source.toList

section

variable {source : String} {table : TokenTable} {k e : Nat}

theorem Answers.lt {r : Except Fault { m : Nat // k < m }} (h : Answers r e) : k < e := by
  obtain ⟨hlt, -⟩ := h
  exact hlt

/-- An opening bracket is closed behind it. -/
theorem partner_of_is {text : String} (htable : tokenize source = .ok table)
    (h : table.is k text = true) (htext : text ∈ ["(", "[", "\x7b"]) :
    table.partner[k]? = some (some (table.closeOf k)) ∧ k < table.closeOf k := by
  have hlt := table.lt_size_of_is h
  have his : table.tokens[k].is text = true := by simpa [TokenTable.is, hlt] using h
  obtain ⟨j, hj, hkj⟩ :=
    exists_partner_of_opens htable hlt (Token.opens?_ne_none_of_is his htext)
  have hclose : table.closeOf k = j := by
    simp only [TokenTable.closeOf, hj]
    omega
  exact ⟨hclose ▸ hj, hclose ▸ hkj⟩

theorem movesForward_of_tokenize (htable : tokenize source = .ok table) : MovesForward table where
  bracket h htext := by
    obtain ⟨hpartner, hlt⟩ := partner_of_is htable h htext
    exact ⟨hpartner, hlt, closeOf_lt_finish htable (lt_finish_of_is htable h)⟩
  typeEnd h := ⟨h.lt, by obtain ⟨_, h⟩ := h; exact typeEnd_le_finish htable h⟩
  operandEnd h := ⟨h.lt, by obtain ⟨_, h⟩ := h; exact operandEnd_le_finish htable h⟩
  angleEnd h := ⟨h.lt, by obtain ⟨_, h⟩ := h; exact angleEnd_le_finish htable h⟩
  countedAngleEnd h := TokenTable.countedAngleEnd_start htable h

/-- A source is refused at the place of a fault in it. -/
theorem liesIn_of_eraseTypes {r : Rejection} (h : eraseTypes source = .error r) :
    r.position.LiesIn source.toList := by
  have hplace : ∀ fault : Fault, (fault.inSource source).position.LiesIn source.toList :=
    fun fault => Text.Position.liesIn_after source.toList fault.offset
  unfold eraseTypes at h
  split at h
  · cases h
    exact hplace _
  · split at h
    · cases h
      exact hplace _
    · cases h

end

/-- Types are erased safely from every source. -/
theorem erasedSafely (source : String) : ErasedSafely source where
  consumes := consumes_readTokens source
  templates {_ rest} _ := countedTemplateTail_start (rest.length + 1) rest
  searches := movesForward_of_tokenize
  runs := Erasure.runsForward_of_tokenize
  faults := liesIn_of_eraseTypes

/-- An accepted source with counted brackets of each kind, and a source that is refused on its
second line. -/
theorem erasedSafely_conditional :
    (∃ table s, tokenize "f = <T>(x: A<B<T>>) => x ? \x60$\x7b[]\x7d\x60 : 0" = .ok table ∧
      Erasure.run table (.start table) 0 = .ok s ∧ MovesForward table ∧
      Erasure.RunsForward table) ∧
    eraseTypes "x;\n  enum E \x7b\x7d" = .error ⟨.enumeration, 2, 3⟩ ∧
    Text.Position.LiesIn ⟨2, 3⟩ "x;\n  enum E \x7b\x7d".toList := by
  obtain ⟨table, s, htable, hrun, -⟩ := exists_run_of_bind
    "f = <T>(x: A<B<T>>) => x ? \x60$\x7b[]\x7d\x60 : 0" (fun _ _ => true) (by decide +kernel)
  have hsafe := erasedSafely "f = <T>(x: A<B<T>>) => x ? \x60$\x7b[]\x7d\x60 : 0"
  have hrefused : eraseTypes "x;\n  enum E \x7b\x7d" = .error ⟨.enumeration, 2, 3⟩ := by
    decide +kernel
  exact ⟨⟨table, s, htable, hrun, hsafe.searches htable, hsafe.runs htable⟩, hrefused,
    (erasedSafely "x;\n  enum E \x7b\x7d").faults hrefused⟩

end Workflow.Script
