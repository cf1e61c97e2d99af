import Workflow.Proofs.Script.UntypedStatement

/-!
# Constants and what their values are erased to

A constant is erased to the constant with the erased value, whatever the value is made of, if it
is read as marked tokens and a run gives it these marks.
-/

namespace Workflow.Script

open Erasure

/-- A constant with the value that is written as the text. -/
def constantText (x : PlainName) (value : String) : String :=
  "const " ++ x.text ++ " = " ++ value ++ ";"

/-- A run marks the tokens of a value in the given way. -/
def MarksValue (table : TokenTable) (ms : List (Token × Bool)) : Prop :=
  ∀ ⦃done : List (Token × Bool)⦄ ⦃semicolon : Token⦄ ⦃behind : List Token⦄,
    Calm (recent done) → Unpointed done → semicolon.IsMark ";" →
    Leads table ⟨done, ms.map Prod.fst ++ semicolon :: behind, topFrame (some .initializer), []⟩
      ⟨ms.reverse ++ done, semicolon :: behind, topFrame (some .initializer), []⟩

/-- The marks of a constant with a value that is marked in the given way. -/
inductive ConstantMarks (P : List (Token × Bool) → Prop) : List (Token × Bool) → Prop
  | mk {word name equals semicolon : Token} {ms : List (Token × Bool)} : word.IsWord "const" →
      name.IsName → equals.IsMark "=" → P ms → semicolon.IsMark ";" →
      ConstantMarks P
        ((word, true) :: (name, true) :: (equals, true) :: (ms ++ [(semicolon, true)]))

variable {table : TokenTable} {ms : List (Token × Bool)} {P : List (Token × Bool) → Prop}
  {last : Token} {value erased : String}

namespace ConstantMarks

theorem balanced (h : ConstantMarks P ms) (hvalue : ∀ ms, P ms → Balanced (ms.map Prod.fst)) :
    Balanced (ms.map Prod.fst) := by
  obtain ⟨hword, hname, hequals, hms, hsemicolon⟩ := h
  have hend := (hvalue _ hms).append (.of_mark hsemicolon (by decide) .nil)
  simpa using Balanced.of_word hword (by decide)
    (.of_name hname (.of_mark hequals (by decide) hend))

/-- A run marks a constant if it marks its value. -/
theorem leads (h : ConstantMarks P ms) (hvalue : ∀ ms, P ms → MarksValue table ms) :
    Leads table ⟨[], ms.map Prod.fst ++ [last], topFrame none, []⟩
      ⟨ms.reverse, [last], topFrame none, []⟩ := by
  obtain ⟨hword, hname, hequals, hms, hsemicolon⟩ := h
  rename_i word name equals semicolon ms
  have hheading : Leads table ⟨[], word :: name :: equals ::
      (ms.map Prod.fst ++ semicolon :: [last]), topFrame none, []⟩ _ :=
    leads_initializer (by simp) hword hname hequals unpointed_nil
  have hmarked := hheading.trans (hvalue ms hms (calm_initializer hword hname hequals calm_nil)
    (.of_is hequals.is (by decide)) hsemicolon)
  have hend : Leads table _ ⟨(semicolon, true) :: _, [last], topFrame none, []⟩ :=
    hmarked.trans (leads_semicolon (by simp) hsemicolon)
  simpa using hend

end ConstantMarks

/-- The beginning of a constant. -/
theorem lexes_constant (x : PlainName) : Lexes ("const " ++ x.text ++ " =") (· = ' ') fun ts =>
    ∃ word name equals, ts = [word, name, equals] ∧ word.IsWord "const" ∧ name.IsName ∧
      equals.IsMark "=" := by
  have hnamed : Lexes (" " ++ x.text ++ (" " ++ "=")) (· = ' ') fun ts => ∃ name equals,
      ts = [name, equals] ∧ name.IsName ∧ equals.IsMark "=" := by
    refine (phrase_name x).spaced.join (phrase_operator "=" (by decide)).spaced
      (by simp [Delimits, delimiters]) ?_
    rintro _ _ ⟨name, rfl, hname⟩ ⟨equals, rfl, hequals, -⟩
    exact ⟨name, equals, rfl, hname, hequals⟩
  have hconst : "const " = "const" ++ " " := rfl
  have hequals : " =" = " " ++ "=" := rfl
  rw [show "const " ++ x.text ++ " =" = "const" ++ (" " ++ x.text ++ (" " ++ "=")) by
    simp only [hconst, hequals, String.append_assoc]]
  refine (phrase_word "const" (by decide)).plain.join hnamed (by simp) ?_
  rintro _ _ ⟨word, rfl, hword⟩ ⟨name, equals, rfl, hname, hequals⟩
  exact ⟨word, name, equals, rfl, hword, hname, hequals⟩

theorem constantText_eq (x : PlainName) (value : String) :
    constantText x value = "const " ++ x.text ++ " =" ++ (" " ++ value ++ ";") := by
  rw [constantText, show " = " = " =" ++ " " from rfl]
  simp only [String.append_assoc]

/-- A constant is read as its marks if its value is. -/
theorem erases_constantText (x : PlainName) (h : ErasesPhrase value erased Delimits P) :
    Erases (constantText x value) (constantText x erased) (fun _ => True) (ConstantMarks P) := by
  have hvalue : Erases (" " ++ value ++ ";") (" " ++ erased ++ ";") (fun _ => True) fun ms =>
      ∃ vs semicolon, ms = vs ++ [(semicolon, true)] ∧ P vs ∧ semicolon.IsMark ";" := by
    refine h.spaced.join (phrase_bracket ";" (by decide)).plain.keep
      (by simp [Delimits, delimiters]) ?_
    rintro vs _ hvs ⟨_, rfl, semicolon, rfl, hsemicolon, -⟩
    exact ⟨vs, semicolon, rfl, hvs, hsemicolon⟩
  rw [constantText_eq, constantText_eq]
  refine (lexes_constant x).keep.join hvalue (by simp) ?_
  rintro _ _ ⟨_, rfl, word, name, equals, rfl, hword, hname, hequals⟩
    ⟨vs, semicolon, rfl, hvs, hsemicolon⟩
  exact .mk hword hname hequals hvs hsemicolon

theorem constantText_starts_no_mark (x : PlainName) (value : String) :
    ¬ ['#', '!'] <+: (constantText x value).toList := by
  simp only [constantText, String.append_assoc]
  exact starts_no_mark (by decide) _

/-- A constant is erased to the constant with the erased value. -/
theorem eraseTypes_constantText (x : PlainName) (h : ErasesPhrase value erased Delimits P)
    (hbalanced : ∀ ms, P ms → Balanced (ms.map Prod.fst))
    (hmarks : ∀ table ms, tokenize (constantText x value) = .ok table → P ms →
      MarksValue table ms) :
    eraseTypes (constantText x value) = .ok (constantText x erased) := by
  obtain ⟨table, s, -, -, htable, hrun, -, -, -, hemit⟩ := (erases_constantText x h).exists_run
    (constantText_starts_no_mark x value) (fun _ hms => hms.balanced hbalanced)
    fun table _ _ htable hms _ => ⟨_, _, hms.leads fun ms => hmarks table ms htable⟩
  simp only [eraseTypes, htable, hrun, hemit]

end Workflow.Script
