import Workflow.Proofs.Script.ExprPhrase
import Workflow.Proofs.Script.MarkedText
import Workflow.Proofs.Script.Statement
import Workflow.Proofs.Script.TypePhrase

/-!
# Statements with types as they are erased

Every declaration of variables, function, arrow function and assertion with types is erased to
the statement without them. The text is read as the marked tokens of a statement, a run marks
the tokens in this way, and what is kept of them is written.
-/

namespace Workflow.Script

open Erasure

variable {source erased : String} {stops : Char → Prop} {P : List (Token × Bool) → Prop}

/-- The tokens of a type with a colon in front. -/
def IsAnnotated (grouped : Bool) (ts : List Token) : Prop :=
  ∃ colon us, ts = colon :: us ∧ colon.IsMark ":" ∧ TypeTokens grouped us

theorem Ty.lexes_annotated (T : Ty) :
    Lexes (": " ++ T.text) Delimits (IsAnnotated T.endsGrouped) := by
  rw [show ": " ++ T.text = ":" ++ (" " ++ T.text) by
    rw [show ": " = ":" ++ " " from rfl, String.append_assoc]]
  refine (phrase_bracket ":" (by decide)).plain.join T.phrase.spaced (by simp) ?_
  rintro _ us ⟨colon, rfl, hcolon, -⟩ hus
  exact ⟨colon, us, rfl, hcolon, hus⟩

/-- The mark of an optional name, or of one that gets its value later, in front of a colon. -/
theorem phrase_mark (text : String) (h : text ∈ ["?", "!"]) :
    Phrase text (· = ':') (IsMarkToken text) := by
  have hlisted : ∀ text ∈ ["?", "!"], text.toList ∈ punctuators ∧ text.toList.head? ≠ some '/' ∧
      text ≠ "?." ∧ text ≠ "." ∧ ':' ∉ continuations text.toList := by
    decide
  obtain ⟨hmem, hslash, hquestion, hpoint, hcolon⟩ := hlisted text h
  refine (phrase_punctuator text hmem hslash hquestion).mono ?_ fun _ => id
  rintro c rfl
  exact ⟨hcolon, fun hdot => absurd hdot hpoint⟩

/-- The tokens of one of the parameters of a list. -/
def IsParameter (ms : List (Token × Bool)) : Prop :=
  ∀ ns, (∀ m ∈ ns.head?, m.1.IsMark ",") → ParameterMarks ns → ParameterMarks (ms ++ ns)

theorem Parameter.erases (p : Parameter) :
    ErasesPhrase p.source p.erased Delimits IsParameter := by
  have hname := (phrase_name p.name).keep
  have hunmarked : p.erased = p.name.text ++ "" := by rw [String.append_empty, Parameter.erased]
  cases hoptional : p.optional with
  | false =>
    rw [show p.source = p.name.text ++ (": " ++ p.type.text) by
      simp [Parameter.source, hoptional, String.append_assoc], hunmarked]
    refine hname.join p.type.lexes_annotated.remove (by simp [Delimits, delimiters]) ?_
    rintro _ _ ⟨_, rfl, name, rfl, hname⟩ ⟨_, rfl, colon, us, rfl, hcolon, hus⟩ ns hhead hns
    simpa [allKept] using ParameterMarks.required hname hcolon hus hhead hns
  | true =>
    rw [show p.source = p.name.text ++ ("?" ++ (": " ++ p.type.text)) by
      rw [Parameter.source, hoptional, if_pos rfl]
      simp only [String.append_assoc], hunmarked]
    have htyped : Lexes ("?" ++ (": " ++ p.type.text)) Delimits fun ts => ∃ question us,
        ts = question :: us ∧ question.IsMark "?" ∧ IsAnnotated p.type.endsGrouped us := by
      refine (phrase_mark "?" (by decide)).plain.join p.type.lexes_annotated (by simp) ?_
      rintro _ us ⟨question, rfl, hquestion, -⟩ hus
      exact ⟨question, us, rfl, hquestion, hus⟩
    refine hname.join htyped.remove (by simp [Delimits, delimiters]) ?_
    rintro _ _ ⟨_, rfl, name, rfl, hname⟩
      ⟨_, rfl, question, _, rfl, hquestion, colon, us, rfl, hcolon, hus⟩ ns hhead hns
    exact ParameterMarks.optional hname hquestion hcolon hus hhead hns

/-- Parameters up to the bracket that closes their list. -/
theorem erases_parameters (parameters : List Parameter) :
    Erases (", ".intercalate (parameters.map Parameter.source) ++ ")")
      (", ".intercalate (parameters.map Parameter.erased) ++ ")") (fun _ => True)
      (IsMarkedClosed ParameterMarks ")") := by
  cases parameters with
  | nil => exact erases_close ")" (by decide) .nil
  | cons p parameters =>
    have hrest := erases_following parameters ")" (by decide)
      (Q := fun ns => ParameterMarks ns ∧ ∀ m ∈ ns.head?, m.1.IsMark ",")
      (fun p _ => p.erases) ⟨.nil, by simp⟩ (by
        rintro t ms ns ht hms ⟨hns, hhead⟩
        exact ⟨.comma ht (hms ns hhead hns), by simpa using ht⟩)
    simp only [List.map_cons, intercalate_cons, String.append_assoc]
    refine p.erases.plain.join hrest (delimits_following "," ")" (by decide) (by decide)) ?_
    rintro ms _ hms ⟨inner, last, rfl, ⟨hinner, hhead⟩, hlast⟩
    exact ⟨ms ++ inner, last, by simp, hms inner hhead hinner, hlast⟩

theorem Variable.erases (v : Variable) :
    ErasesPhrase v.source v.erased Delimits VariableMarks := by
  have hvalue := lexes_operator "=" (by decide) v.value.takesMembers.phrase
  have htyped : Erases (": " ++ v.type.text ++ (" " ++ "=" ++ " " ++ v.value.text))
      ("" ++ (" " ++ "=" ++ " " ++ v.value.text)) Delimits fun ms => ∃ colon ts equals us grouped,
        ms = allRemoved (colon :: ts) ++ (equals, true) :: allKept us ∧ colon.IsMark ":" ∧
          TypeTokens grouped ts ∧ equals.IsMark "=" ∧ Inert .operand us := by
    refine v.type.lexes_annotated.remove.join hvalue.keep (by simp [Delimits, delimiters]) ?_
    rintro _ _ ⟨_, rfl, colon, ts, rfl, hcolon, hts⟩ ⟨_, rfl, equals, us, rfl, hequals, hus⟩
    exact ⟨colon, ts, equals, us, _, rfl, hcolon, hts, hequals, hus.inert⟩
  have hequals : " = " = " " ++ "=" ++ " " := rfl
  rw [show v.source = v.name.text ++ (": " ++ v.type.text ++ (" " ++ "=" ++ " " ++ v.value.text)) by
    simp only [Variable.source, hequals, String.append_assoc],
    show v.erased = v.name.text ++ ("" ++ (" " ++ "=" ++ " " ++ v.value.text)) by
      simp only [Variable.erased, hequals, String.append_assoc, String.empty_append]]
  refine (phrase_name v.name).keep.join htyped (by simp [Delimits, delimiters]) ?_
  rintro _ _ ⟨_, rfl, name, rfl, hname⟩ ⟨colon, ts, equals, us, grouped, rfl, hcolon, hts, hequals,
    hus⟩
  exact .mk hname hcolon hts hequals hus

/-- The tokens of what may stand behind a variable. -/
def ContinuesVariables (ns : List (Token × Bool)) : Prop :=
  ns = [] ∨ ∃ comma vs, ns = (comma, true) :: vs ∧ comma.IsMark "," ∧ VariablesMarks vs

/-- Variables up to the semicolon behind them. -/
theorem erases_variables (first : Variable) (others : List Variable) :
    Erases (" " ++ ", ".intercalate ((first :: others).map Variable.source) ++ ";")
      (" " ++ ", ".intercalate ((first :: others).map Variable.erased) ++ ";") (fun _ => True)
      (IsMarkedClosed VariablesMarks ";") := by
  have happend : ∀ ms ns, VariableMarks ms → ContinuesVariables ns → VariablesMarks (ms ++ ns) := by
    rintro ms ns hms (rfl | ⟨comma, vs, rfl, hcomma, hvs⟩)
    · simpa using VariablesMarks.last hms
    · exact .cons hms hcomma hvs
  have hrest := erases_following others ";" (by decide) (Q := ContinuesVariables)
    (fun v _ => v.erases) (.inl rfl)
    fun t ms ns ht hms hns => .inr ⟨t, ms ++ ns, rfl, ht, happend ms ns hms hns⟩
  have hsplit : ∀ f : Variable → String, " " ++ ", ".intercalate ((first :: others).map f) ++ ";" =
      " " ++ f first ++ (following ", " (others.map f) ++ ";") := by
    intro f
    rw [List.map_cons, intercalate_cons]
    simp only [String.append_assoc]
  rw [hsplit, hsplit]
  refine first.erases.spaced.join hrest (delimits_following "," ";" (by decide) (by decide)) ?_
  rintro ms _ hms ⟨inner, last, rfl, hinner, hlast⟩
  exact ⟨ms ++ inner, last, by simp, happend ms inner hms hinner, hlast⟩

/-- A value up to the semicolon behind it. -/
theorem phrase_value (e : Expr) : Phrase (e.text ++ ";") (fun _ => True) fun ts =>
    ∃ us semicolon, ts = us ++ [semicolon] ∧ Inert .operand us ∧ semicolon.IsMark ";" := by
  refine e.takesMembers.phrase.join (phrase_bracket ";" (by decide)).plain
    (by simp [Delimits, delimiters]) ?_
  rintro us _ hus ⟨semicolon, rfl, hsemicolon, -⟩
  exact ⟨us, semicolon, rfl, hus.inert, hsemicolon⟩

/-- The tokens of `function`, a name and a bracket. -/
def IsFunctionHeading (ts : List Token) : Prop :=
  ∃ word name first, ts = [word, name, first] ∧ word.IsWord "function" ∧ name.IsName ∧
    first.IsMark "("

theorem lexes_function_heading (name : PlainName) :
    Lexes ("function" ++ (" " ++ name.text ++ "(")) (fun _ => True) IsFunctionHeading := by
  have hnamed : Lexes (" " ++ name.text ++ "(") (fun _ => True) fun ts =>
      ∃ name first, ts = [name, first] ∧ name.IsName ∧ first.IsMark "(" := by
    refine (phrase_name name).spaced.join (phrase_bracket "(" (by decide)).plain
      (by simp [Delimits, delimiters]) ?_
    rintro _ _ ⟨name, rfl, hname⟩ ⟨first, rfl, hfirst, -⟩
    exact ⟨name, first, rfl, hname, hfirst⟩
  refine (phrase_word "function" (by decide)).plain.join hnamed (by simp) ?_
  rintro _ _ ⟨word, rfl, hword⟩ ⟨name, first, rfl, hname, hfirst⟩
  exact ⟨word, name, first, rfl, hword, hname, hfirst⟩

/-- The tokens of `const`, a name, an equals sign and a bracket. -/
def IsConstHeading (ts : List Token) : Prop :=
  ∃ word name equals first, ts = [word, name, equals, first] ∧ word.IsWord "const" ∧ name.IsName ∧
    equals.IsMark "=" ∧ first.IsMark "("

theorem lexes_const_heading (name : PlainName) :
    Lexes ("const" ++ (" " ++ name.text ++ (" " ++ "=" ++ " " ++ "("))) (fun _ => True)
      IsConstHeading := by
  have hequals := lexes_operator "=" (by decide) (phrase_bracket "(" (by decide))
  have hnamed : Lexes (" " ++ name.text ++ (" " ++ "=" ++ " " ++ "(")) (fun _ => True) fun ts =>
      ∃ name equals first, ts = [name, equals, first] ∧ name.IsName ∧ equals.IsMark "=" ∧
        first.IsMark "(" := by
    refine (phrase_name name).spaced.join hequals (by simp [Delimits, delimiters]) ?_
    rintro _ _ ⟨name, rfl, hname⟩ ⟨equals, _, rfl, hequals, first, rfl, hfirst, -⟩
    exact ⟨name, equals, first, rfl, hname, hequals, hfirst⟩
  refine (phrase_word "const" (by decide)).plain.join hnamed (by simp) ?_
  rintro _ _ ⟨word, rfl, hword⟩ ⟨name, equals, first, rfl, hname, hequals, hfirst⟩
  exact ⟨word, name, equals, first, rfl, hword, hname, hequals, hfirst⟩

/-- The tokens of a body that returns a value. -/
def IsBody (ts : List Token) : Prop :=
  ∃ block result us semicolon close, ts = block :: result :: (us ++ [semicolon, close]) ∧
    block.IsMark "\x7b" ∧ result.IsWord "return" ∧ Inert .operand us ∧ semicolon.IsMark ";" ∧
    close.IsMark "\x7d"

def bodyText (e : Expr) : String :=
  " " ++ "\x7b" ++ (" " ++ "return" ++ (" " ++ (e.text ++ ";") ++ (" " ++ "\x7d")))

theorem lexes_body (e : Expr) : Lexes (bodyText e) (fun _ => True) IsBody := by
  have hended : Lexes (" " ++ (e.text ++ ";") ++ (" " ++ "\x7d")) (fun _ => True) fun ts =>
      ∃ us semicolon close, ts = us ++ [semicolon, close] ∧ Inert .operand us ∧
        semicolon.IsMark ";" ∧ close.IsMark "\x7d" := by
    refine (phrase_value e).spaced.join (phrase_bracket "\x7d" (by decide)).spaced (by simp) ?_
    rintro _ _ ⟨us, semicolon, rfl, hus, hsemicolon⟩ ⟨close, rfl, hclose, -⟩
    exact ⟨us, semicolon, close, by simp, hus, hsemicolon, hclose⟩
  have hreturned : Lexes (" " ++ "return" ++ (" " ++ (e.text ++ ";") ++ (" " ++ "\x7d")))
      (fun _ => True) fun ts => ∃ result us semicolon close,
        ts = result :: (us ++ [semicolon, close]) ∧ result.IsWord "return" ∧ Inert .operand us ∧
          semicolon.IsMark ";" ∧ close.IsMark "\x7d" := by
    refine (phrase_word "return" (by decide)).spaced.join hended (by simp) ?_
    rintro _ _ ⟨result, rfl, hresult⟩ ⟨us, semicolon, close, rfl, hus, hsemicolon, hclose⟩
    exact ⟨result, us, semicolon, close, rfl, hresult, hus, hsemicolon, hclose⟩
  refine (phrase_bracket "\x7b" (by decide)).spaced.join hreturned (by simp) ?_
  rintro _ _ ⟨block, rfl, hblock, -⟩ ⟨result, us, semicolon, close, rfl, hresult, hus, hrest⟩
  exact ⟨block, result, us, semicolon, close, rfl, hblock, hresult, hus, hrest⟩

/-- The tokens of parameters and of a result type, and what stands behind it. -/
def IsSignature (grouped : Bool) (S : List Token → Prop) (ms : List (Token × Bool)) : Prop :=
  ∃ inner last colon ts us,
    ms = inner ++ (last, true) :: (allRemoved (colon :: ts) ++ allKept us) ∧ ParameterMarks inner ∧
      last.IsMark ")" ∧ colon.IsMark ":" ∧ TypeTokens grouped ts ∧ S us

theorem erases_signature (parameters : List Parameter) (result : Ty) {tail : String}
    {S : List Token → Prop} (htail : Lexes tail (fun _ => True) S)
    (hhead : ∀ c ∈ tail.toList.head?, Delimits c) :
    Erases (", ".intercalate (parameters.map Parameter.source) ++ ")" ++
        (": " ++ result.text ++ tail))
      (", ".intercalate (parameters.map Parameter.erased) ++ ")" ++ ("" ++ tail)) (fun _ => True)
      (IsSignature result.endsGrouped S) := by
  have htyped : Erases (": " ++ result.text ++ tail) ("" ++ tail) (fun _ => True)
      fun ms => ∃ ts us, ms = allRemoved ts ++ allKept us ∧ IsAnnotated result.endsGrouped ts ∧
        S us := by
    refine result.lexes_annotated.remove.join htail.keep hhead ?_
    rintro _ _ ⟨ts, rfl, hts⟩ ⟨us, rfl, hus⟩
    exact ⟨ts, us, rfl, hts, hus⟩
  refine (erases_parameters parameters).join htyped (by simp) ?_
  rintro _ _ ⟨inner, last, rfl, hinner, hlast⟩ ⟨_, us, rfl, ⟨colon, ts, rfl, hcolon, hts⟩, hus⟩
  exact ⟨inner, last, colon, ts, us, by simp, hinner, hlast, hcolon, hts, hus⟩

/-- The tokens of a value with its assertion, and what stands behind it. -/
def IsAsserted (ms : List (Token × Bool)) : Prop :=
  ∃ us word ts last semicolon grouped,
    ms = allKept us ++ (allRemoved (word :: ts) ++ [(last, true), (semicolon, true)]) ∧
      Inert .operand us ∧ (∃ v ∈ us.getLast?, v.EndsOperand) ∧ word.IsWord "as" ∧
      TypeTokens grouped ts ∧ last.IsMark ")" ∧ semicolon.IsMark ";"

theorem erases_asserted (value : Expr) (type : Ty) :
    Erases (value.text ++ (" " ++ "as" ++ (" " ++ type.text) ++ (")" ++ ";")))
      (value.text ++ ("" ++ (")" ++ ";"))) (fun _ => True) IsAsserted := by
  have hclose : Lexes (")" ++ ";") (fun _ => True) fun ts =>
      ∃ last semicolon, ts = [last, semicolon] ∧ last.IsMark ")" ∧ semicolon.IsMark ";" := by
    refine (phrase_bracket ")" (by decide)).plain.join (phrase_bracket ";" (by decide)).plain
      (by simp) ?_
    rintro _ _ ⟨last, rfl, hlast, -⟩ ⟨semicolon, rfl, hsemicolon, -⟩
    exact ⟨last, semicolon, rfl, hlast, hsemicolon⟩
  have hasserted : Lexes (" " ++ "as" ++ (" " ++ type.text)) Delimits fun ts =>
      ∃ word us, ts = word :: us ∧ word.IsWord "as" ∧ TypeTokens type.endsGrouped us := by
    refine (phrase_word "as" (by decide)).spaced.join type.phrase.spaced (by simp) ?_
    rintro _ us ⟨word, rfl, hword⟩ hus
    exact ⟨word, us, rfl, hword, hus⟩
  have hrest : Erases (" " ++ "as" ++ (" " ++ type.text) ++ (")" ++ ";")) ("" ++ (")" ++ ";"))
      (fun _ => True) fun ms => ∃ word us last semicolon,
        ms = allRemoved (word :: us) ++ [(last, true), (semicolon, true)] ∧ word.IsWord "as" ∧
          TypeTokens type.endsGrouped us ∧ last.IsMark ")" ∧ semicolon.IsMark ";" := by
    refine hasserted.remove.join hclose.keep (by simp [Delimits, delimiters]) ?_
    rintro _ _ ⟨_, rfl, word, us, rfl, hword, hus⟩ ⟨_, rfl, last, semicolon, rfl, hlast, hsemicolon⟩
    exact ⟨word, us, last, semicolon, rfl, hword, hus, hlast, hsemicolon⟩
  refine value.takesMembers.phrase.plain.keep.join hrest (by simp [Delimits, delimiters]) ?_
  rintro _ _ ⟨us, rfl, hus⟩ ⟨word, ts, last, semicolon, rfl, hword, hts, hlast, hsemicolon⟩
  exact ⟨us, word, ts, last, semicolon, _, rfl, hus.inert, hus.last, hword, hts, hlast, hsemicolon⟩

namespace TypedStatement

theorem erases_binding (first : Variable) (others : List Variable) :
    Erases (TypedStatement.source (.binding first others))
      (TypedStatement.erased (.binding first others)) (fun _ => True) StatementMarks := by
  have hword := (phrase_word "let" (by decide)).plain.keep
  have hsplit : ∀ f : Variable → String,
      "let " ++ ", ".intercalate ((first :: others).map f) ++ ";" =
        "let" ++ (" " ++ ", ".intercalate ((first :: others).map f) ++ ";") := by
    intro f
    rw [show "let " = "let" ++ " " from rfl]
    simp only [String.append_assoc]
  rw [source, erased, hsplit, hsplit]
  refine hword.join (erases_variables first others) (by simp) ?_
  rintro _ _ ⟨_, rfl, word, rfl, hword⟩ ⟨inner, last, rfl, hinner, hlast⟩
  exact .binding hword hinner hlast

/-- A function is a heading, a signature and a body, one behind the other. -/
theorem erases_function (name : PlainName) (parameters : List Parameter) (result : Ty)
    (value : Expr) :
    Erases (TypedStatement.source (.function name parameters result value))
      (TypedStatement.erased (.function name parameters result value)) (fun _ => True) StatementMarks := by
  have hword : "function " = "function" ++ " " := rfl
  have hreturn : " \x7b return " = " " ++ "\x7b" ++ (" " ++ "return" ++ " ") := rfl
  have hend : "; \x7d" = ";" ++ (" " ++ "\x7d") := rfl
  have hsignature := erases_signature parameters result (lexes_body value)
    (by simp [bodyText, Delimits, delimiters])
  rw [show TypedStatement.source (.function name parameters result value) =
    "function" ++ (" " ++ name.text ++ "(") ++
      (", ".intercalate (parameters.map Parameter.source) ++ ")" ++
        (": " ++ result.text ++ bodyText value)) by
      simp only [source, parameterList, bodyText, hword, hreturn, hend, String.append_assoc],
    show TypedStatement.erased (.function name parameters result value) =
      "function" ++ (" " ++ name.text ++ "(") ++
        (", ".intercalate (parameters.map Parameter.erased) ++ ")" ++ ("" ++ bodyText value)) by
      simp only [erased, parameterList, bodyText, hword, hreturn, hend, String.append_assoc,
        String.empty_append]]
  refine (lexes_function_heading name).keep.join hsignature (by simp) ?_
  rintro _ _ ⟨_, rfl, word, name, first, rfl, hword, hname, hfirst⟩
    ⟨inner, last, colon, ts, _, rfl, hinner, hlast, hcolon, hts, block, result, us, semicolon,
      close, rfl, hblock, hresult, hus, hsemicolon, hclose⟩
  have hmarks :=
    StatementMarks.function hword hname hfirst hinner hlast hcolon hts hblock hresult hus
      hsemicolon hclose
  simpa [allKept] using hmarks

/-- An arrow function is a heading, a signature and a value, one behind the other. The result type
does not end with a type in parentheses, which the arrow would belong to. -/
theorem erases_arrow (name : PlainName) (parameters : List Parameter) (result : Ty) (value : Expr)
    (ungrouped : result.endsGrouped = false) :
    Erases (TypedStatement.source (.arrow name parameters result value ungrouped))
      (TypedStatement.erased (.arrow name parameters result value ungrouped)) (fun _ => True)
      StatementMarks := by
  have hconst : "const " = "const" ++ " " := rfl
  have harrow : " => " = " " ++ "=>" ++ " " := rfl
  have hequals : " = " = " " ++ "=" ++ " " := rfl
  have hsignature := erases_signature parameters result
    (lexes_operator "=>" (by decide) (phrase_value value)) (by simp [Delimits, delimiters])
  rw [show TypedStatement.source (.arrow name parameters result value ungrouped) =
    "const" ++ (" " ++ name.text ++ (" " ++ "=" ++ " " ++ "(")) ++
      (", ".intercalate (parameters.map Parameter.source) ++ ")" ++
        (": " ++ result.text ++ (" " ++ "=>" ++ " " ++ (value.text ++ ";")))) by
      simp only [source, parameterList, hconst, hequals, harrow, String.append_assoc],
    show TypedStatement.erased (.arrow name parameters result value ungrouped) =
      "const" ++ (" " ++ name.text ++ (" " ++ "=" ++ " " ++ "(")) ++
        (", ".intercalate (parameters.map Parameter.erased) ++ ")" ++
          ("" ++ (" " ++ "=>" ++ " " ++ (value.text ++ ";")))) by
      simp only [erased, parameterList, hconst, hequals, harrow, String.append_assoc,
        String.empty_append]]
  refine (lexes_const_heading name).keep.join hsignature (by simp) ?_
  rintro _ _ ⟨_, rfl, word, name, equals, first, rfl, hword, hname, hequals, hfirst⟩
    ⟨inner, last, colon, ts, _, rfl, hinner, hlast, hcolon, hts, arrow, _, rfl, harrow, us,
      semicolon, rfl, hus, hsemicolon⟩
  rw [ungrouped] at hts
  have hmarks :=
    StatementMarks.arrow hword hname hequals hfirst hinner hlast hcolon hts harrow hus
      hsemicolon
  simpa [allKept] using hmarks

theorem erases_assertion (name : PlainName) (value : Expr) (type : Ty) :
    Erases (TypedStatement.source (.assertion name value type))
      (TypedStatement.erased (.assertion name value type)) (fun _ => True) StatementMarks := by
  have hconst : "const " = "const" ++ " " := rfl
  have hequals : " = (" = " " ++ "=" ++ " " ++ "(" := rfl
  have has : " as " = " " ++ "as" ++ " " := rfl
  have hend : ");" = ")" ++ ";" := rfl
  rw [show TypedStatement.source (.assertion name value type) =
    "const" ++ (" " ++ name.text ++ (" " ++ "=" ++ " " ++ "(")) ++
      (value.text ++ (" " ++ "as" ++ (" " ++ type.text) ++ (")" ++ ";"))) by
      simp only [source, hconst, hequals, has, hend, String.append_assoc],
    show TypedStatement.erased (.assertion name value type) =
      "const" ++ (" " ++ name.text ++ (" " ++ "=" ++ " " ++ "(")) ++
        (value.text ++ ("" ++ (")" ++ ";"))) by
      simp only [erased, hconst, hequals, hend, String.append_assoc, String.empty_append]]
  refine (lexes_const_heading name).keep.join (erases_asserted value type) (by simp) ?_
  rintro _ _ ⟨_, rfl, word, name, equals, first, rfl, hword, hname, hequals, hfirst⟩
    ⟨us, word', ts, last, semicolon, grouped, rfl, hus, hends, hword', hts, hlast, hsemicolon⟩
  exact .assertion hword hname hequals hfirst hus hends hword' hts hlast hsemicolon

/-- Every statement is read as marked tokens of which the kept ones are written as the statement
without types. -/
theorem erases (d : TypedStatement) : Erases d.source d.erased (fun _ => True) StatementMarks := by
  cases d with
  | binding first others => exact erases_binding first others
  | function name parameters result value => exact erases_function name parameters result value
  | arrow name parameters result value ungrouped =>
    exact erases_arrow name parameters result value ungrouped
  | assertion name value type => exact erases_assertion name value type

end TypedStatement

/-- A statement begins with a word. -/
theorem starts_no_mark {word : String} (hword : word ∈ ["let ", "function ", "const ", "class "])
    (text : String) : ¬ ['#', '!'] <+: (word ++ text).toList := by
  rw [String.toList_append]
  simp only [List.mem_cons, List.not_mem_nil, or_false] at hword
  rcases hword with rfl | rfl | rfl | rfl <;>
    exact fun h => by cases (List.cons_prefix_cons.mp h).1

theorem TypedStatement.starts_no_mark (d : TypedStatement) : ¬ ['#', '!'] <+: d.source.toList := by
  cases d
  all_goals
    simp only [source, String.append_assoc]
    exact Script.starts_no_mark (by decide) _

/-- A statement with types is erased to the statement without annotations, optional marks, result
type and assertion. -/
theorem eraseTypes_typedStatement (d : TypedStatement) : eraseTypes d.source = .ok d.erased := by
  obtain ⟨table, s, -, -, htable, hrun, -, -, -, hemit⟩ := d.erases.exists_run d.starts_no_mark
    (fun _ hms => hms.balanced) fun _ _ _ htable hms hlast => ⟨_, _, hms.leads htable hlast⟩
  simp only [eraseTypes, htable, hrun, hemit]

end Workflow.Script
