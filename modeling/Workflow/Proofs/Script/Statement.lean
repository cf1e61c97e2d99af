import Workflow.Proofs.Script.Stage

/-!
# Statements with types

The tokens of parameters, of variables and of statements with types, each with whether erasure
keeps it. A run that comes to such tokens marks them in this way.
-/

namespace Workflow.Script

open Erasure

/-- The tokens of parameters with commas between them. -/
inductive ParameterMarks : List (Token × Bool) → Prop
  | nil : ParameterMarks []
  | comma {t : Token} {ms : List (Token × Bool)} : t.IsMark "," → ParameterMarks ms →
      ParameterMarks ((t, true) :: ms)
  | required {name colon : Token} {ts : List Token} {grouped : Bool} {ms : List (Token × Bool)} :
      name.IsName → colon.IsMark ":" → TypeTokens grouped ts →
      (∀ m ∈ ms.head?, m.1.IsMark ",") → ParameterMarks ms →
      ParameterMarks ((name, true) :: (allRemoved (colon :: ts) ++ ms))
  | optional {name question colon : Token} {ts : List Token} {grouped : Bool}
      {ms : List (Token × Bool)} :
      name.IsName → question.IsMark "?" → colon.IsMark ":" → TypeTokens grouped ts →
      (∀ m ∈ ms.head?, m.1.IsMark ",") → ParameterMarks ms →
      ParameterMarks ((name, true) :: (question, false) :: (allRemoved (colon :: ts) ++ ms))

/-- The tokens of a variable with its type and its initial value. -/
inductive VariableMarks : List (Token × Bool) → Prop
  | mk {name colon equals : Token} {ts us : List Token} {grouped : Bool} :
      name.IsName → colon.IsMark ":" → TypeTokens grouped ts → equals.IsMark "=" →
      Inert .operand us →
      VariableMarks ((name, true) :: (allRemoved (colon :: ts) ++ (equals, true) :: allKept us))

/-- The tokens of variables with commas between them. -/
inductive VariablesMarks : List (Token × Bool) → Prop
  | last {ms : List (Token × Bool)} : VariableMarks ms → VariablesMarks ms
  | cons {ms ns : List (Token × Bool)} {comma : Token} : VariableMarks ms → comma.IsMark "," →
      VariablesMarks ns → VariablesMarks (ms ++ (comma, true) :: ns)

/-- The tokens of a statement. -/
inductive StatementMarks : List (Token × Bool) → Prop
  | binding {word semicolon : Token} {ms : List (Token × Bool)} : word.IsWord "let" →
      VariablesMarks ms → semicolon.IsMark ";" →
      StatementMarks ((word, true) :: (ms ++ [(semicolon, true)]))
  | function {word name first last colon block result semicolon close : Token}
      {ms : List (Token × Bool)} {ts us : List Token} {grouped : Bool} :
      word.IsWord "function" → name.IsName → first.IsMark "(" → ParameterMarks ms →
      last.IsMark ")" → colon.IsMark ":" → TypeTokens grouped ts → block.IsMark "\x7b" →
      result.IsWord "return" → Inert .operand us → semicolon.IsMark ";" → close.IsMark "\x7d" →
      StatementMarks ((word, true) :: (name, true) :: (first, true) :: (ms ++ (last, true) ::
        (allRemoved (colon :: ts) ++ (block, true) :: (result, true) ::
          (allKept us ++ [(semicolon, true), (close, true)]))))
  | arrow {word name equals first last colon arrow semicolon : Token} {ms : List (Token × Bool)}
      {ts us : List Token} :
      word.IsWord "const" → name.IsName → equals.IsMark "=" → first.IsMark "(" →
      ParameterMarks ms → last.IsMark ")" → colon.IsMark ":" → TypeTokens false ts →
      arrow.IsMark "=>" → Inert .operand us → semicolon.IsMark ";" →
      StatementMarks ((word, true) :: (name, true) :: (equals, true) :: (first, true) ::
        (ms ++ (last, true) :: (allRemoved (colon :: ts) ++ (arrow, true) ::
          (allKept us ++ [(semicolon, true)]))))
  | assertion {word name equals first last word' semicolon : Token} {ts us : List Token}
      {grouped : Bool} :
      word.IsWord "const" → name.IsName → equals.IsMark "=" → first.IsMark "(" →
      Inert .operand us → (∃ v ∈ us.getLast?, v.EndsOperand) → word'.IsWord "as" →
      TypeTokens grouped ts → last.IsMark ")" → semicolon.IsMark ";" →
      StatementMarks ((word, true) :: (name, true) :: (equals, true) :: (first, true) ::
        (allKept us ++ (allRemoved (word' :: ts) ++ [(last, true), (semicolon, true)])))

variable {source : String} {table : TokenTable} {ms done : List (Token × Bool)} {next : Token}
  {behind : List Token} {outer : List Frame}

namespace ParameterMarks

/-- The tokens of parameters are balanced. -/
theorem balanced (h : ParameterMarks ms) : Balanced (ms.map Prod.fst) := by
  induction h with
  | nil => exact .nil
  | comma ht _ ih => exact .of_mark ht (by decide) ih
  | required hname hcolon hts _ _ ih =>
    have htyped := Balanced.of_mark hcolon (by decide) (hts.enclosed.balanced.append ih)
    simpa using Balanced.of_name hname htyped
  | optional hname hquestion hcolon hts _ _ ih =>
    have htyped := Balanced.of_mark hcolon (by decide) (hts.enclosed.balanced.append ih)
    have hmarked := Balanced.of_mark hquestion (by decide) htyped
    simpa using Balanced.of_name hname hmarked

/-- No kept token of parameters gives a bracket a meaning. -/
theorem isCalm (h : ParameterMarks ms) : ∀ m ∈ ms, m.2 = true → IsCalm m.1 := by
  induction h with
  | nil => simp
  | comma ht _ ih =>
    exact List.forall_mem_cons.mpr ⟨fun _ => isCalm_of_is ht.is (by decide), ih⟩
  | required hname _ _ _ _ ih =>
    simp only [List.forall_mem_cons, List.forall_mem_append]
    exact ⟨fun _ => isCalm_of_isName hname, isCalm_allRemoved, ih⟩
  | optional hname _ _ _ _ _ ih =>
    simp only [List.forall_mem_cons, List.forall_mem_append]
    exact ⟨fun _ => isCalm_of_isName hname, by simp, isCalm_allRemoved, ih⟩

/-- The type of a parameter is followed by a comma or by the closing bracket. -/
theorem exists_endsType (hcomma : ∀ m ∈ ms.head?, m.1.IsMark ",") (hnext : next.IsMark ")")
    (grouped : Bool) (behind : List Token) :
    ∃ u rest, ms.map Prod.fst ++ next :: behind = u :: rest ∧ u.EndsType grouped := by
  cases ms with
  | nil => exact ⟨next, behind, rfl, hnext.endsType (by decide) (by simp)⟩
  | cons m ms => exact ⟨_, _, rfl, (hcomma m rfl).endsType (by decide) (by simp)⟩

/-- A run keeps the names and the commas of parameters. -/
theorem leads (h : ParameterMarks ms) (htable : tokenize source = .ok table)
    (hnext : next.IsMark ")") (hbefore : Unpointed done) :
    Leads table ⟨done, ms.map Prod.fst ++ next :: behind, .fresh .parameters, outer⟩
      ⟨ms.reverse ++ done, next :: behind, .fresh .parameters, outer⟩ := by
  induction h generalizing done with
  | nil => exact .refl _
  | @comma t ms ht _ ih =>
    have hcomma : Leads table
        ⟨done, t :: (ms.map Prod.fst ++ next :: behind), .fresh .parameters, outer⟩
        ⟨(t, true) :: done, ms.map Prod.fst ++ next :: behind, .fresh .parameters, outer⟩ :=
      leads_comma (by simp) ht
    have hbehind : Unpointed ((t, true) :: done) := .of_is ht.is (by decide)
    simpa using hcomma.trans (ih hbehind)
  | @required name colon ts grouped ms hname hcolon hts hcomma _ ih =>
    obtain ⟨u, rest, hrest, hu⟩ := exists_endsType hcomma hnext grouped behind
    have hkept : Leads table ⟨done, name :: colon :: (ts ++ u :: rest), .fresh .parameters, outer⟩
        ⟨(name, true) :: done, colon :: (ts ++ u :: rest), .fresh .parameters, outer⟩ :=
      leads_name (by simp) hname (by decide) hbefore
    have htype := hkept.trans (leads_type htable hcolon hts rfl (.inl rfl) hu)
    have hbehind : Unpointed ((allRemoved (colon :: ts)).reverse ++ (name, true) :: done) :=
      .of_recent (.of_isName hname) recent_allRemoved
    rw [← hrest] at htype
    simpa using htype.trans (ih hbehind)
  | @optional name question colon ts grouped ms hname hquestion hcolon hts hcomma _ ih =>
    obtain ⟨u, rest, hrest, hu⟩ := exists_endsType hcomma hnext grouped behind
    have hkept : Leads table
        ⟨done, name :: question :: colon :: (ts ++ u :: rest), .fresh .parameters, outer⟩
        ⟨(name, true) :: done, question :: colon :: (ts ++ u :: rest), .fresh .parameters, outer⟩ :=
      leads_name (by simp) hname (by decide) hbefore
    have hmark := hkept.trans (leads_optional hquestion hcolon rfl ⟨name, rfl, hname.1⟩)
    have htype := hmark.trans (leads_type htable hcolon hts rfl (.inl rfl) hu)
    have hbehind : Unpointed
        ((allRemoved (colon :: ts)).reverse ++ (question, false) :: (name, true) :: done) :=
      .of_recent (.of_isName hname) recent_allRemoved
    rw [← hrest] at htype
    simpa using htype.trans (ih hbehind)

end ParameterMarks

/-- The frame of a source in which a variable declaration has come so far. -/
def topFrame (declaration : Option Declaration) : Frame := ⟨.top, 0, declaration⟩

/-- An operand may be the initial value of a variable. -/
theorem operand_allows_top : Place.operand.Allows (topFrame (some .initializer)) :=
  ⟨by decide, .inr rfl, fun hne => absurd rfl hne, fun heq => by cases heq⟩

namespace VariableMarks

/-- The tokens of a variable are balanced. -/
theorem balanced (h : VariableMarks ms) : Balanced (ms.map Prod.fst) := by
  obtain ⟨hname, hcolon, hts, hequals, hus⟩ := h
  have hvalue := Balanced.of_mark hequals (by decide) hus.balanced
  have htyped := Balanced.of_mark hcolon (by decide) (hts.enclosed.balanced.append hvalue)
  simpa using Balanced.of_name hname htyped

/-- No kept token of a variable gives a bracket a meaning. -/
theorem isCalm (h : VariableMarks ms) : ∀ m ∈ ms, m.2 = true → IsCalm m.1 := by
  obtain ⟨hname, -, -, hequals, hus⟩ := h
  simp only [List.forall_mem_cons, List.forall_mem_append]
  refine ⟨fun _ => isCalm_of_isName hname, isCalm_allRemoved, fun _ => ?_, isCalm_allKept hus.calm⟩
  exact isCalm_of_is hequals.is (by decide)

/-- A variable starts with its name. -/
theorem exists_isName (h : VariableMarks ms) : ∃ m others, ms = m :: others ∧ m.1.IsName := by
  obtain ⟨hname, -, -, -, -⟩ := h
  exact ⟨_, _, rfl, hname⟩

/-- A run keeps a variable and its initial value. -/
theorem leads (h : VariableMarks ms) (htable : tokenize source = .ok table)
    (hnext : next.Follows (topFrame (some .initializer))) (hcalm : Calm (recent done))
    (hbefore : Unpointed done) :
    Leads table ⟨done, ms.map Prod.fst ++ next :: behind, topFrame (some .expectName), outer⟩
      ⟨ms.reverse ++ done, next :: behind, topFrame (some .initializer), outer⟩ := by
  obtain ⟨hname, hcolon, hts, hequals, hus⟩ := h
  rename_i name colon equals ts us grouped
  have hkept : Leads table
      ⟨done, name :: colon :: (ts ++ equals :: (us ++ next :: behind)), topFrame (some .expectName),
        outer⟩
      ⟨(name, true) :: done, colon :: (ts ++ equals :: (us ++ next :: behind)),
        topFrame (some .afterName), outer⟩ :=
    leads_name (by simp) hname (by decide) hbefore
  have htype := hkept.trans (leads_type htable hcolon hts rfl (.inr rfl)
    (hequals.endsType (by decide) (by simp)))
  have hinitializer : Leads table _
      ⟨(equals, true) :: ((allRemoved (colon :: ts)).reverse ++ (name, true) :: done),
        us ++ next :: behind, topFrame (some .initializer), outer⟩ :=
    htype.trans (leads_equals (by simp) hequals)
  have hcalm' : Calm (recent
      ((equals, true) :: ((allRemoved (colon :: ts)).reverse ++ (name, true) :: done))) := by
    refine Calm.mark ?_ hequals (by decide)
    rw [recent_allRemoved]
    exact hcalm.cons (isCalm_of_isName hname)
  have hvalue := hinitializer.trans (leads_inert htable hus operand_allows_top nofun hcalm' hnext)
  simpa using hvalue

end VariableMarks

namespace VariablesMarks

/-- The tokens of variables are balanced. -/
theorem balanced (h : VariablesMarks ms) : Balanced (ms.map Prod.fst) := by
  induction h with
  | last hms => exact hms.balanced
  | cons hms hcomma _ ih =>
    rw [List.map_append, List.map_cons]
    exact hms.balanced.append (.of_mark hcomma (by decide) ih)

theorem exists_isName (h : VariablesMarks ms) : ∃ m others, ms = m :: others ∧ m.1.IsName := by
  cases h with
  | last hms => exact hms.exists_isName
  | cons hms _ _ =>
    obtain ⟨m, others, rfl, hm⟩ := hms.exists_isName
    exact ⟨m, _, rfl, hm⟩

/-- A run keeps variables with commas between them. -/
theorem leads (h : VariablesMarks ms) (htable : tokenize source = .ok table)
    (hnext : next.IsMark ";") (hcalm : Calm (recent done)) (hbefore : Unpointed done) :
    Leads table ⟨done, ms.map Prod.fst ++ next :: behind, topFrame (some .expectName), outer⟩
      ⟨ms.reverse ++ done, next :: behind, topFrame (some .initializer), outer⟩ := by
  induction h generalizing done with
  | last hms => exact hms.leads htable (hnext.follows (by decide)) hcalm hbefore
  | @cons ms ns comma hms hcomma hns ih =>
    have hvariable : Leads table
        ⟨done, ms.map Prod.fst ++ comma :: (ns.map Prod.fst ++ next :: behind),
          topFrame (some .expectName), outer⟩
        ⟨ms.reverse ++ done, comma :: (ns.map Prod.fst ++ next :: behind),
          topFrame (some .initializer), outer⟩ :=
      hms.leads htable (hcomma.follows (by decide)) hcalm hbefore
    have hkept : Leads table _
        ⟨(comma, true) :: (ms.reverse ++ done), ns.map Prod.fst ++ next :: behind,
          topFrame (some .expectName), outer⟩ :=
      hvariable.trans (leads_comma (by simp) hcomma)
    have hcalm' : Calm (recent ((comma, true) :: (ms.reverse ++ done))) :=
      (hcalm.marks hms.isCalm).mark hcomma (by decide)
    have hbehind : Unpointed ((comma, true) :: (ms.reverse ++ done)) := .of_is hcomma.is (by decide)
    simpa using hkept.trans (ih hcalm' hbehind)

end VariablesMarks

/-- The value of a declared name is next. -/
theorem leads_initializer {word name equals : Token} {rest : List Token} (hrest : rest ≠ [])
    (hword : word.IsWord "const") (hname : name.IsName) (hequals : equals.IsMark "=")
    (hbefore : Unpointed done) :
    Leads table ⟨done, word :: name :: equals :: rest, topFrame none, []⟩
      ⟨(equals, true) :: (name, true) :: (word, true) :: done, rest,
        topFrame (some .initializer), []⟩ := by
  have hbegin : Leads table ⟨done, word :: name :: equals :: rest, topFrame none, []⟩
      ⟨(word, true) :: done, name :: equals :: rest, topFrame (some .expectName), []⟩ :=
    leads_let (.inr hword) hname (by decide) hbefore
  have hdeclared : Leads table _
      ⟨(name, true) :: (word, true) :: done, equals :: rest, topFrame (some .afterName), []⟩ :=
    hbegin.trans (leads_name (by simp) hname (by decide) (.of_is hword.is (by decide)))
  exact hdeclared.trans (leads_equals hrest hequals)

/-- Behind an equals sign no bracket has been given a meaning. -/
theorem calm_initializer {word name equals : Token} (hword : word.IsWord "const")
    (hname : name.IsName) (hequals : equals.IsMark "=") (hcalm : Calm (recent done)) :
    Calm (recent ((equals, true) :: (name, true) :: (word, true) :: done)) :=
  ((hcalm.cons (isCalm_of_is hword.is (by decide))).cons (isCalm_of_isName hname)).mark hequals
    (by decide)

theorem unpointed_nil : Unpointed [] := by
  simp [Unpointed, recent]

/-- A function is read up to the bracket that closes its parameters. -/
theorem leads_function_heading {word name first last : Token} (behind : List Token)
    (htable : tokenize source = .ok table) (hword : word.IsWord "function")
    (hname : name.IsName) (hfirst : first.IsMark "(") (hms : ParameterMarks ms)
    (hlast : last.IsMark ")") :
    Leads table
      ⟨[], word :: name :: first :: (ms.map Prod.fst ++ last :: behind), topFrame none, []⟩
      ⟨ms.reverse ++ [(first, true), (name, true), (word, true)], last :: behind,
        .fresh .parameters, [topFrame none]⟩ := by
  have hbegin : Leads table
      ⟨[], word :: name :: first :: (ms.map Prod.fst ++ last :: behind), topFrame none, []⟩
      ⟨[(word, true)], name :: first :: (ms.map Prod.fst ++ last :: behind), topFrame none, []⟩ :=
    leads_function hword hname hfirst (by decide) unpointed_nil
  have hnamed : Leads table _
      ⟨[(name, true), (word, true)], first :: (ms.map Prod.fst ++ last :: behind),
        topFrame none, []⟩ :=
    hbegin.trans (leads_name (by simp) hname (by decide) (.of_is hword.is (by decide)))
  have hopened := hnamed.trans (leads_parameters (by simp) hfirst (.inl rfl) fun s hs =>
    opensParameters_of_function hs.marks.preceded hname hword)
  exact hopened.trans (hms.leads htable hlast (.of_is hfirst.is (by decide)))

/-- Behind the parameters of a function, `function` is too far away to matter. -/
theorem calm_function_heading {word name first last : Token} (hname : name.IsName)
    (hfirst : first.IsMark "(") (hms : ParameterMarks ms) (hlast : last.IsMark ")") :
    Calm (recent
      ((last, true) :: (ms.reverse ++ [(first, true), (name, true), (word, true)]))) := by
  have hrecent :
      recent ((last, true) :: (ms.reverse ++ [(first, true), (name, true), (word, true)])) =
      last :: (recent ms.reverse ++ [first, name]) ++ [word] := by
    simp [recent]
  have hparameters : ∀ t ∈ recent ms.reverse, IsCalm t := by
    intro t ht
    obtain ⟨m, hm, rfl⟩ := List.mem_map.mp ht
    obtain ⟨hmem, hkept⟩ := List.mem_filter.mp hm
    exact hms.isCalm m (List.mem_reverse.mp hmem) hkept
  rw [hrecent]
  refine calm_of_length ?_ (by simp)
  simp only [List.forall_mem_cons, List.forall_mem_append]
  exact ⟨isCalm_of_is hlast.is (by decide), hparameters, isCalm_of_is hfirst.is (by decide),
    isCalm_of_isName hname, by simp⟩

/-- The body of a function is kept. -/
theorem leads_body {block result semicolon close : Token} {us : List Token} {f : Frame}
    (htable : tokenize source = .ok table) (hblock : block.IsMark "\x7b")
    (hresult : result.IsWord "return") (hus : Inert .operand us) (hsemicolon : semicolon.IsMark ";")
    (hclose : close.IsMark "\x7d") (hsettled : Settled f) (hnext : next.is ":" = false)
    (hcalm : Calm (recent done)) :
    Leads table
      ⟨done, block :: result :: (us ++ semicolon :: close :: next :: behind), f, outer⟩
      ⟨(close, true) :: (semicolon, true) :: ((allKept us).reverse ++
        (result, true) :: (block, true) :: done), next :: behind, f, outer⟩ := by
  have hopened : Leads table
      ⟨done, block :: result :: (us ++ semicolon :: close :: next :: behind), f, outer⟩
      ⟨(block, true) :: done, result :: (us ++ semicolon :: close :: next :: behind), .fresh .block,
        f :: outer⟩ :=
    leads_block (by simp) hblock hsettled hcalm
  have hreturn : Leads table _ ⟨(result, true) :: (block, true) :: done,
      us ++ semicolon :: close :: next :: behind, .fresh .block, f :: outer⟩ :=
    hopened.trans (leads_word (by simp) hresult.1 (by rw [hresult.2]; decide) (by decide)
      (.of_is hblock.is (by decide)))
  have hcalm' : Calm (recent ((result, true) :: (block, true) :: done)) :=
    (hcalm.mark hblock (by decide)).cons (isCalm_of_is hresult.is (by decide))
  have hvalue := hreturn.trans (leads_inert htable hus
    (Place.allows_fresh (by decide)) nofun hcalm' (hsemicolon.follows (by decide)))
  have hended : Leads table _ ⟨(semicolon, true) :: ((allKept us).reverse ++
      (result, true) :: (block, true) :: done), close :: next :: behind, .fresh .block,
        f :: outer⟩ :=
    hvalue.trans (leads_semicolon (by simp) hsemicolon)
  exact hended.trans (leads_close (.inr (.inr hclose)) hsettled hnext)

namespace StatementMarks

/-- The tokens of a statement are balanced. -/
theorem balanced (h : StatementMarks ms) : Balanced (ms.map Prod.fst) := by
  cases h with
  | binding hword hms hsemicolon =>
    have hbindings := hms.balanced.append (.of_mark hsemicolon (by decide) .nil)
    simpa using Balanced.of_word hword (by decide) hbindings
  | function hword hname hfirst hms hlast hcolon hts hblock hresult hus hsemicolon hclose =>
    have hvalue := hus.balanced.append (.of_mark hsemicolon (by decide) .nil)
    have hbody := Balanced.group (hblock.opens? .curly) (hclose.closes? .curly)
      (.of_word hresult (by decide) hvalue) .nil
    have htyped := Balanced.of_mark hcolon (by decide) (hts.enclosed.balanced.append hbody)
    have hlist := Balanced.group (hfirst.opens? .round) (hlast.closes? .round) hms.balanced htyped
    simpa using Balanced.of_word hword (by decide) (.of_name hname hlist)
  | arrow hword hname hequals hfirst hms hlast hcolon hts harrow hus hsemicolon =>
    have hvalue := hus.balanced.append (.of_mark hsemicolon (by decide) .nil)
    have htyped := Balanced.of_mark hcolon (by decide)
      (hts.enclosed.balanced.append (.of_mark harrow (by decide) hvalue))
    have hlist := Balanced.group (hfirst.opens? .round) (hlast.closes? .round) hms.balanced htyped
    simpa using Balanced.of_word hword (by decide)
      (.of_name hname (.of_mark hequals (by decide) hlist))
  | assertion hword hname hequals hfirst hus hends hword' hts hlast hsemicolon =>
    have hasserted := hus.balanced.append (.of_word hword' (by decide) hts.enclosed.balanced)
    have hgroup := Balanced.group (hfirst.opens? .round) (hlast.closes? .round) hasserted
      (.of_mark hsemicolon (by decide) .nil)
    simpa using Balanced.of_word hword (by decide)
      (.of_name hname (.of_mark hequals (by decide) hgroup))

/-- A run over bound variables keeps all but their types. -/
theorem leads_binding {word semicolon : Token} (htable : tokenize source = .ok table)
    (hword : word.IsWord "let") (hms : VariablesMarks ms) (hsemicolon : semicolon.IsMark ";") :
    Leads table ⟨[], word :: (ms.map Prod.fst ++ semicolon :: [next]), topFrame none, []⟩
      ⟨(semicolon, true) :: (ms.reverse ++ [(word, true)]), [next], topFrame none, []⟩ := by
  obtain ⟨m, ms, rfl, hm⟩ := hms.exists_isName
  have hbegin : Leads table
      ⟨[], word :: ((m :: ms).map Prod.fst ++ semicolon :: [next]), topFrame none, []⟩
      ⟨[(word, true)], (m :: ms).map Prod.fst ++ semicolon :: [next],
        topFrame (some .expectName), []⟩ :=
    leads_let (.inl hword) hm (by decide) unpointed_nil
  have hcalm : Calm (recent [(word, true)]) :=
    calm_nil.cons (isCalm_of_is hword.is (by decide))
  have hvariables :=
    hbegin.trans (hms.leads htable hsemicolon hcalm (.of_is hword.is (by decide)))
  exact hvariables.trans (leads_semicolon (by simp) hsemicolon)

/-- A run over a function keeps all but its result type and the types of its parameters. -/
theorem leads_functionStatement {word name first last colon block result semicolon close : Token}
    {ts us : List Token} {grouped : Bool} (htable : tokenize source = .ok table)
    (hword : word.IsWord "function") (hname : name.IsName) (hfirst : first.IsMark "(")
    (hms : ParameterMarks ms) (hlast : last.IsMark ")") (hcolon : colon.IsMark ":")
    (hts : TypeTokens grouped ts) (hblock : block.IsMark "\x7b") (hresult : result.IsWord "return")
    (hus : Inert .operand us) (hsemicolon : semicolon.IsMark ";") (hclose : close.IsMark "\x7d")
    (hnext : next.kind = .finish) :
    Leads table
      ⟨[], word :: name :: first :: (ms.map Prod.fst ++ last :: colon :: (ts ++ block :: result ::
        (us ++ semicolon :: close :: [next]))), topFrame none, []⟩
      ⟨(close, true) :: (semicolon, true) :: ((allKept us).reverse ++ (result, true) ::
        (block, true) :: ((allRemoved (colon :: ts)).reverse ++ (last, true) ::
          (ms.reverse ++ [(first, true), (name, true), (word, true)]))), [next],
        topFrame none, []⟩ := by
  have hheading := leads_function_heading (colon :: (ts ++ block :: result ::
    (us ++ semicolon :: close :: [next]))) htable hword hname hfirst hms hlast
  have hresulted := hheading.trans (leads_result htable hlast hcolon hts
    (hblock.endsType (by decide) (by simp)) rfl (.inl rfl))
  have hcalm : Calm (recent ((allRemoved (colon :: ts)).reverse ++ (last, true) ::
      (ms.reverse ++ [(first, true), (name, true), (word, true)]))) := by
    rw [recent_allRemoved]
    exact calm_function_heading hname hfirst hms hlast
  exact hresulted.trans (leads_body htable hblock hresult hus hsemicolon hclose (.inl rfl)
    (by simp [Token.is, hnext]) hcalm)

/-- A run over the head of an arrow function keeps all but its types, up to the arrow. -/
theorem leads_arrowHead {word name equals first last colon arrow : Token} {ts : List Token}
    (htable : tokenize source = .ok table) (hword : word.IsWord "const") (hname : name.IsName)
    (hequals : equals.IsMark "=") (hfirst : first.IsMark "(") (hms : ParameterMarks ms)
    (hlast : last.IsMark ")") (hcolon : colon.IsMark ":") (hts : TypeTokens false ts)
    (harrow : arrow.IsMark "=>") :
    Leads table
      ⟨[], word :: name :: equals :: first :: (ms.map Prod.fst ++ last :: colon ::
        (ts ++ arrow :: behind)), topFrame none, []⟩
      ⟨(allRemoved (colon :: ts)).reverse ++ (last, true) ::
        (ms.reverse ++ [(first, true), (equals, true), (name, true), (word, true)]),
        arrow :: behind, topFrame (some .initializer), []⟩ := by
  have hheading : Leads table
      ⟨[], word :: name :: equals :: first :: (ms.map Prod.fst ++ last :: colon ::
        (ts ++ arrow :: behind)), topFrame none, []⟩ _ :=
    leads_initializer (by simp) hword hname hequals unpointed_nil
  have hopened := hheading.trans (leads_parameters (by simp) hfirst (.inr rfl) fun s hs => by
    have hbehind := hs.ahead.behind_closeOf htable (hfirst.opens? .round) (hlast.closes? .round)
      hms.balanced
    have hf : s.frame = topFrame (some .initializer) := hs.frame
    exact opensParameters_of_result htable hbehind hcolon hts harrow (by rw [hf]; rfl))
  have hparameters := hopened.trans (hms.leads htable hlast (.of_is hfirst.is (by decide)))
  exact hparameters.trans (leads_result htable hlast hcolon hts
    (harrow.endsType (by decide) (by simp)) rfl (.inr rfl))

/-- A run over an arrow function keeps all but its result type and the types of its parameters. -/
theorem leads_arrowStatement {word name equals first last colon arrow semicolon : Token}
    {ts us : List Token} (htable : tokenize source = .ok table) (hword : word.IsWord "const")
    (hname : name.IsName) (hequals : equals.IsMark "=") (hfirst : first.IsMark "(")
    (hms : ParameterMarks ms) (hlast : last.IsMark ")") (hcolon : colon.IsMark ":")
    (hts : TypeTokens false ts) (harrow : arrow.IsMark "=>") (hus : Inert .operand us)
    (hsemicolon : semicolon.IsMark ";") :
    Leads table
      ⟨[], word :: name :: equals :: first :: (ms.map Prod.fst ++ last :: colon ::
        (ts ++ arrow :: (us ++ semicolon :: [next]))), topFrame none, []⟩
      ⟨(semicolon, true) :: ((allKept us).reverse ++ (arrow, true) ::
        ((allRemoved (colon :: ts)).reverse ++ (last, true) ::
          (ms.reverse ++ [(first, true), (equals, true), (name, true), (word, true)]))),
        [next], topFrame none, []⟩ := by
  have hhead : Leads table
      ⟨[], word :: name :: equals :: first :: (ms.map Prod.fst ++ last :: colon ::
        (ts ++ arrow :: (us ++ semicolon :: [next]))), topFrame none, []⟩ _ :=
    leads_arrowHead htable hword hname hequals hfirst hms hlast hcolon hts harrow
  have hbody := hhead.trans (leads_arrow (by simp) harrow)
  have hcalm : Calm (recent ((arrow, true) :: ((allRemoved (colon :: ts)).reverse ++
      (last, true) :: (ms.reverse ++ [(first, true), (equals, true), (name, true),
        (word, true)])))) := by
    refine Calm.mark ?_ harrow (by decide)
    rw [recent_allRemoved]
    refine Calm.mark (Calm.marks ?_ hms.isCalm) hlast (by decide)
    exact (calm_initializer hword hname hequals calm_nil).mark hfirst (by decide)
  have hvalue := hbody.trans (leads_inert htable hus operand_allows_top
    (fun hclass => absurd hclass (by decide)) hcalm (hsemicolon.follows (by decide)))
  exact hvalue.trans (leads_semicolon (by simp) hsemicolon)

/-- A run over a value asserted in round brackets keeps all but the assertion. -/
theorem leads_assertionStatement {word name equals first last word' semicolon : Token}
    {ts us : List Token} {grouped : Bool} (htable : tokenize source = .ok table)
    (hword : word.IsWord "const") (hname : name.IsName) (hequals : equals.IsMark "=")
    (hfirst : first.IsMark "(") (hus : Inert .operand us)
    (hends : ∃ v ∈ us.getLast?, v.EndsOperand) (hword' : word'.IsWord "as")
    (hts : TypeTokens grouped ts) (hlast : last.IsMark ")") (hsemicolon : semicolon.IsMark ";") :
    Leads table
      ⟨[], word :: name :: equals :: first :: (us ++ word' :: ts ++ last :: semicolon :: [next]),
        topFrame none, []⟩
      ⟨(semicolon, true) :: (last, true) :: ((allRemoved (word' :: ts)).reverse ++
        ((allKept us).reverse ++ [(first, true), (equals, true), (name, true), (word, true)])),
        [next], topFrame none, []⟩ := by
  have hinner : Balanced (us ++ word' :: ts) :=
    hus.balanced.append (.of_word hword' (by decide) hts.enclosed.balanced)
  have hheading : Leads table
      ⟨[], word :: name :: equals :: first :: (us ++ word' :: ts ++ last :: semicolon :: [next]),
        topFrame none, []⟩ _ :=
    leads_initializer (by simp) hword hname hequals unpointed_nil
  have hcalm : Calm (recent [(equals, true), (name, true), (word, true)]) :=
    calm_initializer hword hname hequals calm_nil
  have hopened := hheading.trans (leads_group htable hfirst hinner hlast
    (hsemicolon.follows (by decide)) (.inr rfl) hcalm)
  rw [List.append_assoc, List.cons_append] at hopened
  have hfollows : word'.Follows (.fresh .group) :=
    ⟨by simp [hword'.is], by simp [hword'.is], fun hcolon => by simp [hword'.is] at hcolon⟩
  have hvalue := hopened.trans (leads_inert htable hus (Place.allows_fresh (by decide))
    (fun hclass => absurd hclass (by decide)) (hcalm.mark hfirst (by decide)) hfollows)
  have hoperand : ∃ v ∈ (recent ((allKept us).reverse ++
      [(first, true), (equals, true), (name, true), (word, true)])).head?, v.EndsOperand := by
    obtain ⟨v, hv, hends⟩ := hends
    refine ⟨v, ?_, hends⟩
    rw [recent_allKept, List.head?_append, List.head?_reverse, Option.mem_def.mp hv]
    rfl
  have hasserted := hvalue.trans (leads_assertion htable hword' hts
    (hlast.endsType (by decide) (by simp)) (by decide) (by decide) hoperand)
  have hclosed := hasserted.trans (leads_close (.inl hlast) (.inr rfl) (by simp [hsemicolon.is]))
  rw [List.append_assoc, List.cons_append]
  exact hclosed.trans (leads_semicolon (by simp) hsemicolon)

/-- A run over a statement keeps all but its types and optional marks. -/
theorem leads (h : StatementMarks ms) (htable : tokenize source = .ok table)
    (hnext : next.kind = .finish) :
    Leads table ⟨[], ms.map Prod.fst ++ [next], topFrame none, []⟩
      ⟨ms.reverse, [next], topFrame none, []⟩ := by
  cases h with
  | binding hword hms hsemicolon => simpa using leads_binding htable hword hms hsemicolon
  | function hword hname hfirst hms hlast hcolon hts hblock hresult hus hsemicolon hclose =>
    simpa using leads_functionStatement htable hword hname hfirst hms hlast hcolon hts hblock
      hresult hus hsemicolon hclose hnext
  | arrow hword hname hequals hfirst hms hlast hcolon hts harrow hus hsemicolon =>
    simpa using leads_arrowStatement htable hword hname hequals hfirst hms hlast hcolon hts harrow
      hus hsemicolon
  | assertion hword hname hequals hfirst hus hends hword' hts hlast hsemicolon =>
    simpa using leads_assertionStatement htable hword hname hequals hfirst hus hends hword' hts
      hlast hsemicolon

end StatementMarks

end Workflow.Script
