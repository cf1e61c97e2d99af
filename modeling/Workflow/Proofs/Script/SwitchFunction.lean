import Workflow.Proofs.Script.Switch
import Workflow.Proofs.Script.TypedStatement

/-!
# Switch statements as they are erased

A function whose body is a switch statement is read as the marked tokens of one, a run marks the
tokens in this way, and what is kept of them is written. Nothing is lost but the colons behind
calls in front of object literals, and the words between them.
-/

namespace Workflow.Script

open Erasure

variable {text rest restErased : String} {stops : Char → Prop} {S : List Token → Prop}
  {o' : Bool}

/-- A text is kept or removed. -/
theorem Lexes.mark (h : Lexes text stops S) (taken : Bool) :
    Erases text (if taken then "" else text) stops
      fun ms => ∃ ts, ms = ts.map (fun t => (t, !taken)) ∧ S ts := by
  cases taken with
  | false => exact h.keep
  | true => exact h.remove

/-- The words of a switch statement. -/
theorem phrase_switchWord (text : String) (h : text ∈ ["switch", "case", "break"]) :
    Phrase text (fun c => c = ' ' ∨ c = ';') fun ts => ∃ t, ts = [t] ∧ t.IsWord text := by
  have hletters : ∃ c rest, text.toList = c :: rest ∧ isLetter c = true ∧
      ∀ d ∈ rest, isNamePart d = true := by
    simp only [List.mem_cons, List.not_mem_nil, or_false] at h
    rcases h with rfl | rfl | rfl
    all_goals exact ⟨_, _, rfl, by decide, List.all_eq_true.mp (by decide)⟩
  obtain ⟨c, rest, htext, hfirst, hrest⟩ := hletters
  exact (phrase_letters htext hfirst hrest).mono (by rintro _ (rfl | rfl) <;> decide) fun _ => id

theorem lexes_functionTokens (name parameter : PlainName) :
    Lexes ("function" ++ (" " ++ name.text ++ "(") ++
      (parameter.text ++ (")" ++ (" " ++ "\x7b")))) (fun _ => True) FunctionTokens := by
  have hblock : Lexes (")" ++ (" " ++ "\x7b")) (fun _ => True)
      fun ts => ∃ last block, ts = [last, block] ∧ last.IsMark ")" ∧ block.IsMark "\x7b" := by
    refine (phrase_bracket ")" (by decide)).plain.join (phrase_bracket "\x7b" (by decide)).spaced
      (by simp) ?_
    rintro _ _ ⟨last, rfl, hlast, -⟩ ⟨block, rfl, hblock, -⟩
    exact ⟨last, block, rfl, hlast, hblock⟩
  have hparameter : Phrase (parameter.text ++ (")" ++ (" " ++ "\x7b"))) (fun _ => True)
      fun ts => ∃ parameter last block, ts = [parameter, last, block] ∧ parameter.IsName ∧
        last.IsMark ")" ∧ block.IsMark "\x7b" := by
    refine (phrase_name parameter).join hblock (by simp [Delimits, delimiters]) ?_
    rintro _ _ ⟨parameter, rfl, hparameter⟩ ⟨last, block, rfl, hlast, hblock⟩
    exact ⟨parameter, last, block, rfl, hparameter, hlast, hblock⟩
  refine (lexes_function_heading name).join hparameter.plain (by simp) ?_
  rintro _ _ ⟨word, name, first, rfl, hword, hname, hfirst⟩
    ⟨parameter, last, block, rfl, hparameter, hlast, hblock⟩
  exact ⟨word, name, first, parameter, last, block, rfl, hword, hname, hfirst, hparameter, hlast,
    hblock⟩

theorem lexes_subjectTokens (e : PlainExpr) :
    Lexes (" " ++ "switch" ++ (" " ++ ("(" ++ e.text ++ ")") ++ (" " ++ "\x7b"))) (fun _ => True)
      SubjectTokens := by
  have hgroup := phrase_between "(" ")" (by decide)
    (lexes_closed ")" (by decide) e.plainTakes.phrase)
  have hsubject : Lexes (" " ++ ("(" ++ e.text ++ ")") ++ (" " ++ "\x7b")) (fun _ => True)
      fun ts => ∃ first us last block, ts = first :: (us ++ [last, block]) ∧ first.IsMark "(" ∧
        PlainTokens e.ending e.startsObject us ∧ last.IsMark ")" ∧ block.IsMark "\x7b" := by
    refine hgroup.spaced.join (phrase_bracket "\x7b" (by decide)).spaced (by simp) ?_
    rintro _ _ ⟨first, us, last, rfl, hfirst, -, hus, hlast⟩ ⟨block, rfl, hblock, -⟩
    exact ⟨first, us, last, block, by simp, hfirst, hus, hlast, hblock⟩
  refine (phrase_switchWord "switch" (by decide)).spaced.join hsubject (by simp) ?_
  rintro _ _ ⟨word, rfl, hword⟩ ⟨first, us, last, block, rfl, hfirst, hus, hlast, hblock⟩
  exact .mk hword hfirst hus hlast hblock

theorem Label.phrase (l : Label) :
    Phrase l.expr.text Delimits (LabelTokens l.endsLikeMethod l.expr.startsObject) := by
  cases l with
  | name x => exact x.plainTakes.phrase.mono (fun _ => id) fun _ hts => hts.label (by decide)
  | number n => exact n.plainTakes.phrase.mono (fun _ => id) fun _ hts => hts.label (by decide)
  | string s =>
    refine (phrase_string s).mono (fun _ _ => trivial) ?_
    rintro _ ⟨t, rfl, hkind, -⟩
    have hother : Ending.other.Ends t := by
      rw [Ending.Ends, hkind]
      decide
    exact .atom (.literal (.inl hkind) hother) ⟨t, rfl, .inr (.inl hkind)⟩
  | member e x =>
    refine (PlainExpr.member e x).plainTakes.phrase.mono (fun _ => id) fun _ hts => hts.label ?_
    exact e.ending.member_ne_other x
  | call e arguments =>
    rw [show (Label.call e arguments).expr.text = e.text ++
      ("(" ++ ", ".intercalate (PlainExpr.texts arguments) ++ ")") by
        simp only [Label.expr, PlainExpr.text, String.append_assoc]]
    refine Phrase.mono (e.plainTakes.phrase.join (phrase_arguments fun d _ => d.plainTakes).plain
      (by simp [Delimits, delimiters]) ?_) (fun _ _ => trivial) fun _ => id
    rintro us _ hus ⟨first, inner, last, rfl, hfirst, hinner, hlast⟩
    exact .call hus hfirst hinner hlast

/-- The tokens of parts and the bracket that closes them, by whether the word in front is taken for
a type. -/
def IsClauses (taken shown : Bool) (ms : List (Token × Bool)) : Prop :=
  ∃ lead ns last, ms = lead.map (fun t => (t, !taken)) ++ (ns ++ [(last, true)]) ∧
    PartsMarks lead shown ns ∧ last.IsMark "\x7d"

/-- A label in front of parts. -/
theorem Label.erases (l : Label) (taken : Bool) {misread : Bool}
    (hmisread : misread = (l.endsLikeMethod && o'))
    (h : Erases rest restErased (fun _ => True) (IsClauses misread o')) :
    Erases (" case" ++ (" " ++ l.expr.text ++ (":" ++ rest)))
      ((if taken then "" else " case") ++ (" " ++ l.expr.text ++
        ((if misread then "" else ":") ++ restErased))) (fun _ => True)
      (IsClauses taken l.expr.startsObject) := by
  have hword := (phrase_switchWord "case" (by decide)).spaced.mark taken
  have hmark := (phrase_bracket ":" (by decide)).plain.mark misread
  have hbehind : Erases (":" ++ rest) ((if misread then "" else ":") ++ restErased) (fun _ => True)
      fun ms => ∃ colon ns, ms = (colon, !misread) :: ns ∧ colon.IsMark ":" ∧
        IsClauses misread o' ns := by
    refine hmark.join h (by simp) ?_
    rintro _ ns ⟨_, rfl, colon, rfl, hcolon, -⟩ hns
    exact ⟨colon, ns, rfl, hcolon, hns⟩
  have hlabel : Erases (" " ++ l.expr.text ++ (":" ++ rest))
      (" " ++ l.expr.text ++ ((if misread then "" else ":") ++ restErased)) (fun _ => True)
      fun ms => ∃ ts colon ns, ms = allKept ts ++ (colon, !misread) :: ns ∧
        LabelTokens l.endsLikeMethod l.expr.startsObject ts ∧ colon.IsMark ":" ∧
          IsClauses misread o' ns := by
    refine l.phrase.spaced.keep.join hbehind (by simp [Delimits, delimiters]) ?_
    rintro _ _ ⟨ts, rfl, hts⟩ ⟨colon, ns, rfl, hcolon, hns⟩
    exact ⟨ts, colon, ns, rfl, hts, hcolon, hns⟩
  refine hword.join hlabel (by simp) ?_
  rintro _ _ ⟨_, rfl, word, rfl, hword⟩
    ⟨ts, colon, _, rfl, hts, hcolon, lead, ns, last, rfl, hns, hlast⟩
  cases misread with
  | false =>
    refine ⟨[word], allKept ts ++ (colon, true) :: (allKept lead ++ ns), last, ?_,
      .label hword hts hcolon hns hmisread.symm, hlast⟩
    simp [allKept]
  | true =>
    obtain ⟨hmethod, hshown⟩ := Bool.and_eq_true_iff.mp hmisread.symm
    rw [hmethod] at hts
    rw [hshown] at hns
    refine ⟨[word], allKept ts ++ (allRemoved (colon :: lead) ++ ns), last, ?_,
      .misread hword hts hcolon hns, hlast⟩
    simp [allRemoved]

/-- The semicolon of a statement in front of parts. -/
theorem erases_semicolon (h : Erases rest restErased (fun _ => True) (IsClauses false o')) :
    Erases (";" ++ rest) (";" ++ restErased) (fun _ => True) fun ms => ∃ semicolon lead ns last,
      ms = (semicolon, true) :: (allKept lead ++ (ns ++ [(last, true)])) ∧
        semicolon.IsMark ";" ∧ PartsMarks lead o' ns ∧ last.IsMark "\x7d" := by
  refine (phrase_bracket ";" (by decide)).plain.keep.join h (by simp) ?_
  rintro _ _ ⟨_, rfl, semicolon, rfl, hsemicolon, -⟩ ⟨lead, ns, last, rfl, hns, hlast⟩
  exact ⟨semicolon, lead, ns, last, rfl, hsemicolon, hns, hlast⟩

/-- An expression and the semicolon behind it, in front of parts. -/
theorem PlainExpr.erases_ended (e : PlainExpr)
    (h : Erases rest restErased (fun _ => True) (IsClauses false o')) :
    Erases (" " ++ e.text ++ (";" ++ rest)) (" " ++ e.text ++ (";" ++ restErased)) (fun _ => True)
      fun ms => ∃ ts semicolon lead ns last,
        ms = allKept ts ++ (semicolon, true) :: (allKept lead ++ (ns ++ [(last, true)])) ∧
          PlainTokens e.ending e.startsObject ts ∧ semicolon.IsMark ";" ∧ PartsMarks lead o' ns ∧
            last.IsMark "\x7d" := by
  refine e.plainTakes.phrase.spaced.keep.join (erases_semicolon h) (by simp [Delimits, delimiters])
    ?_
  rintro _ _ ⟨ts, rfl, hts⟩ ⟨semicolon, lead, ns, last, rfl, hsemicolon, hns, hlast⟩
  exact ⟨ts, semicolon, lead, ns, last, rfl, hts, hsemicolon, hns, hlast⟩

/-- A statement in front of parts. -/
theorem PlainStatement.erases (d : PlainStatement) (taken : Bool)
    (h : Erases rest restErased (fun _ => True) (IsClauses false o')) :
    Erases ((SwitchPart.statement d).word ++ ((SwitchPart.statement d).middle ++ rest))
      ((if taken then "" else (SwitchPart.statement d).word) ++
        ((SwitchPart.statement d).middle ++ restErased)) (fun _ => True)
      (IsClauses taken (SwitchPart.statement d).showsObject) := by
  cases d with
  | result e =>
    have hword := (phrase_word "return" (by decide)).spaced.mark taken
    have hmiddle : ∀ tail, (SwitchPart.statement (.result e)).middle ++ tail =
      " " ++ e.text ++ (";" ++ tail) := fun _ => String.append_assoc
    rw [hmiddle, hmiddle]
    refine hword.join (e.erases_ended h) (by simp) ?_
    rintro _ _ ⟨_, rfl, word, rfl, hword⟩
      ⟨ts, semicolon, lead, ns, last, rfl, hts, hsemicolon, hns, hlast⟩
    exact ⟨[word], allKept ts ++ (semicolon, true) :: (allKept lead ++ ns), last, by simp,
      .result hword hts hsemicolon hns, hlast⟩
  | leave =>
    have hword := (phrase_switchWord "break" (by decide)).spaced.keep
    have hbreak : (SwitchPart.statement .leave).middle = " " ++ "break" ++ ";" := rfl
    have hmiddle : ∀ tail, (SwitchPart.statement .leave).middle ++ tail =
        " " ++ "break" ++ (";" ++ tail) := by
      intro tail
      rw [hbreak, String.append_assoc]
    have hnone : (SwitchPart.statement .leave).word = "" := rfl
    rw [hmiddle, hmiddle, hnone, ite_self, String.empty_append, String.empty_append]
    refine hword.join (erases_semicolon h) (by simp) ?_
    rintro _ _ ⟨_, rfl, word, rfl, hword⟩ ⟨semicolon, lead, ns, last, rfl, hsemicolon, hns, hlast⟩
    exact ⟨[], (word, true) :: (semicolon, true) :: (allKept lead ++ ns), last, by simp [allKept],
      .leave hword hsemicolon hns, hlast⟩
  | call e arguments =>
    have hmiddle : ∀ tail, (SwitchPart.statement (.call e arguments)).middle ++ tail =
      " " ++ (PlainExpr.call e arguments).text ++ (";" ++ tail) := fun _ => String.append_assoc
    have hnone : (SwitchPart.statement (.call e arguments)).word = "" := rfl
    rw [hmiddle, hmiddle, hnone, ite_self, String.empty_append, String.empty_append]
    refine ((PlainExpr.call e arguments).erases_ended h).mono (fun _ => id) ?_
    rintro _ ⟨ts, semicolon, lead, ns, last, rfl, hts, hsemicolon, hns, hlast⟩
    exact ⟨[], allKept ts ++ (semicolon, true) :: (allKept lead ++ ns), last, by simp,
      .call hts hsemicolon hns, hlast⟩

/-- Parts up to the bracket that closes them are read as their tokens, and of those the kept ones
are written as the parts without what is read as a result type. -/
theorem erases_parts (ps : List SwitchPart) (taken : Bool) :
    Erases (partsText ps ++ (" " ++ "\x7d")) (erasedParts taken ps ++ (" " ++ "\x7d"))
      (fun _ => True) (IsClauses taken (ps.head?.any SwitchPart.showsObject)) := by
  induction ps generalizing taken with
  | nil =>
    rw [partsText, erasedParts, String.empty_append]
    refine (phrase_bracket "\x7d" (by decide)).spaced.keep.mono (fun _ => id) ?_
    rintro _ ⟨_, rfl, last, rfl, hlast, -⟩
    exact ⟨[], [], last, rfl, .nil, hlast⟩
  | cons p ps ih =>
    rw [partsText, erasedParts]
    simp only [String.append_assoc]
    cases p with
    | label l =>
      exact l.erases taken (rfl : (SwitchPart.label l).misread ps = _) (ih _)
    | statement d =>
      have hstatement := d.erases taken (ih false)
      have hcolon : (SwitchPart.statement d).colon = "" := rfl
      rw [hcolon, ite_self, String.empty_append, String.empty_append]
      exact hstatement

/-- The function is read as its marked tokens, of which the kept ones are written as the function
without what is read as a result type. -/
theorem SwitchFunction.erases (d : SwitchFunction) :
    Erases d.source d.erased (fun _ => True) SwitchMarks := by
  have hopen : "function " = "function" ++ " " := rfl
  have hmiddle : ") \x7b switch (" = ")" ++ (" " ++ "\x7b") ++ (" " ++ "switch") ++ (" " ++ "(") :=
    rfl
  have hclauses : ") \x7b" = ")" ++ (" " ++ "\x7b") := rfl
  have hend : " \x7d \x7d" = " " ++ "\x7d" ++ (" " ++ "\x7d") := rfl
  have hheading : ∀ tail, d.heading ++ tail ++ " \x7d \x7d" =
      "function" ++ (" " ++ d.name.text ++ "(") ++ (d.parameter.text ++ (")" ++ (" " ++ "\x7b"))) ++
        (" " ++ "switch" ++ (" " ++ ("(" ++ d.subject.text ++ ")") ++ (" " ++ "\x7b")) ++
          (tail ++ (" " ++ "\x7d") ++ (" " ++ "\x7d"))) := by
    intro tail
    simp only [heading, hopen, hmiddle, hclauses, hend, String.append_assoc]
  have hclosed : Erases (partsText d.parts ++ (" " ++ "\x7d") ++ (" " ++ "\x7d"))
      (erasedParts false d.parts ++ (" " ++ "\x7d") ++ (" " ++ "\x7d")) (fun _ => True)
      fun ms => ∃ lead o ns last close,
        ms = allKept lead ++ (ns ++ [(last, true), (close, true)]) ∧ PartsMarks lead o ns ∧
          last.IsMark "\x7d" ∧ close.IsMark "\x7d" := by
    refine (erases_parts d.parts false).join (phrase_bracket "\x7d" (by decide)).spaced.keep
      (by simp) ?_
    rintro _ _ ⟨lead, ns, last, rfl, hns, hlast⟩ ⟨_, rfl, close, rfl, hclose, -⟩
    exact ⟨lead, _, ns, last, close, by simp [allKept], hns, hlast, hclose⟩
  have hbody := (lexes_subjectTokens d.subject).keep.append hclosed (by simp)
  rw [source, erased, hheading, hheading]
  refine (lexes_functionTokens d.name d.parameter).keep.join hbody (by simp) ?_
  rintro _ _ ⟨ts, rfl, hts⟩
    ⟨_, _, rfl, ⟨us, rfl, hus⟩, lead, o, ns, last, close, rfl, hns, hlast, hclose⟩
  exact .mk hts hus hns hlast hclose

theorem SwitchFunction.starts_no_mark (d : SwitchFunction) : ¬ ['#', '!'] <+: d.source.toList := by
  simp only [source, heading, String.append_assoc]
  exact Script.starts_no_mark (by decide) _

/-- A function whose body is a switch statement is erased to the function without what is read as
a result type. -/
theorem SwitchFunction.eraseTypes_source (d : SwitchFunction) :
    eraseTypes d.source = .ok d.erased := by
  obtain ⟨table, s, -, -, htable, hrun, -, -, -, hemit⟩ := d.erases.exists_run d.starts_no_mark
    (fun _ hms => hms.balanced) fun _ _ _ htable hms hlast => ⟨_, _, hms.leads htable hlast⟩
  simp only [eraseTypes, htable, hrun, hemit]

theorem SwitchFunction.erased_eq_source_iff (d : SwitchFunction) : d.erased = d.source ↔
    ∀ before p behind, d.parts = before ++ p :: behind → p.misread behind = false := by
  rw [← erasedParts_eq_iff, erased, source]
  constructor
  · intro heq
    rw [← String.toList_inj] at heq ⊢
    simpa using heq
  · intro heq
    rw [heq]

/-- Erasure of a function whose body is a switch statement never fails. It leaves the function as
it is exactly if no label that ends like a method stands in front of an object literal behind a
word. Of any other function it takes the colons of those labels and the words behind them. -/
theorem eraseTypes_switch (d : SwitchFunction) :
    eraseTypes d.source = .ok d.erased ∧ (d.erased = d.source ↔
      ∀ before p behind, d.parts = before ++ p :: behind → p.misread behind = false) :=
  ⟨d.eraseTypes_source, d.erased_eq_source_iff⟩

/-- A function that returns an object literal if its parameter is what a call gives. -/
def objectBehindCall : SwitchFunction where
  name := .ofText "f" (by decide)
  parameter := .ofText "n" (by decide)
  subject := .name (.ofText "n" (by decide))
  clauses := [{
    label := .call (.name (.ofText "g" (by decide))) [.name (.ofText "k" (by decide))]
    body := [.result (.object [(.ofText "v" (by decide), .name (.ofText "n" (by decide)))])] }]

/-- The colon and `return` are taken for a result type, and the function returns nothing. -/
theorem switch_return_removed :
    objectBehindCall.source =
        "function f(n) \x7b switch (n) \x7b case g(k): return \x7bv: n\x7d; \x7d \x7d" ∧
      eraseTypes objectBehindCall.source =
        .ok "function f(n) \x7b switch (n) \x7b case g(k) \x7bv: n\x7d; \x7d \x7d" ∧
      eraseTypes objectBehindCall.source ≠ .ok objectBehindCall.source := by
  decide +kernel

end Workflow.Script
