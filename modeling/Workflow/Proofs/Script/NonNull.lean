import Workflow.Proofs.Script.ConstantValue
import Workflow.Proofs.Script.Division
import Workflow.Proofs.Script.Term

/-!
# Non-null assertions

An exclamation mark directly behind an operand asserts that a value is there, and is removed
whatever the operand is and whatever operator stands behind it. One operator does not come so far:
a slash directly behind the mark starts a regular expression.
-/

namespace Workflow.Script

/-- An operator that may stand behind an assertion. -/
inductive InfixOperator where
  | term (o : TermOperator)
  | divide

def InfixOperator.text : InfixOperator → String
  | .term o => o.text
  | .divide => "/"

/-- An operation whose left side is asserted, or is a member of what is asserted. -/
structure AssertedValue where
  operand : Term
  member : Option PlainName
  operator : InfixOperator
  right : Term

namespace AssertedValue

/-- What stands in front of the operator, with the given mark. -/
def left (v : AssertedValue) (mark : String) : String :=
  v.operand.text ++ mark ++ dotted v.member.toList

def source (v : AssertedValue) : String :=
  v.left "!" ++ " " ++ v.operator.text ++ " " ++ v.right.text

def erased (v : AssertedValue) : String :=
  v.left "" ++ " " ++ v.operator.text ++ " " ++ v.right.text

/-- A slash stands directly behind the assertion. -/
def startsRegex (v : AssertedValue) : Bool :=
  match v.operator, v.member with
  | .divide, none => true
  | _, _ => false

end AssertedValue

variable {source text : String} {table : TokenTable} {t : Token} {ms ns done : List (Token × Bool)}
  {f : Frame} {outer : List Frame} {rest : List Token} {member : Option PlainName}

open Erasure

/-! ## What the mark is read as -/

/-- Directly behind an operand, an exclamation mark is removed. -/
theorem Erasure.leads_exclamation (hrest : rest ≠ []) (ht : t.IsMark "!") (hglued : t.leading = "")
    (hbefore : ∃ v ∈ (recent done).head?, v.EndsTerm) :
    Leads table ⟨done, t :: rest, f, outer⟩ ⟨(t, false) :: done, rest, f, outer⟩ := by
  obtain ⟨next, behind, rfl⟩ := List.exists_cons_of_ne_nil hrest
  change Leads table ⟨done, t :: ([] ++ next :: behind), f, outer⟩
    ⟨(allRemoved [t]).reverse ++ done, next :: behind, f, outer⟩
  refine leads_of_removal fun s hs => ⟨done.length + 1, Nat.lt_succ_self _, rfl, ?_⟩
  have hasserts := behindOperand_of_endsTerm hs.marks hbefore
  have hoperand : (s.previous done.length).any (s.endsOperand table) = true := by
    obtain ⟨p, hp, hends⟩ := (Option.any_eq_true _ _).mp hasserts
    rw [Bool.and_eq_true] at hends
    exact (Option.any_eq_true _ _).mpr ⟨p, hp, hends.1⟩
  have hleading : (table.tokens[done.length]?.any (·.leading.isEmpty)) = true := by
    simp [hs.ahead.getElem?, hglued]
  rw [step_mark hs.ahead ht, punctuator, hs.ahead.text, ht.2]
  simp only [exclamation, hleading, hoperand]
  rfl

/-- The marks of an operand that is asserted, with the member behind it. -/
inductive AssertedMarks (member : Option PlainName) : List (Token × Bool) → Prop
  | mk {mark : Token} {us vs : List Token} : TermTokens .operand us → mark.IsMark "!" →
      mark.leading = "" → Members vs → (vs = [] ↔ member = none) →
      AssertedMarks member (allKept us ++ (mark, false) :: allKept vs)

/-- The marks of an operation whose left side is asserted. -/
inductive OperationMarks (member : Option PlainName) : List (Token × Bool) → Prop
  | mk {t : Token} {text : String} {ms : List (Token × Bool)} {us : List Token} :
      AssertedMarks member ms → t.IsMark text → text ∈ "/" :: termMarks → TermTokens .operand us →
      OperationMarks member (ms ++ (t, true) :: allKept us)

namespace AssertedMarks

theorem balanced (h : AssertedMarks member ms) : Balanced (ms.map Prod.fst) := by
  obtain ⟨hus, hmark, -, hvs, -⟩ := h
  simpa using hus.balanced.append (.of_mark hmark (by decide) hvs.inert.balanced)

theorem calm (h : AssertedMarks member ms) : ∀ m ∈ ms, m.2 = true → IsCalm m.1 := by
  obtain ⟨hus, -, -, hvs, -⟩ := h
  simp only [List.forall_mem_append, List.forall_mem_cons]
  exact ⟨isCalm_allKept hus.calm, nofun, isCalm_allKept hvs.inert.calm⟩

/-- In front of the operator the nearest token ends a term. -/
theorem recent_last (h : AssertedMarks member ms) :
    ∃ v ∈ (recent (ms.reverse ++ done)).head?, v.EndsTerm := by
  obtain ⟨hus, -, -, hvs, -⟩ := h
  rename_i mark us vs
  by_cases hne : vs = []
  · subst hne
    have hlast : ∃ v ∈ (recent ((allKept us).reverse ++ done)).head?, v.EndsTerm := hus.recent_last
    simpa [allKept] using hlast
  · obtain ⟨v, hv, hname⟩ := hvs.exists_last hne
    refine ⟨v, ?_, .inl hname, hname.is_eq_false (.inr (by decide))⟩
    rw [show (allKept us ++ (mark, false) :: allKept vs).reverse ++ done =
      (allKept vs).reverse ++ ((mark, false) :: ((allKept us).reverse ++ done)) by simp,
      recent_allKept, List.head?_append, List.head?_reverse, Option.mem_def.mp hv]
    rfl

/-- Behind the assertion itself a slash starts a regular expression, behind a member it divides. -/
theorem regexAllowed (h : AssertedMarks member ms) (ns : List (Token × Bool)) :
    regexAllowed ((ns ++ ms).map Prod.fst).reverse = member.isNone := by
  obtain ⟨-, hmark, -, hvs, hmember⟩ := h
  rename_i mark us vs
  by_cases hne : vs = []
  · subst hne
    rw [hmember.mp rfl]
    simp [allKept, Script.regexAllowed, hmark.1, hmark.2]
  · obtain ⟨v, hv, hname⟩ := hvs.exists_last hne
    obtain ⟨others, rfl⟩ := List.getLast?_eq_some_iff.mp hv
    have hordinary : v.text ∉ wordsBeforeRegex := by
      obtain ⟨-, x, hx⟩ := hname
      intro hmem
      apply x.unreserved
      simp only [reservedWords, List.append_assoc]
      exact List.mem_append_left _ (hx ▸ hmem)
    rw [← List.append_assoc, List.map_append, List.reverse_append, List.map_cons, List.reverse_cons,
      map_fst_allKept, List.reverse_append, List.reverse_singleton]
    cases member with
    | none => exact absurd (hmember.mpr rfl) hne
    | some x => simp [Script.regexAllowed, hname.1, hordinary]

/-- A run removes the assertion and nothing else. -/
theorem leads (h : AssertedMarks member ms) (htable : tokenize source = .ok table)
    (hangle : ∀ k, table.is k ">" = false) (hframe : Place.operand.Holds f)
    (hcalm : Calm (recent done)) (ht : t.BehindTerm) :
    Leads table ⟨done, ms.map Prod.fst ++ t :: rest, f, outer⟩
      ⟨ms.reverse ++ done, t :: rest, f, outer⟩ := by
  obtain ⟨hus, hmark, hglued, hvs, -⟩ := h
  rename_i mark us vs
  have hoperand : Leads table ⟨done, us ++ mark :: (vs ++ t :: rest), f, outer⟩ _ :=
    hus.passes htable hangle hframe hcalm (.of_mark hmark (by decide))
  have hasserted := hoperand.trans
    (leads_exclamation (by simp) hmark hglued hus.recent_last)
  have hmembers : Leads table ⟨(mark, false) :: ((allKept us).reverse ++ done),
      vs ++ t :: rest, f, outer⟩ _ :=
    TermPasses.of_inert htable hvs.inert hframe (hcalm.marks (isCalm_allKept hus.calm)) ht
  simpa using hasserted.trans hmembers

end AssertedMarks

theorem notMem_of_infixOperator (h : text ∈ "/" :: termMarks) :
    text ∉ ["(", "[", "\x7b", ")", "]", "\x7d"] ∧ text ∉ ["=>", "\x7b", ":"] ∧
      text ∉ Erasure.bracketWords := by
  revert text
  decide

/-- An operator is passed over, a slash like the other ones. -/
theorem leads_infixOperator (hrest : rest ≠ []) (ht : t.IsMark text)
    (hmem : text ∈ "/" :: termMarks)
    (hangle : ∀ k, table.is k ">" = false)
    (hbefore : ∃ v ∈ (recent done).head?, v.EndsTerm) :
    Leads table ⟨done, t :: rest, f, outer⟩ ⟨(t, true) :: done, rest, f, outer⟩ := by
  rcases List.mem_cons.mp hmem with rfl | hterm
  · exact leads_of_onFrame id hrest fun _ hs => step_operator hs.ahead ht (by decide)
  · exact leads_termMark hrest ht hterm hangle hbefore

namespace OperationMarks

theorem balanced (h : OperationMarks member ms) : Balanced (ms.map Prod.fst) := by
  obtain ⟨hms, ht, hmem, hus⟩ := h
  have hoperator : Balanced _ := .of_mark ht (notMem_of_infixOperator hmem).1 hus.balanced
  simpa using hms.balanced.append hoperator

/-- A run removes the assertion of an operation, whatever its operator is. -/
theorem marksValue (h : OperationMarks member ms) (htable : tokenize source = .ok table)
    (hangle : ∀ k, table.is k ">" = false) : MarksValue table ms := by
  rintro done semicolon behind hcalm - hsemicolon
  obtain ⟨hms, ht, hmem, hus⟩ := h
  rename_i t text ms us
  obtain ⟨-, hbehind, hword⟩ := notMem_of_infixOperator hmem
  have hleft : Leads table ⟨done, ms.map Prod.fst ++ t :: (us ++ semicolon :: behind), _, []⟩ _ :=
    hms.leads htable hangle operand_holds_top hcalm (.of_mark ht hbehind)
  have hoperator := hleft.trans (leads_infixOperator (by simp) ht hmem hangle hms.recent_last)
  have hright := hoperator.trans (hus.passes htable hangle operand_holds_top
    ((hcalm.marks hms.calm).mark ht hword) (.of_mark hsemicolon (by decide)))
  simpa using hright

end OperationMarks

/-! ## How operations are read -/

theorem erases_exclamation : Erases "!" "" (StopsAt .punctuator "!") fun ms =>
    ∃ mark, ms = [(mark, false)] ∧ mark.IsMark "!" ∧ mark.leading = "" := by
  intro start
  have hlexed : Lexed start ("" ++ "!") _ [⟨.punctuator, "", "!", _⟩] :=
    lexed_punctuator .none (by decide) (by decide) (by decide)
  exact ⟨[(_, false)], hlexed, by simp [emitted, Token.emit], _, rfl, ⟨rfl, rfl⟩, rfl⟩

/-- The left side is read as an operand that is asserted, with the member behind it. -/
theorem AssertedValue.erases_left (v : AssertedValue) :
    ErasesPhrase (v.left "!") (v.left "") (· = ' ') (AssertedMarks v.member) := by
  obtain ⟨operand, member, operator, right⟩ := v
  have hspace : StopsAt .punctuator "!" ' ' := ⟨by decide, nofun⟩
  have hmark : Erases ("!" ++ dotted member.toList) ("" ++ dotted member.toList) (· = ' ')
      fun ms => ∃ mark vs, ms = (mark, false) :: allKept vs ∧ mark.IsMark "!" ∧
        mark.leading = "" ∧ Members vs ∧ (vs = [] ↔ member = none) := by
    cases member with
    | none =>
      refine erases_exclamation.mono (by rintro c rfl; exact hspace) ?_
      rintro _ ⟨mark, rfl, hmark, hglued⟩
      exact ⟨mark, [], rfl, hmark, hglued, .nil, by simp⟩
    | some x =>
      have hmember : Erases _ _ (· = ' ') _ := (lexes_member x).keep.mono
        (by rintro c rfl; exact .inl List.mem_cons_self) fun _ => id
      rw [show dotted (some x).toList = "." ++ x.text by simp [dotted]]
      have hpoint : StopsAt .punctuator "!" '.' := ⟨by decide, nofun⟩
      refine erases_exclamation.join hmember (by simpa using hpoint) ?_
      rintro _ _ ⟨mark, rfl, hmark, hglued⟩ ⟨_, rfl, point, name, rfl, hpoint, hname⟩
      exact ⟨mark, [point, name], rfl, hmark, hglued, .cons hpoint hname .nil, by simp⟩
  simp only [left, String.append_assoc]
  refine operand.takes.phrase.keep.join hmark (by simp [Delimits, delimiters]) ?_
  rintro _ _ ⟨us, rfl, hus⟩ ⟨mark, vs, rfl, hmark, hglued, hvs, hmember⟩
  exact .mk hus hmark hglued hvs hmember

/-- What stands in front of the operator of a constant. -/
theorem AssertedValue.erases_front (x : PlainName) (v : AssertedValue) :
    Erases ("const " ++ x.text ++ " =" ++ (" " ++ v.left "!"))
      ("const " ++ x.text ++ " =" ++ (" " ++ v.left "")) (· = ' ') fun ms =>
        ∃ word name equals vs, ms = [(word, true), (name, true), (equals, true)] ++ vs ∧
          word.IsWord "const" ∧ name.IsName ∧ equals.IsMark "=" ∧ AssertedMarks v.member vs := by
  refine (lexes_constant x).keep.join v.erases_left.spaced (by simp) ?_
  rintro _ vs ⟨_, rfl, word, name, equals, rfl, hword, hname, hequals⟩ hvs
  exact ⟨word, name, equals, vs, rfl, hword, hname, hequals, hvs⟩

/-- No closing angle bracket stands in an operation. -/
theorem AssertedValue.is_eq_false (x : PlainName) (v : AssertedValue)
    (htable : tokenize (constantText x v.source) = .ok table) (k : Nat) :
    table.is k ">" = false := by
  have hoperator : '>' ∉ v.operator.text.toList := by
    cases v.operator with
    | term o => exact fun h => (o.isTermChar _ h).1 rfl
    | divide => decide
  have hmember : '>' ∉ (dotted v.member.toList).toList := by
    cases v.member with
    | none => decide
    | some m => simpa [dotted] using fun h => (m.isTermChar _ h).1 rfl
  refine TokenTable.is_eq_false_of_not_mem htable (c := '>') ?_ (by decide) k
  simp only [constantText, source, left, String.toList_append, List.mem_append, not_or]
  exact ⟨⟨⟨⟨by decide, fun h => (x.isTermChar _ h).1 rfl⟩, by decide⟩,
    ⟨⟨⟨⟨⟨fun h => (v.operand.isTermChar _ h).1 rfl, by decide⟩, hmember⟩, by decide⟩, hoperator⟩,
      by decide⟩, fun h => (v.right.isTermChar _ h).1 rfl⟩, by decide⟩

section

variable (x : PlainName) (operand right : Term)

/-- An operator other than a slash is read behind the assertion. -/
theorem eraseTypes_termOperator (member : Option PlainName) (o : TermOperator) :
    eraseTypes (constantText x (AssertedValue.source ⟨operand, member, .term o, right⟩)) =
      .ok (constantText x (AssertedValue.erased ⟨operand, member, .term o, right⟩)) := by
  obtain ⟨v, hv⟩ : ∃ v : AssertedValue, v = ⟨operand, member, .term o, right⟩ := ⟨_, rfl⟩
  rw [← hv]
  have hwritten : ∀ left, left ++ " " ++ v.operator.text ++ " " ++ v.right.text =
      left ++ (" " ++ o.text ++ " " ++ right.text) := by
    intro left
    rw [hv]
    simp only [InfixOperator.text, String.append_assoc]
  refine eraseTypes_constantText x (P := OperationMarks v.member) ?_ (fun _ hms => hms.balanced)
    fun _ _ htable hms => hms.marksValue htable (v.is_eq_false x htable)
  rw [AssertedValue.source, AssertedValue.erased, hwritten, hwritten]
  refine v.erases_left.join (lexes_infixOperator (phrase_termOperator o) right.takes.phrase).keep
    (by simp) ?_
  rintro ms _ hms ⟨_, rfl, t, us, rfl, ht, hus⟩
  exact .mk hms ht (List.mem_cons_of_mem _ o.text_mem) hus

/-- Behind a member of what is asserted a slash divides. -/
theorem eraseTypes_division (m : PlainName) :
    eraseTypes (constantText x (AssertedValue.source ⟨operand, some m, .divide, right⟩)) =
      .ok (constantText x (AssertedValue.erased ⟨operand, some m, .divide, right⟩)) := by
  obtain ⟨v, hv⟩ : ∃ v : AssertedValue, v = ⟨operand, some m, .divide, right⟩ := ⟨_, rfl⟩
  rw [← hv]
  have hwritten : ∀ left, constantText x (left ++ " " ++ v.operator.text ++ " " ++ v.right.text) =
      "const " ++ x.text ++ " =" ++ (" " ++ left) ++ " /" ++ (" " ++ right.text ++ ";") := by
    intro left
    rw [hv, constantText_eq, show " /" = " " ++ "/" from rfl]
    simp only [InfixOperator.text, String.append_assoc]
  have hright : Erases (" " ++ right.text ++ ";") (" " ++ right.text ++ ";") (fun _ => True)
      fun ms => ∃ us semicolon, ms = allKept us ++ [(semicolon, true)] ∧
        TermTokens .operand us ∧ semicolon.IsMark ";" := by
    refine right.takes.phrase.spaced.keep.join (phrase_bracket ";" (by decide)).plain.keep
      (by simp [Delimits, delimiters]) ?_
    rintro _ _ ⟨us, rfl, hus⟩ ⟨_, rfl, semicolon, rfl, hsemicolon, -⟩
    exact ⟨us, semicolon, rfl, hus, hsemicolon⟩
  have hmark := constantText_starts_no_mark x v.source
  rw [AssertedValue.source, hwritten] at hmark
  obtain ⟨_, _, slash, last, hread, ⟨word, name, equals, vs, rfl, hword, hname, hequals, hvs⟩,
      ⟨us, semicolon, rfl, hus, hsemicolon⟩, hslash, hkind, hemitted⟩ :=
    (v.erases_front x).exists_read_division hright hmark rfl (by simp) (by
      rintro _ ⟨word, name, equals, vs, rfl, -, -, -, hvs⟩
      rw [hvs.regexAllowed, hv]
      rfl)
  have hmarks : ConstantMarks (OperationMarks v.member)
      ([(word, true), (name, true), (equals, true)] ++ vs ++
        (slash, true) :: (allKept us ++ [(semicolon, true)])) := by
    simpa using ConstantMarks.mk hword hname hequals
      (OperationMarks.mk hvs hslash List.mem_cons_self hus) hsemicolon
  rw [← hwritten, ← AssertedValue.source] at hread
  rw [← hwritten, ← AssertedValue.erased] at hemitted
  obtain ⟨table, s, htable, hrun, -, hemit⟩ := exists_run_of_read hread hkind
    (hmarks.balanced fun _ hms => hms.balanced) fun table htable =>
      ⟨_, _, hmarks.leads fun _ hms => hms.marksValue htable (v.is_eq_false x htable)⟩
  have hresult : table.emit s = constantText x v.erased := by
    rw [← String.toList_inj, hemit, hemitted]
  simp only [eraseTypes, htable, hrun, hresult]

/-- Directly behind the assertion a slash starts a regular expression, which does not end. -/
theorem eraseTypes_regex :
    eraseTypes (constantText x (AssertedValue.source ⟨operand, none, .divide, right⟩)) =
      .error (Fault.inSource ⟨.unterminatedRegex,
        ("const " ++ x.text ++ " = " ++ operand.text ++ "! ").length⟩
        (constantText x (AssertedValue.source ⟨operand, none, .divide, right⟩))) := by
  obtain ⟨v, hv⟩ : ∃ v : AssertedValue, v = ⟨operand, none, .divide, right⟩ := ⟨_, rfl⟩
  rw [← hv]
  obtain ⟨ms, hlexed, -, word, name, equals, vs, rfl, hword, hname, hequals, hvs⟩ :=
    v.erases_front x 0
  have hallowed := hvs.regexAllowed [(word, true), (name, true), (equals, true)]
  have hbalanced :
      Balanced (([(word, true), (name, true), (equals, true)] ++ vs).map Prod.fst) := by
    simpa using Balanced.of_word hword (by decide)
      (.of_name hname (.of_mark hequals (by decide) hvs.balanced))
  have hsource : (constantText x v.source).toList =
      ("const " ++ x.text ++ " =" ++ (" " ++ v.left "!")).toList ++
        ' ' :: '/' :: ' ' :: (right.text ++ ";").toList := by
    rw [hv, constantText_eq]
    simp [AssertedValue.source, InfixOperator.text]
  have hslash : '/' ∉ (right.text ++ ";").toList := by
    rw [String.toList_append, List.mem_append, not_or]
    exact ⟨fun h => (right.isTermChar _ h).2 rfl, by decide⟩
  have hread := hlexed.readTokens_regex hsource (constantText_starts_no_mark x v.source) rfl
    (by rw [hallowed, hv]; rfl) hslash
  have hplace : (constantText x v.source).length - ((right.text ++ ";").toList.length + 2) =
      ("const " ++ x.text ++ " = " ++ operand.text ++ "! ").length := by
    rw [← String.length_toList, ← String.length_toList, hsource, hv]
    simp only [AssertedValue.left, dotted, Option.toList_none, String.toList_append,
      List.length_append, List.length_cons]
    simp
    omega
  simp only [eraseTypes, tokenize_fault hread hbalanced, hplace]

end

/-- An asserted operand is written without its assertion, in front of every operator but a slash.
A slash behind the assertion is taken for the start of a regular expression. -/
theorem eraseTypes_assertedValue (x : PlainName) (v : AssertedValue) :
    eraseTypes (constantText x v.source) =
      if v.startsRegex then
        .error (Fault.inSource ⟨.unterminatedRegex,
          ("const " ++ x.text ++ " = " ++ v.operand.text ++ "! ").length⟩ (constantText x v.source))
      else .ok (constantText x v.erased) := by
  obtain ⟨operand, member, operator, right⟩ := v
  cases operator with
  | term o => exact eraseTypes_termOperator x operand right member o
  | divide =>
    cases member with
    | some m => exact eraseTypes_division x operand right m
    | none => exact eraseTypes_regex x operand right

theorem isPlainName_a : isPlainName "a" = true := by decide

theorem isPlainName_b : isPlainName "b" = true := by decide

/-- A quotient whose numerator is asserted. -/
def assertedQuotient : AssertedValue where
  operand := .name (.ofText "a" isPlainName_a)
  member := none
  operator := .divide
  right := .name (.ofText "b" isPlainName_b)

/-- The slash of a quotient is taken for the start of a regular expression. -/
theorem asserted_quotient_refused :
    constantText (.ofText "v" (by decide)) assertedQuotient.source = "const v = a! / b;" ∧
      eraseTypes "const v = a! / b;" = .error ⟨.unterminatedRegex, ⟨1, 14⟩⟩ := by
  decide +kernel

end Workflow.Script
