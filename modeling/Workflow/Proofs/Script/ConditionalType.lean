import Workflow.Proofs.Script.DeclarationPhrase
import Workflow.Proofs.Script.TypedClass
import Workflow.Proofs.Script.UntypedStatement

/-!
# Conditional types

An alias for a conditional type is removed as a whole, however deep its conditions nest, as long
as the type behind each `extends` is one operand. Behind the first operand of a union or an
intersection the mark of the condition is missing, and the script is refused.
-/

namespace Workflow.Script

open Erasure

/-- A type that may depend on conditions. -/
inductive ConditionalType where
  | plain (T : Ty)
  | conditional (check bound : Ty) (yes no : ConditionalType)

namespace ConditionalType

/-- A conditional type as it is written. -/
def text : ConditionalType → String
  | .plain T => T.text
  | .conditional check bound yes no =>
    check.text ++ " extends " ++ bound.text ++ " ? " ++ yes.text ++ " : " ++ no.text

/-- The types behind the words `extends`. -/
def bounds : ConditionalType → List Ty
  | .plain _ => []
  | .conditional _ bound yes no => bound :: (yes.bounds ++ no.bounds)

/-- The tokens of a conditional type. -/
def ReadAs : ConditionalType → List Token → Prop
  | .plain T, ts => T.ReadAs ts
  | .conditional check bound yes no, ts => ∃ (word question colon : Token)
      (cs bs ys ns : List Token), ts = cs ++ word :: (bs ++ question :: (ys ++ colon :: ns)) ∧
        check.ReadAs cs ∧ (word.IsWord "extends" ∧ word.startsLine = false) ∧ bound.ReadAs bs ∧
        question.IsMark "?" ∧ yes.ReadAs ys ∧ colon.IsMark ":" ∧ no.ReadAs ns

end ConditionalType

/-- A name with type parameters for a type. -/
structure ConditionalAlias where
  name : PlainName
  parameter : PlainName
  others : List PlainName
  type : ConditionalType

def ConditionalAlias.text (a : ConditionalAlias) : String :=
  "type " ++ a.name.text ++ angled ((a.parameter :: a.others).map PlainName.text) ++ " = " ++
    a.type.text ++ ";"

variable {source : String} {table : TokenTable} {ts behind rest : List Token} {next last : Token}
  {done : List (Token × Bool)} {k b y n e : Nat} {cause : Cause}

namespace TokenTable

/-- A token with one text has no other one. -/
theorem is_eq_false_of_is {text other : String} (h : table.is k text = true)
    (hne : text ≠ other) : table.is k other = false :=
  Bool.eq_false_iff.mpr fun his => hne ((text_of_is h).symm.trans (text_of_is his))

/-! ## Where a condition ends -/

/-- A mark that is required and stands there is passed. -/
theorem expect_eq {text : String} (h : table.is k text = true) :
    table.expect k text = .ok ⟨k + 1, Nat.lt_succ_self k⟩ := by
  rw [expect, if_pos h]

/-- Behind `extends` the bound is read, and then both branches. -/
theorem typeEndFrom_of_extends (hextends : table.is k "extends" = true)
    (hline : table.startsLine k = false) {hlt : k + 1 < b}
    (hbound : table.operandEnd (k + 1) = .ok ⟨b, hlt⟩) : table.typeEndFrom k = (do
      let ⟨yes, hYes⟩ ← table.expect b "?"
      let ⟨colon, hColon⟩ ← table.typeEnd yes
      let ⟨no, hNo⟩ ← table.expect colon ":"
      let ⟨m, hm⟩ ← table.typeEnd no
      let ⟨e, he⟩ ← table.typeEndFrom m
      return ⟨e, Index.le_of_steps hlt hYes hColon hNo hm he⟩) := by
  have hunion : table.is k "|" = false := is_eq_false_of_is hextends (by decide)
  have hintersection : table.is k "&" = false := is_eq_false_of_is hextends (by decide)
  rw [typeEndFrom, dif_neg (by simp [hunion, hintersection]), dif_pos ⟨hextends, by simp [hline]⟩,
    hbound]
  rfl

section

variable (hextends : table.is k "extends" = true) (hline : table.startsLine k = false)
  (hbound : Answers (table.operandEnd (k + 1)) b)
include hextends hline hbound

/-- A conditional type goes on behind its second branch. -/
theorem typeEndFrom_extends (hquestion : table.is b "?" = true)
    (hyes : Answers (table.typeEnd (b + 1)) y) (hcolon : table.is y ":" = true)
    (hno : Answers (table.typeEnd (y + 1)) n) (hrest : Answers (table.typeEndFrom n) e) :
    Answers (table.typeEndFrom k) e := by
  obtain ⟨_, hbound⟩ := hbound
  obtain ⟨_, hyes⟩ := hyes
  obtain ⟨_, hno⟩ := hno
  obtain ⟨_, hrest⟩ := hrest
  rw [typeEndFrom_of_extends hextends hline hbound]
  simp only [bind, Except.bind, expect_eq hquestion, hyes, expect_eq hcolon, hno, hrest]
  exact ⟨_, rfl⟩

/-- The mark of the condition is missing behind what is read of its bound. -/
theorem typeEndFrom_extends_bound (hquestion : table.is b "?" = false) :
    Fails (table.typeEndFrom k) (.expected "?") := by
  have hexpect : table.expect b "?" = .error (table.fault b (.expected "?")) := by
    rw [expect, if_neg (by simp [hquestion])]
  obtain ⟨_, hbound⟩ := hbound
  rw [typeEndFrom_of_extends hextends hline hbound]
  simp only [bind, Except.bind, hexpect]
  exact ⟨_, rfl⟩

/-- A conditional type cannot be read if its first branch cannot. -/
theorem typeEndFrom_extends_yes (hquestion : table.is b "?" = true)
    (hyes : Fails (table.typeEnd (b + 1)) cause) : Fails (table.typeEndFrom k) cause := by
  obtain ⟨_, hbound⟩ := hbound
  obtain ⟨offset, hyes⟩ := hyes
  rw [typeEndFrom_of_extends hextends hline hbound]
  simp only [bind, Except.bind, expect_eq hquestion, hyes]
  exact ⟨_, rfl⟩

/-- A conditional type cannot be read if its second branch cannot. -/
theorem typeEndFrom_extends_no (hquestion : table.is b "?" = true)
    (hyes : Answers (table.typeEnd (b + 1)) y) (hcolon : table.is y ":" = true)
    (hno : Fails (table.typeEnd (y + 1)) cause) : Fails (table.typeEndFrom k) cause := by
  obtain ⟨_, hbound⟩ := hbound
  obtain ⟨_, hyes⟩ := hyes
  obtain ⟨offset, hno⟩ := hno
  rw [typeEndFrom_of_extends hextends hline hbound]
  simp only [bind, Except.bind, expect_eq hquestion, hyes, expect_eq hcolon, hno]
  exact ⟨_, rfl⟩

end

/-! ## Where an alias ends -/

section

variable {p : Nat} (hangle : table.is k "<" = true ∧ Answers (table.angleEnd k) p)
  (hequals : table.is p "=" = true)
include hangle hequals

/-- An alias with parameters ends behind its semicolon. -/
theorem aliasEnd_list (htype : Answers (table.typeEnd (p + 1)) e)
    (hsemicolon : table.is e ";" = true) : Answers (table.aliasEnd k) (e + 1) := by
  obtain ⟨hless, _, hangle⟩ := hangle
  obtain ⟨_, htype⟩ := htype
  unfold aliasEnd
  simp only [hless, if_true, hangle, bind, Except.bind, pure, Except.pure, expect_eq hequals, htype,
    afterSemicolon_eq hsemicolon]
  exact ⟨_, rfl⟩

/-- An alias cannot be read if its type cannot. -/
theorem aliasEnd_fails (htype : Fails (table.typeEnd (p + 1)) cause) :
    Fails (table.aliasEnd k) cause := by
  obtain ⟨hless, _, hangle⟩ := hangle
  obtain ⟨offset, htype⟩ := htype
  unfold aliasEnd
  simp only [hless, if_true, hangle, bind, Except.bind, pure, Except.pure, expect_eq hequals, htype]
  exact ⟨_, rfl⟩

end

section

variable (htext : table.text k = "type") (hname : table.isWord (k + 1) = true)
  (hless : table.is (k + 2) "<" = true)
include htext hname hless

/-- A name with type parameters behind `type` makes the statement an alias. -/
theorem statementRemoval_alias : table.statementRemoval k = (do
      let ⟨e, he⟩ ← table.aliasEnd (k + 2)
      return some ⟨k, e, Index.lt_of_two_lt he⟩) := by
  have hexport : table.is k "export" = false :=
    Bool.eq_false_iff.mpr fun his => absurd ((text_of_is his).symm.trans htext) (by decide)
  unfold TokenTable.statementRemoval
  dsimp only
  have hhead : (if table.is k "export" then (⟨k + 1, Nat.le_succ k⟩ : { j : Nat // k ≤ j })
      else ⟨k, Nat.le_refl k⟩) = ⟨k, Nat.le_refl k⟩ := by
    rw [hexport]
    rfl
  generalize (if table.is k "export" then (⟨k + 1, Nat.le_succ k⟩ : { j : Nat // k ≤ j })
    else ⟨k, Nat.le_refl k⟩) = head at hhead ⊢
  subst hhead
  simp only [htext, hname, hless, Bool.or_true, Bool.and_true, if_true]

/-- An alias is removed up to where its type ends. -/
theorem statementRemoval_alias_ok (halias : Answers (table.aliasEnd (k + 2)) e) :
    ∃ hlt, table.statementRemoval k = .ok (some ⟨k, e, hlt⟩) := by
  obtain ⟨hlt, halias⟩ := halias
  rw [statementRemoval_alias htext hname hless, halias]
  exact ⟨by omega, rfl⟩

/-- A source with an alias that cannot be read is refused. -/
theorem statementRemoval_alias_fails (halias : Fails (table.aliasEnd (k + 2)) cause) :
    Fails (table.statementRemoval k) cause := by
  obtain ⟨offset, halias⟩ := halias
  rw [statementRemoval_alias htext hname hless, halias]
  exact ⟨offset, rfl⟩

end

end TokenTable

section

variable {T : Ty} {word : Token}

/-- No operand goes on with `extends`. -/
theorem TokenTable.postfixEnd_extends (hk : table.Ahead k (word :: behind))
    (hword : word.IsWord "extends") : Answers (table.postfixEnd k) k := by
  refine postfixEnd_self ?_ ?_ ?_
  all_goals
    rw [hk.is, hword.is]
    rfl

/-- A type that is checked is read, and then what stands behind it from `extends` on. -/
theorem Ty.ReadAs.typeEnd_extends (h : T.ReadAs ts) (htable : tokenize source = .ok table)
    (hk : table.Ahead k (ts ++ word :: behind)) (hword : word.IsWord "extends")
    (hrest : Answers (table.typeEndFrom (k + ts.length)) e)
    (hstop : Answers (table.typeEndFrom e) e) : Answers (table.typeEnd k) e := by
  have hpostfix := TokenTable.postfixEnd_extends hk.append hword
  have hfrom := h.type.typeFrom htable hk (hword.is _) (hword.is _) (fun _ => hword.is _)
    ⟨_, hpostfix, hrest, hstop⟩
  obtain ⟨t, others, rfl, ht⟩ := h.type.exists_startsType
  exact hfrom.typeEnd hk ht

/-- A type cannot be read if what stands behind it from `extends` on cannot. -/
theorem Ty.ReadAs.typeEnd_extends_fails (h : T.ReadAs ts) (htable : tokenize source = .ok table)
    (hk : table.Ahead k (ts ++ word :: behind)) (hword : word.IsWord "extends")
    (hrest : Fails (table.typeEndFrom (k + ts.length)) cause) : Fails (table.typeEnd k) cause := by
  have hpostfix := TokenTable.postfixEnd_extends hk.append hword
  have hfails := h.type.typeFails htable hk (hword.is _) (hword.is _) (fun _ => hword.is _)
    ⟨_, hpostfix, hrest⟩
  obtain ⟨t, others, rfl, ht⟩ := h.type.exists_startsType
  exact hfails.typeEnd hk ht

end

namespace ConditionalType

/-- The tokens of a conditional type are balanced. -/
theorem ReadAs.balanced {c : ConditionalType} (h : c.ReadAs ts) : Balanced ts := by
  induction c generalizing ts with
  | plain T => exact h.type.enclosed.balanced
  | conditional check bound yes no ihYes ihNo =>
    obtain ⟨word, question, colon, cs, bs, ys, ns, rfl, hcs, ⟨hword, -⟩, hbs, hquestion, hys,
      hcolon, hns⟩ := h
    have hbranches := (ihYes hys).append (.of_mark hcolon (by decide) (ihNo hns))
    exact hcs.type.enclosed.balanced.append (.of_word hword (by decide)
      (hbs.type.enclosed.balanced.append (.of_mark hquestion (by decide) hbranches)))

/-- A conditional type with operands behind `extends` ends in front of a token that no type goes on
with. -/
theorem ReadAs.typeEnd {c : ConditionalType} (h : c.ReadAs ts)
    (hbounds : ∀ T ∈ c.bounds, T.isOperand = true) (htable : tokenize source = .ok table)
    (hk : table.Ahead k (ts ++ next :: behind)) (hnext : next.EndsType true) :
    Answers (table.typeEnd k) (k + ts.length) := by
  induction c generalizing ts k next behind with
  | plain T => exact h.type.typeEnd htable hk hnext.outside fun _ => hnext.arrow rfl
  | conditional check bound yes no ihYes ihNo =>
    obtain ⟨word, question, colon, cs, bs, ys, ns, rfl, hcs, ⟨hword, hline⟩, hbs, hquestion, hys,
      hcolon, hns⟩ := h
    simp only [bounds, List.forall_mem_cons, List.forall_mem_append] at hbounds
    obtain ⟨hbound, hyes, hno⟩ := hbounds
    have hcheck : table.Ahead k
        (cs ++ word :: (bs ++ question :: (ys ++ colon :: (ns ++ next :: behind)))) := by
      simpa using hk
    have hextends := hcheck.append
    have hmark := hextends.tail.append
    have hbranch := hmark.tail.append
    have hend := hbranch.tail.append
    have hstops : question.EndsType true := hquestion.endsType (by decide) fun _ => by decide
    have hbounded := (hbs.operand hbound).operandEnd htable hextends.tail hstops.outside
      fun _ => hquestion.is _
    have hpositive := ihYes hys hyes hmark.tail
      (hcolon.endsType (by decide) fun _ => by decide)
    have hnegative := ihNo hns hno hbranch.tail hnext
    have hstop : Answers (table.typeEndFrom _) _ := TokenTable.typeEndFrom_self
      ((hend.is _).trans (hnext.outside _ (by decide)))
      ((hend.is _).trans (hnext.outside _ (by decide)))
      ((hend.is _).trans (hnext.outside _ (by decide)))
    have hrest := TokenTable.typeEndFrom_extends ((hextends.is _).trans (hword.is _))
      (hextends.startsLine.trans hline) hbounded ((hmark.is _).trans (hquestion.is _)) hpositive
      ((hbranch.is _).trans (hcolon.is _)) hnegative hstop
    convert hcs.typeEnd_extends htable hcheck hword hrest hstop using 1
    simp only [List.length_append, List.length_cons]
    omega

/-- With a union or an intersection behind `extends`, a conditional type cannot be read. -/
theorem ReadAs.typeEnd_fails {c : ConditionalType} (h : c.ReadAs ts)
    (hbounds : ¬ ∀ T ∈ c.bounds, T.isOperand = true) (htable : tokenize source = .ok table)
    (hk : table.Ahead k (ts ++ next :: behind)) : Fails (table.typeEnd k) (.expected "?") := by
  induction c generalizing ts k next behind with
  | plain T => exact absurd (List.forall_mem_nil _) hbounds
  | conditional check bound yes no ihYes ihNo =>
    obtain ⟨word, question, colon, cs, bs, ys, ns, rfl, hcs, ⟨hword, hline⟩, hbs, hquestion, hys,
      hcolon, hns⟩ := h
    have hcheck : table.Ahead k
        (cs ++ word :: (bs ++ question :: (ys ++ colon :: (ns ++ next :: behind)))) := by
      simpa using hk
    have hextends := hcheck.append
    have hmark := hextends.tail.append
    have hbranch := hmark.tail.append
    have hword' : table.is (k + cs.length) "extends" = true := (hextends.is _).trans (hword.is _)
    have hline' : table.startsLine (k + cs.length) = false := hextends.startsLine.trans hline
    refine hcs.typeEnd_extends_fails htable hcheck hword ?_
    by_cases hbound : bound.isOperand = true
    · have hstops : question.EndsType true := hquestion.endsType (by decide) fun _ => by decide
      have hbounded := (hbs.operand hbound).operandEnd htable hextends.tail hstops.outside
        fun _ => hquestion.is _
      have hquestion' := (hmark.is "?").trans (hquestion.is _)
      by_cases hyes : ∀ T ∈ yes.bounds, T.isOperand = true
      · have hno : ¬ ∀ T ∈ no.bounds, T.isOperand = true := fun hno =>
          hbounds (by simpa only [bounds, List.forall_mem_cons, List.forall_mem_append] using
            ⟨hbound, hyes, hno⟩)
        exact TokenTable.typeEndFrom_extends_no hword' hline' hbounded hquestion'
          (hys.typeEnd hyes htable hmark.tail (hcolon.endsType (by decide) fun _ => by decide))
          ((hbranch.is _).trans (hcolon.is _)) (ihNo hns hno hbranch.tail)
      · exact TokenTable.typeEndFrom_extends_yes hword' hline' hbounded hquestion'
          (ihYes hys hyes hmark.tail)
    · obtain ⟨m, hm, hjoins⟩ :=
        (hbs.joined (Bool.eq_false_iff.mpr hbound)).exists_operandEnd htable hextends.tail
      refine TokenTable.typeEndFrom_extends_bound hword' hline' hm ?_
      rcases (Bool.or_eq_true _ _).mp hjoins with hmark | hmark
      · exact TokenTable.is_eq_false_of_is hmark (by decide)
      · exact TokenTable.is_eq_false_of_is hmark (by decide)

/-- A conditional type is read as one. -/
theorem phrase (c : ConditionalType) : Phrase c.text Delimits c.ReadAs := by
  induction c with
  | plain T => exact T.phrase_readAs
  | conditional check bound yes no ihYes ihNo =>
    have hno := lexes_operator ":" (by decide) ihNo
    have hyes : Phrase (yes.text ++ (" " ++ ":" ++ " " ++ no.text)) Delimits
        fun ts => ∃ ys colon ns, ts = ys ++ colon :: ns ∧ yes.ReadAs ys ∧ colon.IsMark ":" ∧
          no.ReadAs ns := by
      refine ihYes.join hno (by simp [Delimits, delimiters]) ?_
      rintro ys _ hys ⟨colon, ns, rfl, hcolon, hns⟩
      exact ⟨ys, colon, ns, rfl, hys, hcolon, hns⟩
    have hbound := bound.phrase_readAs.spaced.append (lexes_operator "?" (by decide) hyes)
      (by simp [Delimits, delimiters])
    have hextends := (phrase_word "extends" (by decide)).spaced.onLine.append hbound (by simp)
    have hextends' : " extends " = " " ++ "extends" ++ " " := rfl
    have hquestion : " ? " = " " ++ "?" ++ " " := rfl
    have hcolon : " : " = " " ++ ":" ++ " " := rfl
    rw [show (conditional check bound yes no).text = check.text ++ (" " ++ "extends" ++
      (" " ++ bound.text ++ (" " ++ "?" ++ " " ++
        (yes.text ++ (" " ++ ":" ++ " " ++ no.text))))) by
      simp only [text, hextends', hquestion, hcolon, String.append_assoc]]
    refine check.phrase_readAs.join hextends (by simp [Delimits, delimiters]) ?_
    rintro cs _ hcs ⟨_, _, rfl, ⟨⟨word, rfl, hword⟩, hline⟩, bs, _, rfl, hbs, question, _, rfl,
      hquestion, ys, colon, ns, rfl, hys, hcolon, hns⟩
    exact ⟨word, question, colon, cs, bs, ys, ns, rfl, hcs,
      ⟨hword, hline word List.mem_cons_self⟩, hbs, hquestion, hys, hcolon, hns⟩

end ConditionalType

/-! ## Aliases -/

/-- The tokens of an alias. -/
def ConditionalAlias.ReadAs (a : ConditionalAlias) (ts : List Token) : Prop :=
  ∃ (word name first last equals semicolon : Token) (inner us : List Token),
    ts = word :: name :: first :: (inner ++ last :: equals :: (us ++ [semicolon])) ∧
      word.IsWord "type" ∧ name.IsName ∧ first.IsMark "<" ∧ Enclosed inner ∧ last.IsMark ">" ∧
      equals.IsMark "=" ∧ a.type.ReadAs us ∧ semicolon.IsMark ";"

namespace ConditionalAlias

variable {a : ConditionalAlias}

theorem ReadAs.balanced (h : a.ReadAs ts) : Balanced ts := by
  obtain ⟨word, name, first, last, equals, semicolon, inner, us, rfl, hword, hname, hfirst, hinner,
    hlast, hequals, hus, hsemicolon⟩ := h
  have htype := hus.balanced.append (.of_mark hsemicolon (by decide) .nil)
  have hlist := hinner.balanced.append
    (.of_mark hlast (by decide) (.of_mark hequals (by decide) htype))
  exact .of_word hword (by decide) (.of_name hname (.of_mark hfirst (by decide) hlist))

/-- An alias is removed with its last token, or it cannot be read. -/
theorem ReadAs.statementRemoval (h : a.ReadAs ts) (htable : tokenize source = .ok table)
    (hk : table.Ahead k (ts ++ next :: behind)) :
    ((∀ T ∈ a.type.bounds, T.isOperand = true) →
      ∃ hlt, table.statementRemoval k = .ok (some ⟨k, k + ts.length, hlt⟩)) ∧
    ((¬ ∀ T ∈ a.type.bounds, T.isOperand = true) →
      Fails (table.statementRemoval k) (.expected "?")) := by
  obtain ⟨word, name, first, last, equals, semicolon, inner, us, rfl, hword, hname, hfirst, hinner,
    hlast, hequals, hus, hsemicolon⟩ := h
  have hall : table.Ahead k (word :: name :: first :: (inner ++ last :: equals ::
      (us ++ semicolon :: next :: behind))) := by
    simpa using hk
  have hlist := hall.tail.tail
  have hmark := hlist.tail.append.tail
  have htext : table.text k = "type" := hall.text.trans hword.2
  have hname' : table.isWord (k + 1) = true := by
    rw [hall.tail.isWord, hname.1]
    rfl
  have hless : table.is (k + 2) "<" = true := (hlist.is _).trans (hfirst.is _)
  have hequals' := (hmark.is "=").trans (hequals.is _)
  have hangle := hinner.angleEnd htable hlist hfirst hlast
  constructor
  · intro hbounds
    have htype := hus.typeEnd hbounds htable hmark.tail
      (hsemicolon.endsType (by decide) fun _ => by decide)
    have halias := TokenTable.aliasEnd_list ⟨hless, hangle⟩ hequals' htype
      ((hmark.tail.append.is _).trans (hsemicolon.is _))
    have hlength : k + (word :: name :: first :: (inner ++ last :: equals ::
        (us ++ [semicolon]))).length = k + 2 + 1 + inner.length + 1 + 1 + us.length + 1 := by
      simp only [List.length_cons, List.length_append, List.length_nil]
      omega
    rw [hlength]
    exact TokenTable.statementRemoval_alias_ok htext hname' hless halias
  · intro hbounds
    exact TokenTable.statementRemoval_alias_fails htext hname' hless
      (TokenTable.aliasEnd_fails ⟨hless, hangle⟩ hequals'
        (hus.typeEnd_fails hbounds htable hmark.tail))

/-- Where nothing is kept, a run removes an alias. -/
theorem ReadAs.leads (h : a.ReadAs ts) (hbounds : ∀ T ∈ a.type.bounds, T.isOperand = true)
    (htable : tokenize source = .ok table) (hrecent : recent done = []) :
    Leads table ⟨done, ts ++ next :: behind, .fresh .top, []⟩
      ⟨(allRemoved ts).reverse ++ done, next :: behind, .fresh .top, []⟩ := by
  have halias := h
  obtain ⟨word, name, first, last, equals, semicolon, inner, us, rfl, hword, -⟩ := h
  refine leads_of_removal fun s hs => ?_
  have hstarts := startsStatement_of_recent hs hrecent hword.1
  obtain ⟨hlt, hremoval⟩ := (halias.statementRemoval htable hs.ahead).1 hbounds
  refine ⟨_, hlt, rfl, ?_⟩
  rw [step, removalAt, if_pos hstarts, hremoval]
  rfl

/-- An alias is read at the start of a source. -/
theorem lexes (a : ConditionalAlias) : Lexes a.text (fun _ => True) a.ReadAs := by
  have hvalue := lexes_operator "=" (by decide) a.type.phrase
  have hend := hvalue.append (phrase_bracket ";" (by decide)).plain (by simp [Delimits, delimiters])
  have hparameters : ∀ text ∈ a.parameter.text :: a.others.map PlainName.text,
      Phrase text Delimits Enclosed := by
    rw [← List.map_cons]
    intro text htext
    obtain ⟨x, -, rfl⟩ := List.mem_map.mp htext
    exact x.phrase_enclosed
  have hlist := (lexes_angle a.parameter.opensList hparameters).append hend (by simp)
  have hnamed := (phrase_name a.name).spaced.append hlist (by simp [Delimits, delimiters])
  have htype := phrase_letters (show "type".toList = 't' :: ['y', 'p', 'e'] from rfl) (by decide)
    (List.all_eq_true.mp (by decide))
  have hword : "type " = "type" ++ " " := rfl
  have hequals : " = " = " " ++ "=" ++ " " := rfl
  rw [show a.text = "type" ++ (" " ++ a.name.text ++ ("<" ++ (", ".intercalate
    (a.parameter.text :: a.others.map PlainName.text) ++ ">") ++
      (" " ++ "=" ++ " " ++ a.type.text ++ ";"))) by
    simp only [text, angled, List.map_cons, hword, hequals, String.append_assoc]]
  refine htype.plain.join hnamed (by simp; decide) ?_
  rintro _ _ ⟨word, rfl, hword⟩ ⟨_, _, rfl, ⟨name, rfl, hname⟩, _, _, rfl,
    ⟨first, inner, last, rfl, hfirst, -, hinner, hlast⟩, _, _, rfl,
    ⟨equals, us, rfl, hequals, hus⟩, semicolon, rfl, hsemicolon, -⟩
  exact ⟨word, name, first, last, equals, semicolon, inner, us, by simp, hword, hname, hfirst,
    hinner, hlast, hequals, hus, hsemicolon⟩

/-- The text of an alias starts with its keyword. -/
theorem starts_no_mark (a : ConditionalAlias) (rest : String) :
    ¬ ['#', '!'] <+: (a.text ++ rest).toList := by
  simp only [text, String.append_assoc]
  rw [String.toList_append]
  exact fun h => by cases (List.cons_prefix_cons.mp h).1

end ConditionalAlias

/-- A run fails where its step fails. -/
theorem Erasure.run_fails {s : Erasure} {i : Nat} (hi : i < table.finish)
    (hkeeps : s.keeps i = true) (h : Fails (s.step table i) cause) :
    Fails (run table s i) cause := by
  obtain ⟨offset, h⟩ := h
  refine ⟨offset, ?_⟩
  rw [run, dif_pos hi, if_pos hkeeps, h]

/-- Constants on lines of their own, behind other lines. -/
def constantLines (b : Constant) (bs : List Constant) : String :=
  "\n" ++ b.text ++ following "\n" (bs.map Constant.text)

/-- The marks of an alias with constants behind it. -/
def AliasMarks (a : ConditionalAlias) (lines : String) (ms : List (Token × Bool)) : Prop :=
  ∃ ts us, ms = allRemoved ts ++ allKept us ∧ a.ReadAs ts ∧ ConstantsTokens us ∧
    charactersOf ts = a.text.toList ∧ charactersOf us = lines.toList

namespace AliasMarks

variable {a : ConditionalAlias} {lines : String} {ms : List (Token × Bool)}

/-- The tokens of a source with an alias are balanced. -/
theorem balanced (h : AliasMarks a lines ms) : Balanced (ms.map Prod.fst) := by
  obtain ⟨ts, us, rfl, hts, hus, -⟩ := h
  rw [List.map_append, map_fst_allRemoved, map_fst_allKept]
  exact hts.balanced.append hus.balanced

/-- A run over an alias and constants keeps the constants. -/
theorem leads (h : AliasMarks a lines ms) (hbounds : ∀ T ∈ a.type.bounds, T.isOperand = true)
    (htable : tokenize source = .ok table) :
    Leads table ⟨[], ms.map Prod.fst ++ [last], .fresh .top, []⟩
      ⟨ms.reverse, [last], topFrame none, []⟩ := by
  obtain ⟨ts, us, rfl, hts, hus, -⟩ := h
  have hrest : Leads table ⟨(allRemoved ts).reverse ++ [], us ++ [last], .fresh .top, []⟩ _ :=
    hus.leads htable (by rw [recent_allRemoved]; exact calm_nil)
      (unpointed_nil.of_recent recent_allRemoved)
  obtain ⟨next, behind, hnext⟩ : ∃ next behind, us ++ [last] = next :: behind :=
    List.exists_cons_of_ne_nil (by simp)
  have halias : Leads table ⟨[], ts ++ (us ++ [last]), .fresh .top, []⟩
      ⟨(allRemoved ts).reverse ++ [], us ++ [last], .fresh .top, []⟩ := by
    rw [hnext]
    exact hts.leads hbounds htable rfl
  simpa using halias.trans hrest

/-- A run over an alias that cannot be read fails. -/
theorem fails (h : AliasMarks a lines ms) (hbounds : ¬ ∀ T ∈ a.type.bounds, T.isOperand = true)
    (htable : tokenize source = .ok table)
    (htokens : table.tokens.toList = ms.map Prod.fst ++ [last]) :
    Fails (run table (.start table) 0) (.expected "?") := by
  obtain ⟨ts, us, rfl, hts, hus, -⟩ := h
  rw [List.map_append, map_fst_allRemoved, map_fst_allKept, List.append_assoc] at htokens
  obtain ⟨next, behind, hnext⟩ : ∃ next behind, us ++ [last] = next :: behind :=
    List.exists_cons_of_ne_nil (by simp)
  rw [hnext] at htokens
  have halias := hts
  obtain ⟨word, name, first, last, equals, semicolon, inner, us', rfl, hword, -⟩ := hts
  have hs : (Erasure.start table).Fits table ⟨[], word :: (_ ++ next :: behind), .fresh .top, []⟩ :=
    htokens ▸ fits_start
  have hremoval := (halias.statementRemoval htable hs.ahead).2 hbounds
  have hstep : Fails ((Erasure.start table).step table 0) (.expected "?") := by
    obtain ⟨offset, hremoval⟩ := hremoval
    have hstarts : (Erasure.start table).startsStatement table 0 = true :=
      startsStatement_of_recent hs rfl hword.1
    refine ⟨offset, ?_⟩
    rw [step, removalAt, if_pos hstarts]
    exact hremoval ▸ rfl
  exact run_fails (hs.marks.lt_finish (by simp)) hs.marks.keeps hstep

end AliasMarks

/-- With constants on the lines behind it, an alias is left out. -/
theorem ConditionalAlias.erases (a : ConditionalAlias) (b : Constant) (bs : List Constant) :
    Erases (a.text ++ constantLines b bs) (constantLines b bs) (fun _ => True)
      (AliasMarks a (constantLines b bs)) := by
  have hconstants := (erases_constants b bs (.inr rfl)).withCharacters
  have hjoined := a.lexes.remove.withCharacters.append hconstants (by simp)
  rw [String.empty_append] at hjoined
  refine hjoined.mono (fun _ => id) ?_
  rintro _ ⟨_, _, rfl, ⟨⟨ts, rfl, hts⟩, hcharacters⟩, ⟨us, rfl, hus⟩, hcharacters'⟩
  rw [map_fst_allRemoved] at hcharacters
  rw [map_fst_allKept] at hcharacters'
  exact ⟨ts, us, rfl, hts, hus, hcharacters, hcharacters'⟩

/-- An alias for a conditional type with constants behind it is removed, and the constants are left
as they are, if one operand stands behind each `extends`. Otherwise the script is refused. -/
theorem eraseTypes_conditionalAlias (a : ConditionalAlias) (b : Constant) (bs : List Constant) :
    if ∀ T ∈ a.type.bounds, T.isOperand = true then
      eraseTypes (a.text ++ constantLines b bs) = .ok (constantLines b bs) ∧
        ∃ table s ts us last, tokenize (a.text ++ constantLines b bs) = .ok table ∧
          Erasure.run table (.start table) 0 = .ok s ∧
          table.marked s = allRemoved ts ++ allKept us ++ [(last, true)] ∧
          charactersOf ts = a.text.toList ∧ charactersOf us = (constantLines b bs).toList ∧
          last.kind = .finish
    else
      ∃ place, eraseTypes (a.text ++ constantLines b bs) = .error ⟨.expected "?", place⟩ := by
  have herases := a.erases b bs
  have hmark := a.starts_no_mark (constantLines b bs)
  split
  case isTrue hbounds =>
    obtain ⟨table, s, _, last, htable, hrun, ⟨ts, us, rfl, -, -, hts, hus⟩, hlast, hmarked,
        hemit⟩ :=
      herases.exists_run hmark (fun _ hms => hms.balanced)
        fun _ _ _ htable hms _ => ⟨_, _, hms.leads hbounds htable⟩
    exact ⟨by simp only [eraseTypes, htable, hrun, hemit], table, s, ts, us, last, htable, hrun,
      hmarked, hts, hus, hlast⟩
  case isFalse hbounds =>
    have hempty : a.text ++ constantLines b bs ++ "" = a.text ++ constantLines b bs :=
      String.append_empty
    obtain ⟨ms, last, hread, hms, -, hkind, -⟩ := herases.exists_read_append ""
      (by rwa [hempty]) (by simp [triviaTail]) (by simp)
    rw [hempty] at hread
    obtain ⟨table, htable, htokens⟩ := exists_tokenize_of_read hread hkind hms.balanced
    obtain ⟨offset, hrun⟩ := hms.fails hbounds htable htokens
    exact ⟨_, by simp only [eraseTypes, htable, hrun, Fault.inSource]; rfl⟩

theorem isPlainName_number : isPlainName "number" = true := by decide

/-- An alias for a type that depends on being a string or a number. -/
def stringOrNumber : ConditionalAlias where
  name := .ofText "X" (by decide)
  parameter := .ofText "P" (by decide)
  others := []
  type := .conditional (.name (.ofText "P" (by decide)) [])
    (.joined .union (.name (.ofText "string" (by decide)) [])
      (.name (.ofText "number" isPlainName_number) []))
    (.plain (.number false ⟨'1', [], [], by decide, List.forall_mem_nil _, .inl rfl⟩))
    (.plain (.number false ⟨'2', [], [], by decide, List.forall_mem_nil _, .inl rfl⟩))

/-- The operator behind the first operand is taken for the end of the bound. -/
theorem conditional_union_refused :
    stringOrNumber.text ++
        constantLines ⟨.ofText "y" (by decide),
          .integer ⟨'1', [], by decide, List.forall_mem_nil _⟩⟩ [] =
      "type X<P> = P extends string | number ? 1 : 2;\nconst y = 1;" ∧
    eraseTypes "type X<P> = P extends string | number ? 1 : 2;\nconst y = 1;" =
      .error ⟨.expected "?", ⟨1, 30⟩⟩ := by
  decide +kernel

end Workflow.Script
