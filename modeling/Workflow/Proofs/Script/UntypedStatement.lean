import Workflow.Proofs.Script.TypedStatement

/-!
# Statements without types

Declarations without types, one on each line, are left as they are. A run comes out of a
declaration in the state in which it went in, so that declarations may stand one behind the
other, whatever their values are made of.
-/

namespace Workflow.Script

open Erasure

/-- A constant with its value. -/
structure Constant where
  name : PlainName
  value : Expr

def Constant.text (b : Constant) : String :=
  "const " ++ b.name.text ++ " = " ++ b.value.text ++ ";"

/-- The tokens of a constant with its value. -/
inductive ConstantTokens : List Token → Prop
  | mk {word name equals semicolon : Token} {us : List Token} : word.IsWord "const" → name.IsName →
      equals.IsMark "=" → Inert .operand us → semicolon.IsMark ";" →
      ConstantTokens (word :: name :: equals :: (us ++ [semicolon]))

/-- The tokens of constants that stand one behind the other. -/
inductive ConstantsTokens : List Token → Prop
  | nil : ConstantsTokens []
  | cons {ts us : List Token} : ConstantTokens ts → ConstantsTokens us → ConstantsTokens (ts ++ us)

variable {source : String} {table : TokenTable} {done : List (Token × Bool)}
  {ts rest : List Token} {last : Token}

namespace ConstantTokens

theorem balanced (h : ConstantTokens ts) : Balanced ts := by
  obtain ⟨hword, hname, hequals, hus, hsemicolon⟩ := h
  have hvalue := hus.balanced.append (.of_mark hsemicolon (by decide) .nil)
  exact .of_word hword (by decide) (.of_name hname (.of_mark hequals (by decide) hvalue))

theorem calm (h : ConstantTokens ts) : ∀ t ∈ ts, IsCalm t := by
  obtain ⟨hword, hname, hequals, hus, hsemicolon⟩ := h
  simp only [List.forall_mem_cons, List.forall_mem_append]
  exact ⟨isCalm_of_is hword.is (by decide), isCalm_of_isName hname,
    isCalm_of_is hequals.is (by decide), hus.calm, isCalm_of_is hsemicolon.is (by decide), by simp⟩

/-- A semicolon stands behind the value. -/
theorem unpointed (h : ConstantTokens ts) : Unpointed ((allKept ts).reverse ++ done) := by
  obtain ⟨-, -, -, -, hsemicolon⟩ := h
  rintro u hu
  rw [recent_allKept] at hu
  simp only [List.reverse_cons, List.reverse_append, List.reverse_nil, List.nil_append,
    List.cons_append, List.head?_cons, Option.mem_some_iff] at hu
  subst hu
  simp [hsemicolon.is]

/-- A run passes over a constant and its value. -/
theorem leads (h : ConstantTokens ts) (htable : tokenize source = .ok table) (hrest : rest ≠ [])
    (hcalm : Calm (recent done)) (hbefore : Unpointed done) :
    Leads table ⟨done, ts ++ rest, topFrame none, []⟩
      ⟨(allKept ts).reverse ++ done, rest, topFrame none, []⟩ := by
  obtain ⟨hword, hname, hequals, hus, hsemicolon⟩ := h
  rename_i word name equals semicolon us
  have hheading : Leads table
      ⟨done, word :: name :: equals :: (us ++ semicolon :: rest), topFrame none, []⟩ _ :=
    leads_initializer (by simp) hword hname hequals hbefore
  have hvalue := hheading.trans (leads_inert htable hus operand_allows_top nofun
    (calm_initializer hword hname hequals hcalm) (hsemicolon.follows (by decide)))
  have hend : Leads table _ ⟨(semicolon, true) :: _, rest, topFrame none, []⟩ :=
    hvalue.trans (leads_semicolon hrest hsemicolon)
  simpa [allKept] using hend

end ConstantTokens

namespace ConstantsTokens

theorem balanced (h : ConstantsTokens ts) : Balanced ts := by
  induction h with
  | nil => exact .nil
  | cons hts _ ih => exact hts.balanced.append ih

/-- A run passes over constants that stand one behind the other. -/
theorem leads (h : ConstantsTokens ts) (htable : tokenize source = .ok table)
    (hcalm : Calm (recent done)) (hbefore : Unpointed done) :
    Leads table ⟨done, ts ++ [last], topFrame none, []⟩
      ⟨(allKept ts).reverse ++ done, [last], topFrame none, []⟩ := by
  induction h generalizing done with
  | nil => exact .refl _
  | @cons ts us hts _ ih =>
    have hfirst : Leads table ⟨done, ts ++ (us ++ [last]), topFrame none, []⟩ _ :=
      hts.leads htable (by simp) hcalm hbefore
    have hcalm' : Calm (recent ((allKept ts).reverse ++ done)) :=
      hcalm.marks (isCalm_allKept hts.calm)
    simpa [allKept] using hfirst.trans (ih hcalm' hts.unpointed)

end ConstantsTokens

/-- The word `const` at the start of a source or of a line. -/
theorem erases_const {lead : String} (hlead : lead = "" ∨ lead = "\n") :
    Erases (lead ++ "const") (lead ++ "const") (· = ' ')
      fun ms => ∃ t, ms = [(t, true)] ∧ t.IsWord "const" := by
  intro start
  have htrivia : Trivia lead.toList := by
    rcases hlead with rfl | rfl
    · exact .none
    · exact .blank (by decide) .none
  have hword : Lexed start (lead ++ "const") (fun d => isNamePart d = false) _ :=
    lexed_word htrivia (show "const".toList = 'c' :: ['o', 'n', 's', 't'] from rfl)
      (by decide) (List.all_eq_true.mp (by decide))
  have hlexed : Lexed start (lead ++ "const") (· = ' ') _ :=
    hword.stops_mono (by rintro _ rfl; decide)
  refine ⟨[(⟨.word, lead, "const", start + lead.toList.length⟩, true)], hlexed, ?_, _, rfl,
    rfl, rfl⟩
  simp [emitted, Token.emit]

/-- A constant at the start of a source or of a line is kept. -/
theorem Constant.erases (b : Constant) {lead : String} (hlead : lead = "" ∨ lead = "\n") :
    Erases (lead ++ b.text) (lead ++ b.text) (fun _ => True)
      fun ms => ∃ ts, ms = allKept ts ∧ ConstantTokens ts := by
  have hvalue := lexes_operator "=" (by decide) (phrase_value b.value)
  have hconst : "const " = "const" ++ " " := rfl
  have hequals : " = " = " " ++ "=" ++ " " := rfl
  have hnamed : Lexes (" " ++ b.name.text ++ (" " ++ "=" ++ " " ++ (b.value.text ++ ";")))
      (fun _ => True) fun ts => ∃ name equals us semicolon,
        ts = name :: equals :: (us ++ [semicolon]) ∧ name.IsName ∧ equals.IsMark "=" ∧
          Inert .operand us ∧ semicolon.IsMark ";" := by
    refine (phrase_name b.name).spaced.join hvalue (by simp [Delimits, delimiters]) ?_
    rintro _ _ ⟨name, rfl, hname⟩ ⟨equals, _, rfl, hequals, us, semicolon, rfl, hus, hsemicolon⟩
    exact ⟨name, equals, us, semicolon, rfl, hname, hequals, hus, hsemicolon⟩
  rw [show lead ++ b.text = lead ++ "const" ++
    (" " ++ b.name.text ++ (" " ++ "=" ++ " " ++ (b.value.text ++ ";"))) by
      simp only [Constant.text, hconst, hequals, String.append_assoc]]
  refine (erases_const hlead).join hnamed.keep (by simp) ?_
  rintro _ _ ⟨word, rfl, hword⟩ ⟨_, rfl, name, equals, us, semicolon, rfl, hname, hequals, hrest⟩
  exact ⟨_, rfl, .mk hword hname hequals hrest.1 hrest.2⟩

/-- A constant and further ones, each on a line of its own. -/
theorem erases_constants (b : Constant) (bs : List Constant) {lead : String}
    (hlead : lead = "" ∨ lead = "\n") :
    Erases (lead ++ b.text ++ following "\n" (bs.map Constant.text))
      (lead ++ b.text ++ following "\n" (bs.map Constant.text)) (fun _ => True)
      fun ms => ∃ ts, ms = allKept ts ∧ ConstantsTokens ts := by
  induction bs generalizing b lead with
  | nil =>
    intro start
    obtain ⟨_, hlexed, hemitted, ts, rfl, hts⟩ := b.erases hlead start
    simp only [List.map_nil, following, String.append_empty]
    exact ⟨_, hlexed, hemitted, ts, rfl, by simpa using ConstantsTokens.cons hts .nil⟩
  | cons c bs ih =>
    rw [List.map_cons, following]
    refine (b.erases hlead).join (ih c (.inr rfl)) (by simp) ?_
    rintro _ _ ⟨ts, rfl, hts⟩ ⟨us, rfl, hus⟩
    exact ⟨ts ++ us, by simp [allKept], .cons hts hus⟩

/-- Constants with values that hold no types are left as they are, one on each line. -/
theorem eraseTypes_constants (bs : List Constant) :
    eraseTypes ("\n".intercalate (bs.map Constant.text)) =
      .ok ("\n".intercalate (bs.map Constant.text)) := by
  cases bs with
  | nil => decide +kernel
  | cons b bs =>
    have herases := erases_constants b bs (.inl rfl)
    rw [String.empty_append, ← intercalate_cons, ← List.map_cons] at herases
    have hmark : ¬ ['#', '!'] <+: ("\n".intercalate ((b :: bs).map Constant.text)).toList := by
      simp only [List.map_cons, intercalate_cons, Constant.text, String.append_assoc]
      exact starts_no_mark (by decide) _
    obtain ⟨table, s, -, -, htable, hrun, -, -, -, hemit⟩ := herases.exists_run hmark
      (by
        rintro _ ⟨ts, rfl, hts⟩
        rw [map_fst_allKept]
        exact hts.balanced)
      (by
        rintro table _ last htable ⟨ts, rfl, hts⟩ -
        have hleads : Leads table ⟨[], ts ++ [last], topFrame none, []⟩
            ⟨(allKept ts).reverse ++ [], [last], topFrame none, []⟩ :=
          hts.leads htable calm_nil unpointed_nil
        rw [List.append_nil] at hleads
        rw [map_fst_allKept]
        exact ⟨topFrame none, [], hleads⟩)
    simp only [eraseTypes, htable, hrun, hemit]

end Workflow.Script
