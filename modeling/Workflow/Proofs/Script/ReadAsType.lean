import Workflow.Proofs.Script.PlainPhrase
import Workflow.Proofs.Script.Stage

/-!
# What code is read as a type

Behind a bracket and a colon erasure looks for a type, whatever stands there. Of a statement it
reads the first word or operand and the members and square brackets behind it, and the type that
it finds ends behind an operand. A curly bracket behind an operand would open a body, and the
tokens of an expression have none there. Only a word with an object literal behind it is
followed by what looks like one.
-/

namespace Workflow.Script

variable {source text : String} {table : TokenTable} {k e : Nat} {t next : Token}
  {ts us behind : List Token} {a : Ending} {o : Bool} {p q : Nat → Prop}

/-- A search from the index on ends among the tokens there, behind an operand or where it
starts, and leaves the rest of an expression. -/
def EndsAmong (r : Except Fault { m : Nat // p m }) (k : Nat) (ts : List Token) : Prop :=
  ∃ front back, ts = front ++ back ∧ Answers r (k + front.length) ∧ Inert .operand back ∧
    ∀ u ∈ front.getLast?, u.EndsOperand

theorem EndsAmong.here {r : Except Fault { m : Nat // p m }} (h : Answers r k)
    (hts : Inert .operand ts) : EndsAmong r k ts := ⟨[], ts, rfl, h, hts, by simp⟩

/-- A search that passes over tokens and then goes on ends where the rest of it ends. -/
theorem EndsAmong.passed {r : Except Fault { m : Nat // p m }}
    {r' : Except Fault { m : Nat // q m }}
    {m : Nat} (h : EndsAmong r m ts) (hm : m = k + us.length)
    (hlast : ∀ u ∈ us.getLast?, u.EndsOperand) (hr : ∀ e, Answers r e → Answers r' e) :
    EndsAmong r' k (us ++ ts) := by
  obtain ⟨front, back, rfl, hanswer, hback, hfront⟩ := h
  refine ⟨us ++ front, back, by simp, hr _ ?_, hback, fun u hu => ?_⟩
  · rw [List.length_append, ← Nat.add_assoc, ← hm]
    exact hanswer
  · rw [List.getLast?_append] at hu
    cases hlast' : front.getLast? with
    | none => exact hlast u (by simpa [hlast'] using hu)
    | some v => exact hfront u (by simpa [hlast'] using hu)

namespace TokenTable

/-- An operand goes on with nothing else, or stands at the end of a line. -/
theorem postfixEnd_stop (h : table.startsLine k = true ∨ table.is k "<" = false ∧
    table.is k "[" = false ∧ ¬ (table.is k "." = true ∧ table.isWord (k + 1) = true)) :
    Answers (table.postfixEnd k) k := by
  rw [postfixEnd]
  by_cases hline : table.startsLine k = true
  · rw [if_pos hline]
    exact ⟨_, rfl⟩
  · obtain ⟨hangle, hsquare, hpoint⟩ := h.resolve_left hline
    rw [if_neg hline, dif_neg (by simp [hangle]), dif_neg (by simp [hsquare]), dif_neg hpoint]
    exact ⟨_, rfl⟩

/-- A member of an operand on its line. -/
theorem postfixEnd_member (hline : table.startsLine k = false) (hangle : table.is k "<" = false)
    (hsquare : table.is k "[" = false) (hpoint : table.is k "." = true)
    (hword : table.isWord (k + 1) = true) (h : Answers (table.postfixEnd (k + 2)) e) :
    Answers (table.postfixEnd k) e := by
  obtain ⟨_, h⟩ := h
  rw [postfixEnd, if_neg (by simp [hline]), dif_neg (by simp [hangle]), dif_neg (by simp [hsquare]),
    dif_pos ⟨hpoint, hword⟩, h]
  exact ⟨_, rfl⟩

theorem afterMembers_stop (h : ¬ (table.is k "." = true ∧ table.isWord (k + 1) = true)) :
    (table.afterMembers k).val = k := by
  rw [afterMembers, dif_neg h]

end TokenTable

/-- The token stands behind an expression and ends it. -/
structure Token.EndsExpr (t : Token) : Prop where
  endsType : t.EndsType false
  noWord : t.kind ≠ .word
  noBody : t.is "\x7b" = false
  noArrow : t.is "=>" = false

theorem Token.IsMark.endsExpr (h : t.IsMark text) (htext : text ∈ [";", ":"]) : t.EndsExpr := by
  have hlisted : ∀ text ∈ [";", ":"], text ∉ ["<", "[", ".", "is", "|", "&", "extends"] ∧
      (text == "\x7b") = false ∧ (text == "=>") = false := by
    decide
  obtain ⟨htype, hbody, harrow⟩ := hlisted text htext
  exact ⟨h.endsType htype (by simp), by rw [h.1]; decide, by rw [h.is, hbody], by rw [h.is, harrow]⟩

namespace Inert

/-- The mark or the reserved word at the front of an expression is an operator between operands, a
question mark or an opening bracket. -/
theorem front_of_is (h : Inert .operand (t :: ts)) (his : t.is text = true)
    (htext : text ∈ reservedWords ∨ text.toList.head?.any isLetter = false) :
    t.IsMark text ∧ (text ∈ [".", "+", "-", "*", "&&", "||", "??", "==="] ∧ Inert .operand ts ∨
      text ∈ ["?", "(", "\x7b"] ∨ text = "[" ∧ ∃ inner last us, ts = inner ++ last :: us ∧
        Balanced inner ∧ last.IsMark "]" ∧ Inert .operand us) := by
  have hmark : ∀ {other}, t.IsMark other → other = text := by
    intro other ht
    rwa [ht.is, beq_iff_eq] at his
  cases h with
  | name ht _ =>
    rw [ht.is_eq_false htext] at his
    cases his
  | literal ht _ =>
    rw [Token.is_eq_false ht] at his
    cases his
  | operator ht hts =>
    obtain ⟨other, hmem, ht⟩ := ht
    obtain rfl := hmark ht
    exact ⟨ht, .inl ⟨hmem, hts⟩⟩
  | comma hplace _ _ => exact absurd rfl hplace
  | square ht hinner hlast hus =>
    obtain rfl := hmark ht
    exact ⟨ht, .inr (.inr ⟨rfl, _, _, _, rfl, hinner.balanced, hlast, hus⟩)⟩
  | conditional ht _ _ _ | group ht _ _ _ _ | object ht _ _ _ | arrow ht _ _ _ _ =>
    obtain rfl := hmark ht
    exact ⟨ht, .inr (.inl (by decide))⟩

/-- No token of an expression continues a type or an operand of one. -/
theorem is_eq_false (h : Inert .operand (t :: ts))
    (htext : text ∈ ["<", "is", "|", "&", "extends"]) : t.is text = false := by
  have hlisted : ∀ text ∈ ["<", "is", "|", "&", "extends"],
      (text ∈ reservedWords ∨ text.toList.head?.any isLetter = false) ∧
        text ∉ [".", "+", "-", "*", "&&", "||", "??", "==="] ∧ text ∉ ["?", "(", "\x7b"] ∧
          text ≠ "[" := by
    decide
  obtain ⟨hname, hoperator, hmark, hsquare⟩ := hlisted text htext
  refine Bool.eq_false_iff.mpr fun his => ?_
  obtain ⟨-, ⟨hmem, -⟩ | hmem | ⟨heq, -⟩⟩ := h.front_of_is his hname
  · exact hoperator hmem
  · exact hmark hmem
  · exact hsquare heq

theorem of_point (h : Inert .operand (t :: ts)) (hpoint : t.is "." = true) :
    Inert .operand ts := by
  obtain ⟨-, ⟨-, hts⟩ | hmem | ⟨heq, -⟩⟩ := h.front_of_is hpoint (.inr (by decide))
  · exact hts
  · exact absurd hmem (by decide)
  · exact absurd heq (by decide)

/-- An expression that starts with a square bracket goes on behind the one that closes it. -/
theorem of_square (h : Inert .operand (t :: ts)) (hsquare : t.is "[" = true) :
    t.IsMark "[" ∧ ∃ inner last us, ts = inner ++ last :: us ∧ Balanced inner ∧ last.IsMark "]" ∧
      Inert .operand us := by
  obtain ⟨ht, ⟨hmem, -⟩ | hmem | ⟨-, hgroup⟩⟩ := h.front_of_is hsquare (.inr (by decide))
  · exact absurd hmem (by decide)
  · exact absurd hmem (by decide)
  · exact ⟨ht, hgroup⟩

/-- A word at the front of an expression is a name. -/
theorem of_word (h : Inert .operand (t :: ts)) (hkind : t.kind = .word) :
    t.IsName ∧ Inert .operand ts := by
  have hmark : ∀ {text}, ¬ t.IsMark text := fun ht => by cases ht.1.symm.trans hkind
  cases h with
  | name ht hts => exact ⟨ht, hts⟩
  | literal ht _ => rcases ht with ht | ht <;> cases ht.symm.trans hkind
  | operator ht _ =>
    obtain ⟨other, -, ht⟩ := ht
    exact absurd ht hmark
  | comma _ ht _ | conditional ht _ _ _ | group ht _ _ _ _ | square ht _ _ _ | object ht _ _ _
  | arrow ht _ _ _ _ => exact absurd ht hmark

variable (hnext : next.EndsExpr)

include hnext

/-- A point and a name at the front are a member, and an expression goes on behind them. -/
theorem exists_member (h : Inert .operand ts) (hk : table.Ahead k (ts ++ next :: behind))
    (hpoint : table.is k "." = true) (hword : table.isWord (k + 1) = true) :
    ∃ point name us, ts = [point, name] ++ us ∧ name.IsName ∧ Inert .operand us ∧
      table.Ahead (k + 2) (us ++ next :: behind) := by
  cases ts with
  | nil =>
    rw [hk.is, hnext.endsType.outside "." (by decide)] at hpoint
    cases hpoint
  | cons point ts =>
    have hts := h.of_point ((hk.is _).symm.trans hpoint)
    have htail : table.Ahead (k + 1) (ts ++ next :: behind) := hk.tail
    cases ts with
    | nil => exact absurd (by simpa [htail.isWord] using hword) hnext.noWord
    | cons name us =>
      have hkind : name.kind = .word := by simpa [htail.isWord] using hword
      obtain ⟨hname, hus⟩ := hts.of_word hkind
      exact ⟨point, name, us, rfl, hname, hus, htail.tail⟩

/-- The token at the front continues no type but with a square bracket or a member. -/
theorem is_front_eq_false (h : Inert .operand ts) (hk : table.Ahead k (ts ++ next :: behind))
    (htext : text ∈ ["<", "is", "|", "&", "extends"]) : table.is k text = false := by
  cases ts with
  | nil =>
    refine (hk.is _).trans (hnext.endsType.outside text ?_)
    revert text
    decide
  | cons t ts => exact (hk.is _).trans (h.is_eq_false htext)

/-- The square brackets and members at the front of an expression end behind an operand. -/
theorem endsAmong_postfixEnd (h : Inert .operand ts) (htable : tokenize source = .ok table)
    (hk : table.Ahead k (ts ++ next :: behind)) : EndsAmong (table.postfixEnd k) k ts := by
  induction hn : ts.length using Nat.strongRecOn generalizing k ts with
  | _ n ih =>
    have hangle : table.is k "<" = false := h.is_front_eq_false hnext hk (by decide)
    by_cases hline : table.startsLine k = true
    · exact .here (TokenTable.postfixEnd_stop (.inl hline)) h
    have hline' : table.startsLine k = false := Bool.eq_false_iff.mpr hline
    by_cases hsquare : table.is k "[" = true
    · cases ts with
      | nil =>
        rw [hk.is, hnext.endsType.outside "[" (by decide)] at hsquare
        cases hsquare
      | cons first ts =>
        obtain ⟨hfirst, inner, last, us, rfl, hinner, hlast, hus⟩ :=
          h.of_square ((hk.is _).symm.trans hsquare)
        have hk' : table.Ahead k (first :: (inner ++ last :: (us ++ next :: behind))) := by
          simpa using hk
        have hclose := hk'.closeOf htable (hfirst.opens? .square) (hlast.closes? .square) hinner
        have hbehind := hk'.behind_closeOf htable (hfirst.opens? .square) (hlast.closes? .square)
          hinner
        have hlength : us.length < n := by
          simp only [← hn, List.length_append, List.length_cons]
          omega
        have hrest := ih us.length hlength hus hbehind rfl
        rw [show first :: (inner ++ last :: us) = first :: (inner ++ [last]) ++ us by simp]
        refine hrest.passed ?_ ?_ fun e he =>
          TokenTable.postfixEnd_square hline' hangle hsquare he
        · rw [hclose]
          simp only [List.length_cons, List.length_append, List.length_nil]
          omega
        · rw [← List.cons_append, List.getLast?_concat]
          rintro _ ⟨⟩
          exact .inr (.inr (.inr (.inl hlast)))
    have hsquare' : table.is k "[" = false := Bool.eq_false_iff.mpr hsquare
    by_cases hmember : table.is k "." = true ∧ table.isWord (k + 1) = true
    · obtain ⟨point, name, us, rfl, hname, hus, hbehind⟩ :=
        h.exists_member hnext hk hmember.1 hmember.2
      have hlength : us.length < n := by
        simp only [← hn, List.length_append, List.length_cons]
        omega
      have hrest := ih us.length hlength hus hbehind rfl
      refine hrest.passed rfl ?_ fun e he =>
        TokenTable.postfixEnd_member hline' hangle hsquare' hmember.1 hmember.2 he
      rintro _ ⟨⟩
      exact .inl hname
    · exact .here (TokenTable.postfixEnd_stop (.inr ⟨hangle, hsquare', hmember⟩)) h

/-- What is read behind a name of a type, members first, ends behind an operand, and no
predicate starts there. -/
theorem endsAmong_members (h : Inert .operand ts) (htable : tokenize source = .ok table)
    (hk : table.Ahead k (ts ++ next :: behind)) :
    EndsAmong (table.postfixEnd (table.afterMembers k)) k ts ∧
      table.is (table.afterMembers k) "is" = false := by
  induction hn : ts.length using Nat.strongRecOn generalizing k ts with
  | _ n ih =>
    by_cases hmember : table.is k "." = true ∧ table.isWord (k + 1) = true
    · obtain ⟨point, name, us, rfl, hname, hus, hbehind⟩ :=
        h.exists_member hnext hk hmember.1 hmember.2
      have hlength : us.length < n := by
        simp only [← hn, List.length_append, List.length_cons]
        omega
      obtain ⟨hrest, his⟩ := ih us.length hlength hus hbehind rfl
      rw [TokenTable.afterMembers_eq hmember.1 hmember.2]
      refine ⟨hrest.passed rfl ?_ fun _ he => he, his⟩
      rintro _ ⟨⟩
      exact .inl hname
    · rw [TokenTable.afterMembers_stop hmember]
      exact ⟨h.endsAmong_postfixEnd hnext htable hk, h.is_front_eq_false hnext hk (by decide)⟩

end Inert

/-- Whether what starts at the index is read as a type with a curly bracket behind it. -/
def TokenTable.showsBody (table : TokenTable) (k : Nat) : Bool :=
  match table.typeEnd k with
  | .ok ⟨e, _⟩ => table.is e "\x7b"
  | .error _ => false

theorem Answers.showsBody_eq (h : Answers (table.typeEnd k) e) :
    table.showsBody k = table.is e "\x7b" := by
  obtain ⟨_, h⟩ := h
  rw [TokenTable.showsBody, h]

/-- A type that is an operand and nothing else. -/
theorem TokenTable.typeEnd_of_plain (h : Answers (table.plainOperandEnd k) e)
    (hwords : table.isWord k = false ∨ table.isOneOf k typePrefixes = false)
    (hfront : ∀ text ∈ ["|", "&", "new"], table.is k text = false)
    (hend : ∀ text ∈ ["|", "&", "extends"], table.is e text = false) :
    Answers (table.typeEnd k) e := by
  have hself := typeEndFrom_self (hend "|" (by decide)) (hend "&" (by decide))
    (hend "extends" (by decide))
  have hfrom : table.TypeFrom k e := .of_plain h hwords (hfront "new" (by decide)) hself
  obtain ⟨m, hm, he⟩ := hfrom
  refine typeEnd_of ?_ he
  rw [afterLeadingOperator_eq_self (hfront "|" (by decide)) (hfront "&" (by decide))]
  exact operandEnd_of hm

/-- No type starts with a closing bracket. -/
theorem TokenTable.showsBody_close (hk : table.Ahead k (t :: ts)) (ht : t.IsMark "\x7d") :
    table.showsBody k = false := by
  have hword : table.isWord k = false := by
    rw [hk.isWord, ht.1]
    rfl
  have his : ∀ text, table.is k text = ("\x7d" == text) := fun text => (hk.is _).trans (ht.is _)
  have hplain : ∀ q, q = k → ∀ r, table.plainOperandEnd q ≠ .ok r := by
    rintro q rfl r hr
    rw [plainOperandEnd_of_mark (hk.kind.trans ht.1), hk.text, ht.2] at hr
    cases hr
  have hoperand : ∀ q, q = k → ∀ r, table.operandEnd q ≠ .ok r := by
    rintro q rfl r hr
    rw [operandEnd] at hr
    obtain ⟨m, hm, -⟩ := exists_of_bind_eq_ok hr
    refine hplain _ ?_ m hm
    rw [afterTypePrefixes_eq_self (.inl hword), afterNew_eq_self (by simp [his])]
  unfold showsBody
  split
  case h_1 heq =>
    rw [typeEnd] at heq
    obtain ⟨m, hm, -⟩ := exists_of_bind_eq_ok heq
    exact absurd hm (hoperand _ (afterLeadingOperator_eq_self (by simp [his]) (by simp [his])) m)
  case h_2 => rfl

/-- A bracket with everything up to the one that closes it, as an operand of a type. -/
theorem Inert.endsAmong_bracket {first last : Token} {inner : List Token} (shape : Bracket)
    (hnext : next.EndsExpr) (htable : tokenize source = .ok table)
    (hk : table.Ahead k (first :: (inner ++ last :: (us ++ next :: behind))))
    (hfirst : first.IsMark (String.singleton shape.opening)) (hinner : Balanced inner)
    (hlast : last.IsMark (String.singleton shape.closing)) (hus : Inert .operand us)
    (harrow : ∀ t ∈ us, t.is "=>" = false) :
    EndsAmong (table.plainOperandEnd k) k (first :: (inner ++ [last]) ++ us) := by
  have hclose := hk.closeOf htable (hfirst.opens? shape) (hlast.closes? shape) hinner
  have hbehind := hk.behind_closeOf htable (hfirst.opens? shape) (hlast.closes? shape) hinner
  have hround : table.is (table.closeOf k + 1) "=>" = false := by
    cases us with
    | nil => exact (hbehind.is _).trans hnext.noArrow
    | cons u us => exact (hbehind.is _).trans (harrow u List.mem_cons_self)
  have htext : table.text k = "(" ∧ table.is (table.closeOf k + 1) "=>" = false ∨
      table.text k = "[" ∨ table.text k = "\x7b" := by
    rw [hk.text, hfirst.2]
    cases shape with
    | round => exact .inl ⟨rfl, hround⟩
    | square => exact .inr (.inl rfl)
    | curly => exact .inr (.inr rfl)
  refine (hus.endsAmong_postfixEnd hnext htable hbehind).passed ?_ ?_ fun e he =>
    TokenTable.plainOperandEnd_group (hk.kind.trans hfirst.1) htext he
  · rw [hclose]
    simp only [List.length_cons, List.length_append, List.length_nil]
    omega
  · rw [← List.cons_append, List.getLast?_concat]
    rintro _ ⟨⟩
    cases shape with
    | round => exact .inr (.inr (.inl hlast))
    | square => exact .inr (.inr (.inr (.inl hlast)))
    | curly => exact .inr (.inr (.inr (.inr hlast)))

namespace PlainTokens

/-- The operand at the front of an expression and what continues it, read as that of a type. -/
theorem endsAmong (h : PlainTokens a o ts) (hnext : next.EndsExpr)
    (htable : tokenize source = .ok table) (hk : table.Ahead k (ts ++ next :: behind)) :
    EndsAmong (table.plainOperandEnd k) k ts := by
  obtain ⟨t, ht, hfirst, -⟩ := h.first
  obtain ⟨rest, rfl⟩ := List.head?_eq_some_iff.mp ht
  have hbracket : ∀ (shape : Bracket) {inner us : List Token} {last : Token},
      rest = inner ++ last :: us → t.IsMark (String.singleton shape.opening) → Balanced inner →
      last.IsMark (String.singleton shape.closing) → Inert .operand us →
      EndsAmong (table.plainOperandEnd k) k (t :: rest) := by
    rintro shape inner us last rfl hopen hinner hclose hus
    have hk' : table.Ahead k (t :: (inner ++ last :: (us ++ next :: behind))) := by simpa using hk
    have harrow : ∀ u ∈ us, u.is "=>" = false := fun u hu => h.arrowless u (by simp [hu])
    rw [show t :: (inner ++ last :: us) = t :: (inner ++ [last]) ++ us by simp]
    exact Inert.endsAmong_bracket shape hnext htable hk' hopen hinner hclose hus harrow
  cases h.inert with
  | name hname hrest =>
    obtain ⟨hends, his⟩ := hrest.endsAmong_members hnext htable hk.tail
    rw [← List.singleton_append]
    refine hends.passed rfl ?_ fun e he =>
      TokenTable.plainOperandEnd_word (hk.kind.trans hname.1) his he
    rintro _ ⟨⟩
    exact .inl hname
  | literal hkind hrest =>
    rw [← List.singleton_append]
    refine (hrest.endsAmong_postfixEnd hnext htable hk.tail).passed rfl ?_ fun e he =>
      TokenTable.plainOperandEnd_literal (hk.kind ▸ hkind) he
    rintro _ ⟨⟩
    exact .inr (.inl hkind)
  | operator hmark _ =>
    obtain ⟨text, hmem, hmark⟩ := hmark
    have hnone : ∀ text ∈ [".", "+", "-", "*", "&&", "||", "??", "==="],
        text ∉ ["(", "[", "\x7b"] := by
      decide
    exact absurd (hfirst.mem_of_isMark hmark) (hnone text hmem)
  | comma hplace _ _ => exact absurd rfl hplace
  | conditional hmark _ _ _ => exact absurd (hfirst.mem_of_isMark hmark) (by decide)
  | group hmark hinner hlast _ hus => exact hbracket .round rfl hmark hinner.balanced hlast hus
  | square hmark hinner hlast hus => exact hbracket .square rfl hmark hinner.balanced hlast hus
  | object hmark hinner hlast hus => exact hbracket .curly rfl hmark hinner.balanced hlast hus
  | @arrow _ _ last arrow inner us _ _ _ hmark _ =>
    have harrow : arrow.is "=>" = false := h.arrowless arrow (by simp)
    rw [hmark.is] at harrow
    cases harrow

/-- In the midst of an expression, no curly bracket opens behind an operand. -/
theorem is_behind_eq_false (h : PlainTokens a o ts) (hnext : next.EndsExpr)
    (hk : table.Ahead k (ts ++ next :: behind)) {front back : List Token} (hts : ts = front ++ back)
    (hne : front ≠ []) (hfront : ∀ u ∈ front.getLast?, u.EndsOperand) :
    table.is (k + front.length) "\x7b" = false := by
  have hahead : table.Ahead (k + front.length) (back ++ next :: behind) := by
    rw [hts, List.append_assoc] at hk
    exact hk.append
  cases back with
  | nil => exact (hahead.is _).trans hnext.noBody
  | cons t back =>
    have hchain := h.chain
    rw [hts] at hchain
    have hu := List.getLast?_eq_some_getLast hne
    have hmeets := (List.isChain_append.mp hchain).2.2 _ hu t rfl
    exact (hahead.is _).trans (hmeets.body (hfront _ hu))

/-- No expression is read as a type with a body behind it. -/
theorem showsBody_eq_false (h : PlainTokens a o ts) (hnext : next.EndsExpr)
    (htable : tokenize source = .ok table) (hk : table.Ahead k (ts ++ next :: behind)) :
    table.showsBody k = false := by
  obtain ⟨front, back, rfl, hanswer, hback, hfront⟩ := h.endsAmong hnext htable hk
  have hne : front ≠ [] := by
    rintro rfl
    obtain ⟨hlt, -⟩ := hanswer
    exact absurd hlt (Nat.lt_irrefl k)
  have hbehind : table.Ahead (k + front.length) (back ++ next :: behind) := by
    rw [List.append_assoc] at hk
    exact hk.append
  obtain ⟨t, ht, hfirst, -⟩ := h.first
  obtain ⟨rest, hrest⟩ := List.head?_eq_some_iff.mp ht
  have hk' : table.Ahead k (t :: (rest ++ next :: behind)) := by
    rw [hrest] at hk
    exact hk
  have hwords : table.isWord k = false ∨ table.isOneOf k TokenTable.typePrefixes = false := by
    rw [hk'.isWord, hk'.isOneOf]
    rcases hfirst with hname | hkind | hmark | hmark | hmark
    · exact .inr (hname.contains_eq_false (by decide))
    · rcases hkind with hkind | hkind <;> simp [hkind]
    all_goals simp [hmark.1]
  have hend : Answers (table.typeEnd k) (k + front.length) := by
    refine TokenTable.typeEnd_of_plain hanswer hwords (fun text hmem => ?_) fun text hmem => ?_
    · refine (hk'.is _).trans (hfirst.is_eq_false ?_)
      revert text
      decide
    · refine hback.is_front_eq_false hnext hbehind ?_
      revert text
      decide
  rw [hend.showsBody_eq]
  exact h.is_behind_eq_false hnext hk rfl hne hfront

end PlainTokens

/-- A word in front of tokens that go on with no type is read as a type by itself. -/
theorem TokenTable.typeEnd_word (hk : table.Ahead k (t :: ts)) (hkind : t.kind = .word)
    (hwords : t.text ∉ typePrefixes ++ ["|", "&", "new"]) (hpoint : table.is (k + 1) "." = false)
    (his : table.is (k + 1) "is" = false) (h : Answers (table.postfixEnd (k + 1)) e)
    (hend : ∀ text ∈ ["|", "&", "extends"], table.is e text = false) :
    Answers (table.typeEnd k) e := by
  rw [List.mem_append, not_or] at hwords
  have hself : (table.afterMembers (k + 1)).val = k + 1 := afterMembers_eq_self hpoint
  refine typeEnd_of_plain (plainOperandEnd_word (hk.kind.trans hkind) (by rw [hself]; exact his)
    (by rw [hself]; exact h)) (.inr ?_) (fun text hmem => ?_) hend
  · rw [hk.isOneOf]
    simpa using hwords.1
  · have hne : t.text ≠ text := fun heq => hwords.2 (heq ▸ hmem)
    rw [hk.is]
    simp [Token.is, hne]

/-- A word with nothing behind it that continues a type is a type by itself. -/
theorem TokenTable.typeEnd_self {grouped : Bool} (hk : table.Ahead k (t :: next :: ts))
    (hkind : t.kind = .word) (hwords : t.text ∉ typePrefixes ++ ["|", "&", "new"])
    (hnext : next.EndsType grouped) : Answers (table.typeEnd k) (k + 1) := by
  have his : ∀ text ∈ ["<", "[", ".", "is", "|", "&", "extends"], table.is (k + 1) text = false :=
    fun text hmem => (hk.tail.is _).trans (hnext.outside text hmem)
  have hpostfix : Answers (table.postfixEnd (k + 1)) (k + 1) :=
    postfixEnd_self (his _ (by decide)) (his _ (by decide)) (his _ (by decide))
  refine typeEnd_word hk hkind hwords (his _ (by decide)) (his _ (by decide)) hpostfix ?_
  intro text hmem
  refine his text ?_
  revert text
  decide

namespace PlainTokens

variable (h : PlainTokens a o ts) {word : Token}
  (hk : table.Ahead k (word :: (ts ++ next :: behind)))
  (hword : word.IsWord "return" ∨ word.IsWord "case")

include h hk hword

/-- A word in front of an expression is read as a type, and so are the members and square
brackets at the front of the expression. -/
theorem typeEnd_word (hend : ∀ text ∈ ["|", "&", "extends"], table.is e text = false)
    (hanswer : Answers (table.postfixEnd (k + 1)) e) : Answers (table.typeEnd k) e := by
  obtain ⟨t, ht, hfirst, -⟩ := h.first
  obtain ⟨rest, rfl⟩ := List.head?_eq_some_iff.mp ht
  have hbehind : table.Ahead (k + 1) (t :: (rest ++ next :: behind)) := hk.tail
  have hkind : word.kind = .word := hword.elim And.left And.left
  refine TokenTable.typeEnd_word hk hkind ?_ ?_ ?_ hanswer hend
  · rcases hword with hword | hword <;> rw [hword.2] <;> decide
  · exact (hbehind.is _).trans (hfirst.is_eq_false (by decide))
  · exact (hbehind.is _).trans (hfirst.is_eq_false (by decide))

/-- In front of an object literal, the word is a type by itself. -/
theorem typeEnd_object (hobject : o = true) : Answers (table.typeEnd k) (k + 1) := by
  obtain ⟨t, ht, -, hcurly⟩ := h.first
  obtain ⟨rest, rfl⟩ := List.head?_eq_some_iff.mp ht
  obtain ⟨hmark, -⟩ := h.inert.front_of_is (hcurly.trans hobject) (.inr (by decide))
  have hends : t.EndsType false := hmark.endsType (by decide) (by simp)
  refine TokenTable.typeEnd_self hk (hword.elim And.left And.left) ?_ hends
  rcases hword with hword | hword <;> rw [hword.2] <;> decide

/-- A word in front of an expression is read as a type with a body behind it exactly if the
expression starts with an object literal. -/
theorem showsBody_word (hnext : next.EndsExpr) (htable : tokenize source = .ok table) :
    table.showsBody k = o := by
  have hbehind : table.Ahead (k + 1) (ts ++ next :: behind) := hk.tail
  have hfront : table.is (k + 1) "\x7b" = o := by
    obtain ⟨t, ht, -, hcurly⟩ := h.first
    obtain ⟨rest, rfl⟩ := List.head?_eq_some_iff.mp ht
    exact (hbehind.is _).trans hcurly
  cases ho : o with
  | true => rw [(h.typeEnd_object hk hword ho).showsBody_eq, hfront, ho]
  | false =>
    obtain ⟨front, back, rfl, hanswer, hback, hends⟩ :=
      h.inert.endsAmong_postfixEnd hnext htable hbehind
    have hrest : table.Ahead (k + 1 + front.length) (back ++ next :: behind) := by
      rw [List.append_assoc] at hbehind
      exact hbehind.append
    have htype : Answers (table.typeEnd k) (k + 1 + front.length) := by
      refine h.typeEnd_word hk hword (fun text hmem => ?_) hanswer
      refine hback.is_front_eq_false hnext hrest ?_
      revert text
      decide
    rw [htype.showsBody_eq]
    by_cases hne : front = []
    · subst hne
      exact hfront.trans ho
    · exact h.is_behind_eq_false hnext hbehind rfl hne hends

end PlainTokens

end Workflow.Script
