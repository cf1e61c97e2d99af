import Workflow.Proofs.Script.Lookahead

/-!
# Where a type ends

A type is followed here as the sequence of its tokens. What stands between brackets does not
matter for where the type ends, so that only what is on the outside is told apart. The end is
found by the tokens alone: what follows the type may go on with it, and then the end of what
goes on is found.
-/

namespace Workflow.Script

/-- The tokens may stand between brackets of any kind. -/
inductive Enclosed : List Token → Prop
  | nil : Enclosed []
  | other {t : Token} {ts : List Token} : t.opens? = none → t.closes? = none →
      t.is "<" = false → t.is ">" = false → t.is ";" = false → t.kind ≠ .finish → Enclosed ts →
      Enclosed (t :: ts)
  | group {first last : Token} {inner ts : List Token} (shape : Bracket) :
      first.IsMark (String.singleton shape.opening) → last.IsMark (String.singleton shape.closing) →
      Balanced inner → Enclosed ts → Enclosed (first :: (inner ++ last :: ts))
  | angle {first last : Token} {inner ts : List Token} : first.IsMark "<" → last.IsMark ">" →
      Enclosed inner → Enclosed ts → Enclosed (first :: (inner ++ last :: ts))

namespace Enclosed

/-- A name may stand between angle brackets. -/
theorem name {t : Token} {ts : List Token} (ht : t.IsName) (h : Enclosed ts) :
    Enclosed (t :: ts) := by
  obtain ⟨hopen, hclose⟩ := ht.isNoBracket
  refine .other hopen hclose ?_ ?_ ?_ (by simp [ht.1]) h
  all_goals exact ht.is_eq_false (.inr (by decide))

theorem literal {t : Token} {ts : List Token} (ht : t.kind = .string ∨ t.kind = .number)
    (h : Enclosed ts) : Enclosed (t :: ts) := by
  obtain ⟨hopen, hclose⟩ := Token.isNoBracket_of_literal ht
  refine .other hopen hclose (Token.is_eq_false ht) (Token.is_eq_false ht)
    (Token.is_eq_false ht) ?_ h
  rcases ht with ht | ht <;> simp [ht]

/-- A token that is no bracket and no semicolon may stand between brackets. -/
theorem of_text {t : Token} {ts : List Token} (hkind : t.kind ≠ .finish)
    (htext : t.text ∉ ["(", "[", "\x7b", ")", "]", "\x7d", "<", ">", ";"]) (h : Enclosed ts) :
    Enclosed (t :: ts) := by
  simp only [List.mem_cons, List.not_mem_nil, or_false, not_or] at htext
  obtain ⟨hopen, hclose⟩ := Token.isNoBracket_of_text (t := t) (by simp [htext])
  refine .other hopen hclose ?_ ?_ ?_ hkind h
  all_goals simp [Token.is, htext]

/-- A mark that neither opens nor closes anything may stand between angle brackets. -/
theorem mark {t : Token} {text : String} {ts : List Token} (ht : t.IsMark text)
    (htext : text ∉ ["(", "[", "\x7b", ")", "]", "\x7d", "<", ">", ";"]) (h : Enclosed ts) :
    Enclosed (t :: ts) := .of_text (by simp [ht.1]) (ht.2 ▸ htext) h

theorem word {t : Token} {text : String} {ts : List Token} (ht : t.IsWord text)
    (htext : text ∉ ["(", "[", "\x7b", ")", "]", "\x7d", "<", ">", ";"]) (h : Enclosed ts) :
    Enclosed (t :: ts) := .of_text (by simp [ht.1]) (ht.2 ▸ htext) h

theorem append {ts us : List Token} (h : Enclosed ts) (hus : Enclosed us) :
    Enclosed (ts ++ us) := by
  induction h with
  | nil => exact hus
  | other hopen hclose hless hgreater hsemicolon hkind _ ih =>
    exact .other hopen hclose hless hgreater hsemicolon hkind ih
  | group shape hfirst hlast hinner _ ih =>
    rw [List.cons_append, List.append_assoc, List.cons_append]
    exact .group shape hfirst hlast hinner ih
  | angle hfirst hlast hinner _ _ ih =>
    rw [List.cons_append, List.append_assoc, List.cons_append]
    exact .angle hfirst hlast hinner ih

/-- What may stand between angle brackets is balanced. -/
theorem balanced {ts : List Token} (h : Enclosed ts) : Balanced ts := by
  induction h with
  | nil => exact .nil
  | other hopen hclose _ _ _ _ _ ih => exact .other hopen hclose ih
  | group shape hfirst hlast hinner _ ih =>
    exact .group (hfirst.opens? shape) (hlast.closes? shape) hinner ih
  | angle hfirst hlast _ _ ihInner ih =>
    obtain ⟨hopen, hclose⟩ := hfirst.isNoBracket (by decide)
    obtain ⟨hopen', hclose'⟩ := hlast.isNoBracket (by decide)
    exact .other hopen hclose (ihInner.append (.other hopen' hclose' ih))

variable {source : String} {table : TokenTable} {ts behind : List Token} {first depth k e : Nat}

/-- The index behind a group and further tokens. -/
theorem length_group {opening closing : Token} {inner : List Token} :
    k + (opening :: (inner ++ closing :: ts)).length = k + 1 + inner.length + 1 + ts.length := by
  simp only [List.length_cons, List.length_append]
  omega

/-- A token that neither opens nor closes anything is not looked at. -/
theorem text_not_mem {t : Token} (hopen : t.opens? = none) (hclose : t.closes? = none)
    (hless : t.is "<" = false) (hgreater : t.is ">" = false) (hsemicolon : t.is ";" = false)
    (hkind : t.kind = .punctuator) : t.text ∉ TokenTable.angleMarks := by
  have his : ∀ text, t.is text = (t.text == text) := by
    intro text
    simp [Token.is, hkind]
  rw [Token.opens?_eq_none_iff] at hopen
  rw [Token.closes?_eq_none_iff] at hclose
  simp only [his, beq_eq_false_iff_ne] at hopen hclose hless hgreater hsemicolon
  simp [TokenTable.angleMarks, hopen, hclose, hless, hgreater, hsemicolon]

/-- The search for a closing angle bracket passes over what may stand between brackets. -/
theorem angleEndFrom (h : Enclosed ts) (htable : tokenize source = .ok table)
    (hk : table.Ahead k (ts ++ behind)) (hdepth : 0 < depth)
    (hrest : Answers (table.angleEndFrom first depth (k + ts.length)) e) :
    Answers (table.angleEndFrom first depth k) e := by
  induction h generalizing k behind depth with
  | nil => exact hrest
  | @other t ts hopen hclose hless hgreater hsemicolon hkind _ ih =>
    have hnext : Answers (table.angleEndFrom first depth (k + 1)) e := by
      refine ih hk.tail hdepth ?_
      rwa [Nat.add_assoc, Nat.add_comm 1]
    refine TokenTable.angleEndFrom_other (hk.kind ▸ hkind) (fun hpunctuator => ?_) hnext
    rw [hk.kind] at hpunctuator
    rw [hk.text]
    exact text_not_mem hopen hclose hless hgreater hsemicolon hpunctuator
  | @group opening closing inner ts shape hfirst hlast hinner _ ih =>
    rw [List.cons_append, List.append_assoc, List.cons_append] at hk
    have hclose := hk.closeOf htable (hfirst.opens? shape) (hlast.closes? shape) hinner
    refine TokenTable.angleEndFrom_group (hk.kind.trans hfirst.1) ?_ ?_
    · rw [hk.text, hfirst.2]
      cases shape <;> simp [Bracket.opening]
    · rw [hclose, Nat.add_right_comm k]
      refine ih hk.tail.append.tail hdepth ?_
      rwa [length_group] at hrest
  | @angle opening closing inner ts hfirst hlast _ _ ihInner ih =>
    rw [List.cons_append, List.append_assoc, List.cons_append] at hk
    have hclosing := hk.tail.append
    refine TokenTable.angleEndFrom_open (hk.kind.trans hfirst.1) (hk.text.trans hfirst.2) ?_
    refine ihInner hk.tail (Nat.succ_pos depth) ?_
    refine TokenTable.angleEndFrom_close (hclosing.kind.trans hlast.1) (hclosing.text.trans hlast.2)
      hdepth ?_
    refine ih hclosing.tail hdepth ?_
    rwa [length_group] at hrest

/-- The list in angle brackets ends behind the bracket that closes it. -/
theorem angleEnd {opening closing : Token} (h : Enclosed ts) (htable : tokenize source = .ok table)
    (hk : table.Ahead k (opening :: (ts ++ closing :: behind))) (hopen : opening.IsMark "<")
    (hclose : closing.IsMark ">") : Answers (table.angleEnd k) (k + 1 + ts.length + 1) := by
  have hclosing := hk.tail.append
  refine TokenTable.angleEndFrom_open (hk.kind.trans hopen.1) (hk.text.trans hopen.2) ?_
  refine h.angleEndFrom htable hk.tail (Nat.succ_pos 0) ?_
  exact TokenTable.angleEndFrom_last (hclosing.kind.trans hclose.1) (hclosing.text.trans hclose.2)

end Enclosed

/-- The tokens make up a type; the flag tells whether it ends with a type in parentheses. -/
inductive TypeTokens : Bool → List Token → Prop
  | name {t : Token} {ts : List Token} : t.IsName → Members ts → TypeTokens false (t :: ts)
  | literal {t : Token} : t.kind = .string ∨ t.kind = .number → TypeTokens false [t]
  | negative {minus t : Token} : minus.IsMark "-" → t.kind = .number → TypeTokens false [minus, t]
  | bracketed {first last : Token} {inner : List Token} (shape : Bracket) :
      first.IsMark (String.singleton shape.opening) → last.IsMark (String.singleton shape.closing) →
      Balanced inner → TypeTokens (shape == .round) (first :: (inner ++ [last]))
  | function {first last arrow : Token} {inner ts : List Token} {grouped : Bool} :
      first.IsMark "(" → last.IsMark ")" → Balanced inner → arrow.IsMark "=>" →
      TypeTokens grouped ts → TypeTokens grouped (first :: (inner ++ last :: arrow :: ts))
  | applied {first last : Token} {ts inner : List Token} {grouped : Bool} : TypeTokens grouped ts →
      first.IsMark "<" → first.startsLine = false → last.IsMark ">" → Enclosed inner →
      TypeTokens false (ts ++ first :: (inner ++ [last]))
  | indexed {first last : Token} {ts inner : List Token} {grouped : Bool} : TypeTokens grouped ts →
      first.IsMark "[" → first.startsLine = false → last.IsMark "]" → Balanced inner →
      TypeTokens false (ts ++ first :: (inner ++ [last]))
  | prefixed {word : Token} {ts : List Token} {grouped : Bool} : word.kind = .word →
      word.text ∈ ["keyof", "readonly", "typeof"] → TypeTokens grouped ts →
      TypeTokens grouped (word :: ts)
  | joined {operator : Token} {ts us : List Token} {grouped grouped' : Bool} :
      TypeTokens grouped ts → operator.IsMark "|" ∨ operator.IsMark "&" → TypeTokens grouped' us →
      TypeTokens grouped' (ts ++ operator :: us)

/-- A type may start with the token, but no list of types, no operator and no assertion of a
constant. -/
structure Token.StartsType (t : Token) : Prop where
  starts : t.kind = .word ∨ t.kind = .string ∨ t.kind = .number ∨
    t.kind = .punctuator ∧ t.text ∈ ["\x7b", "[", "(", "-"]
  angle : t.is "<" = false
  union : t.is "|" = false
  intersection : t.is "&" = false
  constant : t.is "const" = false

/-- A bracket and a minus may start a type. -/
theorem Token.IsMark.startsType {t : Token} {text : String} (h : t.IsMark text)
    (hmem : text ∈ ["\x7b", "[", "(", "-"]) : t.StartsType := by
  refine ⟨.inr (.inr (.inr ⟨h.1, h.2 ▸ hmem⟩)), ?_, ?_, ?_, ?_⟩
  all_goals
    rw [h.is]
    simp only [List.mem_cons, List.not_mem_nil, or_false] at hmem
    rcases hmem with rfl | rfl | rfl | rfl <;> rfl

theorem Token.IsName.startsType {t : Token} (h : t.IsName) : t.StartsType := by
  refine ⟨.inl h.1, ?_, ?_, ?_, ?_⟩
  all_goals exact h.is_eq_false (by decide)

/-- Where a type may start is seen at the first of its tokens. -/
theorem Token.StartsType.startsType {t : Token} {table : TokenTable} {k : Nat} {ts : List Token}
    (h : t.StartsType) (hk : table.Ahead k (t :: ts)) : table.startsType k = true := by
  rw [TokenTable.startsType, hk.kind, hk.text]
  rcases h.starts with hkind | hkind | hkind | ⟨hkind, hmem⟩
  · rw [hkind]
  · rw [hkind]
  · rw [hkind]
  · rw [hkind]
    simp only [List.mem_cons, List.not_mem_nil, or_false] at hmem
    rcases hmem with heq | heq | heq | heq <;> rw [heq] <;> rfl

namespace TokenTable

/-- A type that is read up to the index goes on up to the given end, and no further. -/
def Onward (table : TokenTable) (k e : Nat) : Prop :=
  ∃ m, Answers (table.postfixEnd k) m ∧ Answers (table.typeEndFrom m) e ∧
    Answers (table.typeEndFrom e) e

/-- The operand at the index ends at the other index, the words in front of it passed over. -/
def OperandTo (table : TokenTable) (k m : Nat) : Prop :=
  Answers (table.plainOperandEnd (table.afterNew (table.afterTypePrefixes k))) m

/-- The operand at the index and what goes on behind it have the given end. -/
def TypeFrom (table : TokenTable) (k e : Nat) : Prop :=
  ∃ m, Answers (table.plainOperandEnd (table.afterNew (table.afterTypePrefixes k))) m ∧
    Answers (table.typeEndFrom m) e

variable {table : TokenTable} {k e : Nat} {t : Token} {ts : List Token}

/-- A type that starts with no operator ends where what goes on behind its operand ends. -/
theorem TypeFrom.typeEnd (h : table.TypeFrom k e) (hk : table.Ahead k (t :: ts))
    (ht : t.StartsType) : Answers (table.typeEnd k) e := by
  obtain ⟨m, hm, he⟩ := h
  have hself : (table.afterLeadingOperator k).val = k :=
    afterLeadingOperator_eq_self (hk.is _ ▸ ht.union) (hk.is _ ▸ ht.intersection)
  refine typeEnd_of ?_ he
  rw [hself]
  exact operandEnd_of hm

/-- No words stand in front of the operand. -/
theorem OperandTo.of_plain {m : Nat} (h : Answers (table.plainOperandEnd k) m)
    (hwords : table.isWord k = false ∨ table.isOneOf k typePrefixes = false)
    (hnew : table.is k "new" = false) : table.OperandTo k m := by
  rwa [OperandTo, afterTypePrefixes_eq_self hwords, afterNew_eq_self hnew]

/-- An operand without prefixes is read as one, and the type goes on behind it. -/
theorem TypeFrom.of_plain {m : Nat} (h : Answers (table.plainOperandEnd k) m)
    (hwords : table.isWord k = false ∨ table.isOneOf k typePrefixes = false)
    (hnew : table.is k "new" = false) (hgo : Answers (table.typeEndFrom m) e) :
    table.TypeFrom k e :=
  ⟨m, OperandTo.of_plain h hwords hnew, hgo⟩

end TokenTable

namespace TypeTokens

variable {source : String} {table : TokenTable} {ts behind : List Token} {next : Token} {k e : Nat}
  {grouped : Bool}

/-- All members of a name are passed over. -/
theorem afterMembers_eq (h : Members ts) (hk : table.Ahead k (ts ++ next :: behind))
    (hnext : next.is "." = false) : (table.afterMembers k).val = k + ts.length := by
  induction h generalizing k with
  | nil => exact TokenTable.afterMembers_eq_self ((hk.is _).trans hnext)
  | @cons point name ts hpoint hname _ ih =>
    have hrest : table.Ahead (k + 2) (ts ++ next :: behind) := hk.tail.tail
    have hmember : table.is k "." = true := by
      rw [hk.is, hpoint.is]
      rfl
    have hword : table.isWord (k + 1) = true := by
      rw [hk.tail.isWord, hname.1]
      rfl
    rw [TokenTable.afterMembers_eq hmember hword, ih hrest]
    simp only [List.length_cons]
    omega

end TypeTokens

section

variable {source : String} {table : TokenTable} {ts inner behind : List Token}
  {t first last arrow word operator next : Token} {k m e : Nat} {grouped : Bool}

namespace TokenTable

/-! ## What an operand starts with

Each law moves on from an operand to what may follow it, so that an operand of several parts is
followed part by part. -/

/-- A name with its members is an operand. -/
theorem operandTo_name (ht : t.IsName) (hts : Members ts)
    (hk : table.Ahead k (t :: (ts ++ next :: behind))) (hpoint : next.is "." = false)
    (his : next.is "is" = false) (hgo : Answers (table.postfixEnd (k + (t :: ts).length)) m) :
    table.OperandTo k m := by
  have hbehind := hk.tail.append
  have hmember := TypeTokens.afterMembers_eq hts hk.tail hpoint
  rw [List.length_cons, Nat.add_comm ts.length, ← Nat.add_assoc] at hgo
  refine .of_plain ?_ ?_ ?_
  · refine plainOperandEnd_word (hk.kind.trans ht.1) ?_ ?_
    · rw [hmember, hbehind.is]
      exact his
    · rwa [hmember]
  · rw [hk.isOneOf]
    exact .inr (ht.contains_eq_false (by decide))
  · rw [hk.is]
    exact ht.is_eq_false (by decide)

/-- The word `is` behind a name starts a predicate. -/
theorem operandTo_predicate (ht : t.IsName) (hword : word.IsWord "is")
    (hline : word.startsLine = false) (hk : table.Ahead k (t :: word :: behind))
    (htype : Answers (table.typeEnd (k + 2)) m) : table.OperandTo k m := by
  have hmember : (table.afterMembers (k + 1)).val = k + 1 :=
    afterMembers_eq_self ((hk.tail.is _).trans (hword.is _))
  refine .of_plain (plainOperandEnd_predicate (hk.kind.trans ht.1) ?_ ?_ ?_) ?_ ?_
  · rw [hmember, hk.tail.is, hword.is]
    rfl
  · rw [hmember, hk.tail.startsLine, hline]
  · rwa [hmember]
  · rw [hk.isOneOf]
    exact .inr (ht.contains_eq_false (by decide))
  · rw [hk.is]
    exact ht.is_eq_false (by decide)

theorem operandTo_literal (ht : t.kind = .string ∨ t.kind = .number)
    (hk : table.Ahead k (t :: behind)) (hgo : Answers (table.postfixEnd (k + 1)) m) :
    table.OperandTo k m := by
  refine .of_plain (plainOperandEnd_literal ?_ hgo) ?_ ?_
  · rwa [hk.kind]
  · rw [hk.isWord]
    rcases ht with ht | ht <;> simp [ht]
  · rw [hk.is]
    exact Token.is_eq_false ht

/-- A minus and a number are an operand. -/
theorem operandTo_negative (hfirst : first.IsMark "-") (ht : t.kind = .number)
    (hk : table.Ahead k (first :: t :: behind)) (hgo : Answers (table.postfixEnd (k + 2)) m) :
    table.OperandTo k m := by
  refine .of_plain (plainOperandEnd_negative (hk.kind.trans hfirst.1) (hk.text.trans hfirst.2)
    (hk.tail.kind.trans ht) hgo) ?_ ?_
  · rw [hk.isWord, hfirst.1]
    exact .inl rfl
  · rw [hk.is, hfirst.is]
    rfl

/-- A group in brackets is an operand, unless an arrow behind it makes it a list of parameters. -/
theorem operandTo_bracketed (shape : Bracket) (htable : tokenize source = .ok table)
    (hfirst : first.IsMark (String.singleton shape.opening))
    (hlast : last.IsMark (String.singleton shape.closing)) (hinner : Balanced inner)
    (hk : table.Ahead k (first :: (inner ++ last :: next :: behind)))
    (harrow : (shape == .round) = true → next.is "=>" = false)
    (hgo : Answers (table.postfixEnd (k + (first :: (inner ++ [last])).length)) m) :
    table.OperandTo k m := by
  have hclose := hk.closeOf htable hfirst.opens? hlast.closes? hinner
  have hbehind := hk.behind_closeOf htable hfirst.opens? hlast.closes? hinner
  have hlength : k + (first :: (inner ++ [last])).length = table.closeOf k + 1 := by
    rw [hclose]
    simp only [List.length_cons, List.length_append, List.length_nil]
    omega
  rw [hlength] at hgo
  refine .of_plain (plainOperandEnd_group (hk.kind.trans hfirst.1) ?_ hgo) ?_ ?_
  · rw [hk.text, hfirst.2, hbehind.is]
    cases shape with
    | round => exact .inl ⟨rfl, harrow rfl⟩
    | square => exact .inr (.inl rfl)
    | curly => exact .inr (.inr rfl)
  · rw [hk.isWord, hfirst.1]
    exact .inl rfl
  · rw [hk.is, hfirst.is]
    cases shape <;> decide

/-- Parameters, an arrow and a type are an operand. -/
theorem operandTo_function (htable : tokenize source = .ok table) (hfirst : first.IsMark "(")
    (hlast : last.IsMark ")") (hinner : Balanced inner) (harrow : arrow.IsMark "=>")
    (hk : table.Ahead k (first :: (inner ++ last :: arrow :: behind)))
    (hresult : Answers (table.typeEnd (k + inner.length + 3)) m) : table.OperandTo k m := by
  have hclose := hk.closeOf htable (hfirst.opens? .round) (hlast.closes? .round) hinner
  have hbehind := hk.behind_closeOf htable (hfirst.opens? .round) (hlast.closes? .round) hinner
  refine .of_plain (plainOperandEnd_function (hk.kind.trans hfirst.1) (hk.text.trans hfirst.2) ?_
    ?_) ?_ ?_
  · rw [hbehind.is, harrow.is]
    rfl
  · rwa [hclose]
  · rw [hk.isWord, hfirst.1]
    exact .inl rfl
  · rw [hk.is, hfirst.is]
    rfl

/-- The words in front of an operand are passed over. -/
theorem afterTypePrefixes_word (hword : word.kind = .word)
    (hmem : word.text ∈ ["keyof", "readonly", "typeof"]) (ht : t.StartsType)
    (hk : table.Ahead k (word :: t :: behind)) :
    (table.afterTypePrefixes k).val = (table.afterTypePrefixes (k + 1)).val := by
  refine afterTypePrefixes_eq ?_ ?_ (ht.startsType hk.tail) ((hk.tail.is _).trans ht.angle)
  · rw [hk.isWord, hword]
    rfl
  · rw [hk.isOneOf]
    simp only [List.mem_cons, List.not_mem_nil, or_false] at hmem
    rcases hmem with heq | heq | heq <;> rw [heq] <;> decide

/-- A list of types goes on with what stands behind it. -/
theorem postfixEnd_list (htable : tokenize source = .ok table) (hfirst : first.IsMark "<")
    (hline : first.startsLine = false) (hlast : last.IsMark ">") (hinner : Enclosed inner)
    (hk : table.Ahead k (first :: (inner ++ last :: behind)))
    (hgo : Answers (table.postfixEnd (k + (first :: (inner ++ [last])).length)) m) :
    Answers (table.postfixEnd k) m := by
  have hlength : k + (first :: (inner ++ [last])).length = k + 1 + inner.length + 1 := by
    simp only [List.length_cons, List.length_append, List.length_nil]
    omega
  rw [hlength] at hgo
  exact postfixEnd_angle (hk.startsLine.trans hline) ((hk.is _).trans (hfirst.is _))
    (hinner.angleEnd htable hk hfirst hlast) hgo

/-- Square brackets go on with what stands behind them. -/
theorem postfixEnd_brackets (htable : tokenize source = .ok table) (hfirst : first.IsMark "[")
    (hline : first.startsLine = false) (hlast : last.IsMark "]") (hinner : Balanced inner)
    (hk : table.Ahead k (first :: (inner ++ last :: behind)))
    (hgo : Answers (table.postfixEnd (k + (first :: (inner ++ [last])).length)) m) :
    Answers (table.postfixEnd k) m := by
  have hclose := hk.closeOf htable (hfirst.opens? .square) (hlast.closes? .square) hinner
  have hlength : k + (first :: (inner ++ [last])).length = table.closeOf k + 1 := by
    rw [hclose]
    simp only [List.length_cons, List.length_append, List.length_nil]
    omega
  rw [hlength] at hgo
  exact postfixEnd_square (hk.startsLine.trans hline) ((hk.is _).trans (hfirst.is _))
    ((hk.is _).trans (hfirst.is _)) hgo

/-- An operator joins two types. -/
theorem Ahead.joins (hk : table.Ahead k (operator :: behind))
    (hoperator : operator.IsMark "|" ∨ operator.IsMark "&") :
    (table.is k "|" || table.is k "&") = true := by
  rw [hk.is, hk.is]
  rcases hoperator with hmark | hmark <;> simp [hmark.is]

/-- No operand goes on with an operator. -/
theorem postfixEnd_operator (hoperator : operator.IsMark "|" ∨ operator.IsMark "&")
    (hk : table.Ahead k (operator :: behind)) : Answers (table.postfixEnd k) k := by
  refine postfixEnd_self ?_ ?_ ?_
  all_goals
    rw [hk.is]
    rcases hoperator with hoperator | hoperator <;> simp [hoperator.is]

/-- A type goes on with an operator and with what stands behind that. -/
theorem Onward.of_operator (hoperator : operator.IsMark "|" ∨ operator.IsMark "&")
    (hk : table.Ahead k (operator :: behind)) (hright : table.TypeFrom (k + 1) e)
    (hstop : Answers (table.typeEndFrom e) e) : table.Onward k e := by
  obtain ⟨m, hm, htype⟩ := hright
  exact ⟨k, postfixEnd_operator hoperator hk,
    typeEndFrom_of (hk.joins hoperator) (operandEnd_of hm) htype, hstop⟩

end TokenTable

/-- An operand in front of a mark is not taken for a member, a predicate or parameters. -/
theorem Token.IsMark.endsOperand {text : String} (h : t.IsMark text)
    (htext : text ∉ [".", "is", "=>"]) :
    t.is "." = false ∧ t.is "is" = false ∧ (grouped = true → t.is "=>" = false) := by
  simp only [List.mem_cons, List.not_mem_nil, or_false, not_or] at htext
  simp [h.is, htext]

/-- No operand in front of an operator is taken for a member, a predicate or parameters. -/
theorem Token.operator_endsOperand (h : operator.IsMark "|" ∨ operator.IsMark "&") :
    operator.is "." = false ∧ operator.is "is" = false ∧
      (grouped = true → operator.is "=>" = false) :=
  h.elim (fun hmark => hmark.endsOperand (by decide)) fun hmark => hmark.endsOperand (by decide)

end

/-- The tokens are followed as a type. The end of the type is that of what goes on behind them,
unless that is taken for a member, a predicate or the result of a function. -/
structure FollowedAsType (grouped : Bool) (ts : List Token) : Prop where
  /-- A type may start with the first of the tokens. -/
  starts : ∃ t rest, ts = t :: rest ∧ t.StartsType
  /-- Nothing in a type is looked at by a search for a closing angle bracket, the type lists in
  it apart. -/
  enclosed : Enclosed ts
  /-- The end is found behind the tokens. -/
  typeFrom : ∀ {source : String} {table : TokenTable} {behind : List Token} {next : Token}
    {k e : Nat}, tokenize source = .ok table → table.Ahead k (ts ++ next :: behind) →
    next.is "." = false → next.is "is" = false → (grouped = true → next.is "=>" = false) →
    table.Onward (k + ts.length) e → table.TypeFrom k e

namespace FollowedAsType

variable {source : String} {table : TokenTable} {ts us inner behind : List Token}
  {t first last arrow word operator next : Token} {k m e : Nat} {grouped grouped' : Bool}

/-- A name with its members is followed as a type. -/
theorem name (ht : t.IsName) (hts : Members ts) : FollowedAsType false (t :: ts) where
  starts := ⟨t, ts, rfl, ht.startsType⟩
  enclosed := by
    refine Enclosed.name ht ?_
    clear ht
    induction hts with
    | nil => exact .nil
    | cons hpoint hmember _ ih => exact .mark hpoint (by decide) (.name hmember ih)
  typeFrom htable hk hpoint his _ hgo := by
    obtain ⟨m, hsuffix, htype, -⟩ := hgo
    exact ⟨m, TokenTable.operandTo_name ht hts hk hpoint his hsuffix, htype⟩

theorem literal (ht : t.kind = .string ∨ t.kind = .number) : FollowedAsType false [t] where
  starts := by
    refine ⟨t, [], rfl, ?_, Token.is_eq_false ht, Token.is_eq_false ht, Token.is_eq_false ht,
      Token.is_eq_false ht⟩
    rcases ht with ht | ht <;> simp [ht]
  enclosed := .literal ht .nil
  typeFrom htable hk _ _ _ hgo := by
    obtain ⟨m, hsuffix, htype, -⟩ := hgo
    exact ⟨m, TokenTable.operandTo_literal ht hk hsuffix, htype⟩

theorem negative (hminus : first.IsMark "-") (ht : t.kind = .number) :
    FollowedAsType false [first, t] where
  starts := ⟨_, _, rfl, hminus.startsType (by decide)⟩
  enclosed := .mark hminus (by decide) (.literal (.inr ht) .nil)
  typeFrom htable hk _ _ _ hgo := by
    obtain ⟨m, hsuffix, htype, -⟩ := hgo
    exact ⟨m, TokenTable.operandTo_negative hminus ht hk hsuffix, htype⟩

/-- A group in brackets is followed as a type. -/
theorem bracketed (shape : Bracket) (hfirst : first.IsMark (String.singleton shape.opening))
    (hlast : last.IsMark (String.singleton shape.closing)) (hinner : Balanced inner) :
    FollowedAsType (shape == .round) (first :: (inner ++ [last])) where
  starts := ⟨_, _, rfl, hfirst.startsType (by cases shape <;> decide)⟩
  enclosed := .group shape hfirst hlast hinner .nil
  typeFrom htable hk _ _ harrow hgo := by
    obtain ⟨m, hsuffix, htype, -⟩ := hgo
    rw [List.cons_append, List.append_assoc] at hk
    exact ⟨m, TokenTable.operandTo_bracketed shape htable hfirst hlast hinner hk harrow hsuffix,
      htype⟩

/-- The end of a type that stands at the index is found from there. -/
theorem typeEnd_of_onward (h : FollowedAsType grouped ts) (htable : tokenize source = .ok table)
    (hk : table.Ahead k (ts ++ next :: behind)) (hpoint : next.is "." = false)
    (his : next.is "is" = false) (harrow : grouped = true → next.is "=>" = false)
    (hgo : table.Onward (k + ts.length) e) : Answers (table.typeEnd k) e := by
  have hfrom := h.typeFrom htable hk hpoint his harrow hgo
  obtain ⟨t, rest, rfl, ht⟩ := h.starts
  exact hfrom.typeEnd hk ht

/-- What goes on behind a function goes on behind its result. -/
theorem function (hfirst : first.IsMark "(") (hlast : last.IsMark ")") (hinner : Balanced inner)
    (harrow : arrow.IsMark "=>") (h : FollowedAsType grouped ts) :
    FollowedAsType grouped (first :: (inner ++ last :: arrow :: ts)) where
  starts := ⟨_, _, rfl, hfirst.startsType (by decide)⟩
  enclosed := .group .round hfirst hlast hinner (.mark harrow (by decide) h.enclosed)
  typeFrom {_ table behind next k e} htable hk hpoint his harrow' hgo := by
    rw [List.cons_append, List.append_assoc] at hk
    have hbehind : table.Ahead (k + inner.length + 3) (ts ++ next :: behind) := by
      rw [show k + inner.length + 3 = k + 1 + inner.length + 1 + 1 by omega]
      exact hk.tail.append.tail.tail
    have hlength : k + (first :: (inner ++ last :: arrow :: ts)).length =
        k + inner.length + 3 + ts.length := by
      simp only [List.length_cons, List.length_append]
      omega
    rw [hlength] at hgo
    have hresult := h.typeEnd_of_onward htable hbehind hpoint his harrow' hgo
    obtain ⟨m, -, -, hstop⟩ := hgo
    exact ⟨e, TokenTable.operandTo_function htable hfirst hlast hinner harrow hk hresult, hstop⟩

/-- The type behind the word `is` goes on as far as it can. -/
theorem predicate (ht : t.IsName) (hword : word.IsWord "is") (hline : word.startsLine = false)
    (h : FollowedAsType grouped ts) : FollowedAsType grouped (t :: word :: ts) where
  starts := ⟨t, _, rfl, ht.startsType⟩
  enclosed := .name ht (.word hword (by decide) h.enclosed)
  typeFrom {_ table behind next k e} htable hk hpoint his harrow hgo := by
    have hlength : k + (t :: word :: ts).length = k + 2 + ts.length := by
      simp only [List.length_cons]
      omega
    rw [hlength] at hgo
    have htype := h.typeEnd_of_onward htable hk.tail.tail hpoint his harrow hgo
    obtain ⟨m, -, -, hstop⟩ := hgo
    exact ⟨e, TokenTable.operandTo_predicate ht hword hline hk htype, hstop⟩

/-- A group behind a type belongs to it if the search for what goes on with an operand passes the
group. -/
theorem continued (h : FollowedAsType grouped ts) {text : String} (hfirst : first.IsMark text)
    (htext : text ∉ [".", "is", "=>"]) (henclosed : Enclosed (first :: (inner ++ [last])))
    (hpassed : ∀ {source : String} {table : TokenTable} {behind : List Token} {k m : Nat},
      tokenize source = .ok table → table.Ahead k (first :: (inner ++ last :: behind)) →
      Answers (table.postfixEnd (k + (first :: (inner ++ [last])).length)) m →
      Answers (table.postfixEnd k) m) :
    FollowedAsType false (ts ++ first :: (inner ++ [last])) where
  starts := by
    obtain ⟨t, rest, rfl, ht⟩ := h.starts
    exact ⟨t, _, rfl, ht⟩
  enclosed := h.enclosed.append henclosed
  typeFrom {_ table behind next k e} htable hk _ _ _ hgo := by
    have hlist : table.Ahead k (ts ++ first :: (inner ++ last :: next :: behind)) := by
      simpa using hk
    rw [List.length_append, ← Nat.add_assoc] at hgo
    obtain ⟨m, hsuffix, htype, hstop⟩ := hgo
    obtain ⟨hpoint, his, harrow⟩ := hfirst.endsOperand htext
    exact h.typeFrom htable hlist hpoint his harrow
      ⟨m, hpassed htable hlist.append hsuffix, htype, hstop⟩

/-- Type arguments are followed as the type they are given to. -/
theorem applied (h : FollowedAsType grouped ts) (hfirst : first.IsMark "<")
    (hline : first.startsLine = false) (hlast : last.IsMark ">") (hinner : Enclosed inner) :
    FollowedAsType false (ts ++ first :: (inner ++ [last])) :=
  h.continued hfirst (by decide) (.angle hfirst hlast hinner .nil) fun htable =>
    TokenTable.postfixEnd_list htable hfirst hline hlast hinner

/-- Square brackets are followed as the type they are put behind. -/
theorem indexed (h : FollowedAsType grouped ts) (hfirst : first.IsMark "[")
    (hline : first.startsLine = false) (hlast : last.IsMark "]") (hinner : Balanced inner) :
    FollowedAsType false (ts ++ first :: (inner ++ [last])) :=
  h.continued hfirst (by decide) (.group .square hfirst hlast hinner .nil) fun htable =>
    TokenTable.postfixEnd_brackets htable hfirst hline hlast hinner

/-- A word in front of a type is followed as the type. -/
theorem prefixed (hword : word.kind = .word) (hmem : word.text ∈ ["keyof", "readonly", "typeof"])
    (h : FollowedAsType grouped ts) : FollowedAsType grouped (word :: ts) where
  starts := by
    refine ⟨word, ts, rfl, .inl hword, ?_, ?_, ?_, ?_⟩
    all_goals
      simp only [List.mem_cons, List.not_mem_nil, or_false] at hmem
      rcases hmem with heq | heq | heq <;> simp [Token.is, heq]
  enclosed := by
    refine .word ⟨hword, rfl⟩ (fun hmark => ?_) h.enclosed
    simp only [List.mem_cons, List.not_mem_nil, or_false] at hmem
    rcases hmem with heq | heq | heq <;> rw [heq] at hmark <;> revert hmark <;> decide
  typeFrom {_ table behind next k e} htable hk hpoint his harrow hgo := by
    rw [List.length_cons, Nat.add_comm ts.length, ← Nat.add_assoc] at hgo
    obtain ⟨m, hm, htype⟩ := h.typeFrom htable hk.tail hpoint his harrow hgo
    obtain ⟨t, rest, rfl, ht⟩ := h.starts
    refine ⟨m, ?_, htype⟩
    rwa [TokenTable.afterTypePrefixes_word hword hmem ht hk]

/-- What goes on behind two types goes on behind the right one. -/
theorem joined (h : FollowedAsType grouped ts)
    (hoperator : operator.IsMark "|" ∨ operator.IsMark "&") (h' : FollowedAsType grouped' us) :
    FollowedAsType grouped' (ts ++ operator :: us) where
  starts := by
    obtain ⟨t, rest, rfl, ht⟩ := h.starts
    exact ⟨t, _, rfl, ht⟩
  enclosed := by
    refine h.enclosed.append ?_
    rcases hoperator with hoperator | hoperator
    · exact .mark hoperator (by decide) h'.enclosed
    · exact .mark hoperator (by decide) h'.enclosed
  typeFrom {_ table behind next k e} htable hk hpoint his harrow hgo := by
    have hjoined : table.Ahead k (ts ++ operator :: (us ++ next :: behind)) := by
      simpa using hk
    have hlength : k + (ts ++ operator :: us).length = k + ts.length + 1 + us.length := by
      simp only [List.length_cons, List.length_append]
      omega
    rw [hlength] at hgo
    have hright := h'.typeFrom htable hjoined.append.tail hpoint his harrow hgo
    obtain ⟨-, -, -, hstop⟩ := hgo
    have honward : table.Onward (k + ts.length) e :=
      .of_operator hoperator hjoined.append hright hstop
    obtain ⟨hpoint', his', harrow'⟩ := Token.operator_endsOperand hoperator
    exact h.typeFrom htable hjoined hpoint' his' harrow' honward

/-- A type goes on with nothing in front of a token that it cannot go on with. -/
theorem onward (hk : table.Ahead k (next :: behind))
    (hnext : ∀ text ∈ ["<", "[", ".", "is", "|", "&", "extends"], next.is text = false) :
    table.Onward k k := by
  have hstop : Answers (table.typeEndFrom k) k := by
    refine TokenTable.typeEndFrom_self ?_ ?_ ?_
    all_goals
      rw [hk.is]
      exact hnext _ (by decide)
  have hsuffix : Answers (table.postfixEnd k) k := by
    refine TokenTable.postfixEnd_self ?_ ?_ ?_
    all_goals
      rw [hk.is]
      exact hnext _ (by decide)
  exact ⟨k, hsuffix, hstop, hstop⟩

/-- A type ends in front of a token that it cannot go on with. -/
theorem typeEnd (h : FollowedAsType grouped ts) (htable : tokenize source = .ok table)
    (hk : table.Ahead k (ts ++ next :: behind))
    (hnext : ∀ text ∈ ["<", "[", ".", "is", "|", "&", "extends"], next.is text = false)
    (harrow : grouped = true → next.is "=>" = false) :
    Answers (table.typeEnd k) (k + ts.length) :=
  h.typeEnd_of_onward htable hk (hnext _ (by decide)) (hnext _ (by decide)) harrow
    (onward hk.append hnext)

end FollowedAsType

namespace TypeTokens

variable {source : String} {table : TokenTable} {ts behind : List Token} {next : Token} {k e : Nat}
  {grouped : Bool}

/-- The tokens of a type are followed as one, by its constructors. -/
theorem followed (h : TypeTokens grouped ts) : FollowedAsType grouped ts := by
  induction h with
  | name ht hts => exact .name ht hts
  | literal ht => exact .literal ht
  | negative hminus ht => exact .negative hminus ht
  | bracketed shape hfirst hlast hinner => exact .bracketed shape hfirst hlast hinner
  | function hfirst hlast hinner harrow _ ih => exact .function hfirst hlast hinner harrow ih
  | applied _ hfirst hline hlast hinner ih => exact .applied ih hfirst hline hlast hinner
  | indexed _ hfirst hline hlast hinner ih => exact .indexed ih hfirst hline hlast hinner
  | prefixed hword hmem _ ih => exact .prefixed hword hmem ih
  | joined _ hoperator _ ih ih' => exact .joined ih hoperator ih'

/-- The first token of a type is one that may start a type. -/
theorem exists_startsType (h : TypeTokens grouped ts) :
    ∃ t rest, ts = t :: rest ∧ t.StartsType := h.followed.starts

/-- The tokens of a type may stand between angle brackets. -/
theorem enclosed (h : TypeTokens grouped ts) : Enclosed ts := h.followed.enclosed

/-- The end of a type is that of what goes on behind it, unless that is taken for a member, a
predicate or the result of a function. -/
theorem typeFrom (h : TypeTokens grouped ts) (htable : tokenize source = .ok table)
    (hk : table.Ahead k (ts ++ next :: behind)) (hpoint : next.is "." = false)
    (his : next.is "is" = false) (harrow : grouped = true → next.is "=>" = false)
    (hgo : table.Onward (k + ts.length) e) : table.TypeFrom k e :=
  h.followed.typeFrom htable hk hpoint his harrow hgo

/-- A type ends in front of a token that it cannot go on with. -/
theorem typeEnd (h : TypeTokens grouped ts) (htable : tokenize source = .ok table)
    (hk : table.Ahead k (ts ++ next :: behind))
    (hnext : ∀ text ∈ ["<", "[", ".", "is", "|", "&", "extends"], next.is text = false)
    (harrow : grouped = true → next.is "=>" = false) :
    Answers (table.typeEnd k) (k + ts.length) := h.followed.typeEnd htable hk hnext harrow

end TypeTokens

end Workflow.Script
