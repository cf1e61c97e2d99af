import Workflow.Proofs.Script.TypeExtent

/-!
# Operands of types

Behind `extends` only an operand of a type is read, so an operator there stands behind it. Which
types are operands is seen on their trees. A function is one up to the end of its result: what
goes on behind a result belongs to it, as in a type that is read as a whole.

Where the reading of a type fails behind its last token, it fails as a whole, for the same cause.
-/

namespace Workflow.Script

/-- Whether the text of a type starts with a function, to which all that stands behind its arrow
belongs. -/
def Ty.startsFunction : Ty → Bool
  | .function _ _ => true
  | .applied T _ _ | .array T | .indexed T _ | .prefixed _ T | .joined _ T _ => T.startsFunction
  | _ => false

/-- Whether a type is read as one operand: no operator stands outside of its brackets, or it
belongs to the result of a function. -/
def Ty.isOperand : Ty → Bool
  | .applied T _ _ | .array T | .indexed T _ | .prefixed _ T => T.isOperand
  | .joined _ left _ => left.startsFunction
  | _ => true

theorem Ty.isOperand_of_startsFunction (T : Ty) (h : T.startsFunction = true) :
    T.isOperand = true := by
  induction T with
  | applied T _ _ ih _ _ | array T ih | indexed T _ ih | prefixed _ T ih => exact ih h
  | joined _ left _ _ _ => exact h
  | _ => rfl

/-- The tokens make up one operand of a type. The flags tell whether it is a function, and whether
it ends with a type in parentheses. -/
inductive TypeOperandTokens : Bool → Bool → List Token → Prop
  | name {t : Token} {ts : List Token} : t.IsName → Members ts →
      TypeOperandTokens false false (t :: ts)
  | literal {t : Token} : t.kind = .string ∨ t.kind = .number → TypeOperandTokens false false [t]
  | negative {minus t : Token} : minus.IsMark "-" → t.kind = .number →
      TypeOperandTokens false false [minus, t]
  | bracketed {first last : Token} {inner : List Token} (shape : Bracket) :
      first.IsMark (String.singleton shape.opening) → last.IsMark (String.singleton shape.closing) →
      Balanced inner → TypeOperandTokens false (shape == .round) (first :: (inner ++ [last]))
  | function {first last arrow : Token} {inner ts : List Token} {grouped : Bool} :
      first.IsMark "(" → last.IsMark ")" → Balanced inner → arrow.IsMark "=>" →
      TypeTokens grouped ts →
      TypeOperandTokens true grouped (first :: (inner ++ last :: arrow :: ts))
  | applied {first last : Token} {ts inner : List Token} {isFunction grouped : Bool} :
      TypeOperandTokens isFunction grouped ts → first.IsMark "<" → first.startsLine = false →
      last.IsMark ">" → Enclosed inner →
      TypeOperandTokens isFunction false (ts ++ first :: (inner ++ [last]))
  | indexed {first last : Token} {ts inner : List Token} {isFunction grouped : Bool} :
      TypeOperandTokens isFunction grouped ts → first.IsMark "[" → first.startsLine = false →
      last.IsMark "]" → Balanced inner →
      TypeOperandTokens isFunction false (ts ++ first :: (inner ++ [last]))
  | prefixed {word : Token} {ts : List Token} {isFunction grouped : Bool} : word.kind = .word →
      word.text ∈ ["keyof", "readonly", "typeof"] → TypeOperandTokens isFunction grouped ts →
      TypeOperandTokens isFunction grouped (word :: ts)
  | joined {operator : Token} {ts us : List Token} {grouped grouped' : Bool} :
      TypeOperandTokens true grouped ts → operator.IsMark "|" ∨ operator.IsMark "&" →
      TypeTokens grouped' us → TypeOperandTokens true grouped' (ts ++ operator :: us)

/-- An operator stands behind the first operand of the tokens. -/
def OperatorBehind (ts : List Token) : Prop :=
  ∃ us operator vs grouped, ts = us ++ operator :: vs ∧ TypeOperandTokens false grouped us ∧
    (operator.IsMark "|" ∨ operator.IsMark "&")

/-- The tokens of a type, with its first operand apart. -/
structure Ty.ReadAs (T : Ty) (ts : List Token) : Prop where
  type : TypeTokens T.endsGrouped ts
  operand : T.isOperand = true → TypeOperandTokens T.startsFunction T.endsGrouped ts
  joined : T.isOperand = false → OperatorBehind ts

namespace TypeOperandTokens

variable {ts : List Token} {isFunction grouped : Bool}

theorem typeTokens (h : TypeOperandTokens isFunction grouped ts) : TypeTokens grouped ts := by
  induction h with
  | name ht hts => exact .name ht hts
  | literal ht => exact .literal ht
  | negative hminus ht => exact .negative hminus ht
  | bracketed shape hfirst hlast hinner => exact .bracketed shape hfirst hlast hinner
  | function hfirst hlast hinner harrow hts => exact .function hfirst hlast hinner harrow hts
  | applied _ hfirst hline hlast hinner ih => exact .applied ih hfirst hline hlast hinner
  | indexed _ hfirst hline hlast hinner ih => exact .indexed ih hfirst hline hlast hinner
  | prefixed hword hmem _ ih => exact .prefixed hword hmem ih
  | joined _ hoperator hus ih => exact .joined ih hoperator hus

end TypeOperandTokens

namespace Ty.ReadAs

variable {T first right : Ty} {others : List Ty} {prefixWord : TypePrefix}
  {operator : TypeOperator} {opening closing word mark : Token} {ts us inner : List Token}

/-- The tokens of a type that is one operand. -/
theorem of_operand (hT : T.isOperand = true)
    (h : TypeOperandTokens T.startsFunction T.endsGrouped ts) : T.ReadAs ts :=
  ⟨h.typeTokens, fun _ => h, fun hno => absurd hT (by simp [hno])⟩

theorem applied (h : T.ReadAs ts) (hopening : opening.IsMark "<")
    (hline : opening.startsLine = false) (hclosing : closing.IsMark ">") (hinner : Enclosed inner) :
    (Ty.applied T first others).ReadAs (ts ++ opening :: (inner ++ [closing])) := by
  refine ⟨.applied h.type hopening hline hclosing hinner,
    fun hT => .applied (h.operand hT) hopening hline hclosing hinner, fun hT => ?_⟩
  obtain ⟨us, operator, vs, grouped, rfl, hus, hoperator⟩ := h.joined hT
  exact ⟨us, operator, vs ++ opening :: (inner ++ [closing]), grouped, by simp, hus, hoperator⟩

theorem indexed {U : Ty} (hU : U = .array T ∨ ∃ key, U = .indexed T key) (h : T.ReadAs ts)
    (hopening : opening.IsMark "[") (hline : opening.startsLine = false)
    (hclosing : closing.IsMark "]") (hinner : Balanced inner) :
    U.ReadAs (ts ++ opening :: (inner ++ [closing])) := by
  have hparts : U.endsGrouped = false ∧ U.isOperand = T.isOperand ∧
      U.startsFunction = T.startsFunction := by
    rcases hU with rfl | ⟨key, rfl⟩ <;> exact ⟨rfl, rfl, rfl⟩
  obtain ⟨hgrouped, hoperand, hfunction⟩ := hparts
  refine ⟨?_, fun hT => ?_, fun hT => ?_⟩
  · rw [hgrouped]
    exact .indexed h.type hopening hline hclosing hinner
  · rw [hgrouped, hfunction]
    exact .indexed (h.operand (hoperand ▸ hT)) hopening hline hclosing hinner
  · obtain ⟨us, operator, vs, grouped, rfl, hus, hoperator⟩ := h.joined (hoperand ▸ hT)
    exact ⟨us, operator, vs ++ opening :: (inner ++ [closing]), grouped, by simp, hus, hoperator⟩

theorem prefixed (h : T.ReadAs ts) (hword : word.kind = .word)
    (hmem : word.text ∈ ["keyof", "readonly", "typeof"]) :
    (Ty.prefixed prefixWord T).ReadAs (word :: ts) := by
  refine ⟨.prefixed hword hmem h.type, fun hT => .prefixed hword hmem (h.operand hT),
    fun hT => ?_⟩
  obtain ⟨us, operator, vs, grouped, rfl, hus, hoperator⟩ := h.joined hT
  exact ⟨word :: us, operator, vs, grouped, rfl, .prefixed hword hmem hus, hoperator⟩

theorem join (h : T.ReadAs ts) (hmark : mark.IsMark "|" ∨ mark.IsMark "&")
    (h' : right.ReadAs us) : (Ty.joined operator T right).ReadAs (ts ++ mark :: us) := by
  refine ⟨.joined h.type hmark h'.type, fun hT => ?_, fun hT => ?_⟩
  · have hleft := h.operand (T.isOperand_of_startsFunction hT)
    rw [show T.startsFunction = true from hT] at hleft
    rw [show (Ty.joined operator T right).startsFunction = true from hT]
    exact .joined hleft hmark h'.type
  · by_cases hoperand : T.isOperand = true
    · have hleft := h.operand hoperand
      rw [show T.startsFunction = false from hT] at hleft
      exact ⟨ts, mark, us, _, rfl, hleft, hmark⟩
    · obtain ⟨vs, operator', ws, grouped, rfl, hvs, hoperator'⟩ :=
        h.joined (Bool.eq_false_iff.mpr hoperand)
      exact ⟨vs, operator', ws ++ mark :: us, grouped, by simp, hvs, hoperator'⟩

end Ty.ReadAs

/-- A computation fails for the given cause. -/
def Fails {α : Type} (r : Except Fault α) (cause : Cause) : Prop :=
  ∃ offset, r = .error ⟨cause, offset⟩

namespace TokenTable

variable {source : String} {table : TokenTable} {t operator next : Token}
  {ts behind : List Token} {isFunction grouped : Bool} {k m e : Nat} {cause : Cause}

/-- What stands at the index goes on with an operand up to the given end. A function goes on as
its result does. -/
def GoesOn (table : TokenTable) (isFunction : Bool) (k e : Nat) : Prop :=
  if isFunction then table.Onward k e else Answers (table.postfixEnd k) e

/-- Whatever an operand goes on with first, the rest goes on as it does behind that. -/
theorem GoesOn.of_postfixEnd (h : table.GoesOn isFunction m e)
    (honward : ∀ {i}, Answers (table.postfixEnd m) i → Answers (table.postfixEnd k) i) :
    table.GoesOn isFunction k e := by
  cases isFunction with
  | false => exact honward h
  | true =>
    obtain ⟨i, hi, htype⟩ := h
    exact ⟨i, honward hi, htype⟩

/-- The operand at the index cannot be read, or what goes on behind it. -/
def TypeFails (table : TokenTable) (k : Nat) (cause : Cause) : Prop :=
  Fails (table.plainOperandEnd (table.afterNew (table.afterTypePrefixes k))) cause ∨
    ∃ m, table.OperandTo k m ∧ Fails (table.typeEndFrom m) cause

theorem operandEnd_fails
    (h : Fails (table.plainOperandEnd (table.afterNew (table.afterTypePrefixes k))) cause) :
    Fails (table.operandEnd k) cause := by
  obtain ⟨offset, h⟩ := h
  refine ⟨offset, ?_⟩
  rw [operandEnd]
  simp only [h, bind, Except.bind]

theorem plainOperandEnd_function_fails (hkind : table.kind k = .punctuator)
    (htext : table.text k = "(") (harrow : table.is (table.closeOf k + 1) "=>" = true)
    (h : Fails (table.typeEnd (table.closeOf k + 2)) cause) :
    Fails (table.plainOperandEnd k) cause := by
  obtain ⟨offset, h⟩ := h
  refine ⟨offset, ?_⟩
  simp only [plainOperandEnd_of_mark hkind, htext, harrow, if_true, h, bind, Except.bind]

theorem typeEndFrom_fails (hoperator : (table.is k "|" || table.is k "&") = true)
    (h : table.TypeFails (k + 1) cause) : Fails (table.typeEndFrom k) cause := by
  rw [typeEndFrom, dif_pos hoperator]
  rcases h with h | ⟨m, hm, offset, hrest⟩
  · obtain ⟨offset, h⟩ := operandEnd_fails h
    exact ⟨offset, by simp only [h, bind, Except.bind]⟩
  · obtain ⟨_, hm⟩ := operandEnd_of hm
    exact ⟨offset, by simp only [hm, bind, Except.bind, hrest]⟩

/-- What goes on behind an operand that ends at the index cannot be read. -/
def OnwardFails (table : TokenTable) (k : Nat) (cause : Cause) : Prop :=
  ∃ m, Answers (table.postfixEnd k) m ∧ Fails (table.typeEndFrom m) cause

namespace OnwardFails

/-- Whatever an operand goes on with first, what stands behind that cannot be read either. -/
theorem of_postfixEnd (h : table.OnwardFails m cause)
    (honward : ∀ {i}, Answers (table.postfixEnd m) i → Answers (table.postfixEnd k) i) :
    table.OnwardFails k cause := by
  obtain ⟨i, hi, hfails⟩ := h
  exact ⟨i, honward hi, hfails⟩

/-- An operator goes on with a type that cannot be read. -/
theorem of_operator (hoperator : operator.IsMark "|" ∨ operator.IsMark "&")
    (hk : table.Ahead k (operator :: behind)) (h : table.TypeFails (k + 1) cause) :
    table.OnwardFails k cause :=
  ⟨_, postfixEnd_operator hoperator hk, typeEndFrom_fails (hk.joins hoperator) h⟩

theorem typeFails (h : table.OnwardFails m cause)
    (hoperand : ∀ {i}, Answers (table.postfixEnd m) i → table.OperandTo k i) :
    table.TypeFails k cause := by
  obtain ⟨i, hi, hfails⟩ := h
  exact .inr ⟨i, hoperand hi, hfails⟩

end OnwardFails

/-- A function whose result cannot be read is no type. -/
theorem typeFails_function {first last arrow : Token} {inner : List Token}
    (htable : tokenize source = .ok table) (hfirst : first.IsMark "(") (hlast : last.IsMark ")")
    (hinner : Balanced inner) (harrow : arrow.IsMark "=>")
    (hk : table.Ahead k (first :: (inner ++ last :: arrow :: behind)))
    (hresult : Fails (table.typeEnd (k + inner.length + 3)) cause) : table.TypeFails k cause := by
  have hclose := hk.closeOf htable (hfirst.opens? .round) (hlast.closes? .round) hinner
  have hbehind := hk.behind_closeOf htable (hfirst.opens? .round) (hlast.closes? .round) hinner
  have hplain : (table.afterNew (table.afterTypePrefixes k)).val = k := by
    rw [afterTypePrefixes_eq_self, afterNew_eq_self]
    · rw [hk.is, hfirst.is]
      rfl
    · rw [hk.isWord, hfirst.1]
      exact .inl rfl
  refine .inl ?_
  rw [hplain]
  refine plainOperandEnd_function_fails (hk.kind.trans hfirst.1) (hk.text.trans hfirst.2) ?_ ?_
  · rw [hbehind.is, harrow.is]
    rfl
  · rwa [hclose]

theorem TypeFails.typeEnd (h : table.TypeFails k cause) (hk : table.Ahead k (t :: behind))
    (ht : t.StartsType) : Fails (table.typeEnd k) cause := by
  have hself : (table.afterLeadingOperator k).val = k :=
    afterLeadingOperator_eq_self (hk.is _ ▸ ht.union) (hk.is _ ▸ ht.intersection)
  rw [← hself] at h
  rw [TokenTable.typeEnd]
  rcases h with h | ⟨m, hm, offset, hrest⟩
  · obtain ⟨offset, h⟩ := operandEnd_fails h
    exact ⟨offset, by simp only [h, bind, Except.bind]⟩
  · obtain ⟨_, hm⟩ := operandEnd_of hm
    exact ⟨offset, by simp only [hm, bind, Except.bind, hrest]⟩

end TokenTable

namespace TypeOperandTokens

variable {source : String} {table : TokenTable} {ts behind : List Token} {next : Token}
  {isFunction grouped : Bool} {k e : Nat}

/-- An operand ends where what goes on behind it ends, unless that is taken for a member, a
predicate or the result of a function. -/
theorem operandTo (h : TypeOperandTokens isFunction grouped ts)
    (htable : tokenize source = .ok table)
    (hk : table.Ahead k (ts ++ next :: behind)) (hpoint : next.is "." = false)
    (his : next.is "is" = false) (harrow : grouped = true → next.is "=>" = false)
    (hgo : table.GoesOn isFunction (k + ts.length) e) : table.OperandTo k e := by
  induction h generalizing k e next behind with
  | name ht hts => exact TokenTable.operandTo_name ht hts hk hpoint his hgo
  | literal ht => exact TokenTable.operandTo_literal ht hk hgo
  | negative hminus ht => exact TokenTable.operandTo_negative hminus ht hk hgo
  | bracketed shape hfirst hlast hinner =>
    rw [List.cons_append, List.append_assoc] at hk
    exact TokenTable.operandTo_bracketed shape htable hfirst hlast hinner hk harrow hgo
  | @function first last arrow inner ts grouped hfirst hlast hinner harrow' hts =>
    rw [List.cons_append, List.append_assoc] at hk
    have hbehind : table.Ahead (k + inner.length + 3) (ts ++ next :: behind) := by
      rw [show k + inner.length + 3 = k + 1 + inner.length + 1 + 1 by omega]
      exact hk.tail.append.tail.tail
    have hlength : k + (first :: (inner ++ last :: arrow :: ts)).length =
        k + inner.length + 3 + ts.length := by
      simp only [List.length_cons, List.length_append]
      omega
    rw [hlength] at hgo
    have hresult := hts.typeFrom htable hbehind hpoint his harrow hgo
    obtain ⟨t, rest, rfl, ht⟩ := hts.exists_startsType
    exact TokenTable.operandTo_function htable hfirst hlast hinner harrow' hk
      (hresult.typeEnd hbehind ht)
  | @applied first last ts inner isFunction grouped _ hfirst hline hlast hinner ih =>
    have hlist : table.Ahead k (ts ++ first :: (inner ++ last :: next :: behind)) := by
      simpa using hk
    rw [List.length_append, ← Nat.add_assoc] at hgo
    obtain ⟨hpoint', his', harrow'⟩ := hfirst.endsOperand (by decide)
    exact ih hlist hpoint' his' harrow' (hgo.of_postfixEnd
      (TokenTable.postfixEnd_list htable hfirst hline hlast hinner hlist.append))
  | @indexed first last ts inner isFunction grouped _ hfirst hline hlast hinner ih =>
    have hlist : table.Ahead k (ts ++ first :: (inner ++ last :: next :: behind)) := by
      simpa using hk
    rw [List.length_append, ← Nat.add_assoc] at hgo
    obtain ⟨hpoint', his', harrow'⟩ := hfirst.endsOperand (by decide)
    exact ih hlist hpoint' his' harrow' (hgo.of_postfixEnd
      (TokenTable.postfixEnd_brackets htable hfirst hline hlast hinner hlist.append))
  | @prefixed word ts isFunction grouped hword hmem hts ih =>
    rw [List.length_cons, Nat.add_comm ts.length, ← Nat.add_assoc] at hgo
    have hrest := ih hk.tail hpoint his harrow hgo
    obtain ⟨t, rest, rfl, ht⟩ := hts.typeTokens.exists_startsType
    rwa [TokenTable.OperandTo, TokenTable.afterTypePrefixes_word hword hmem ht hk]
  | @joined operator ts us grouped grouped' hts hoperator hus ih =>
    have hjoined : table.Ahead k (ts ++ operator :: (us ++ next :: behind)) := by
      simpa using hk
    have hlength : k + (ts ++ operator :: us).length = k + ts.length + 1 + us.length := by
      simp only [List.length_cons, List.length_append]
      omega
    rw [hlength] at hgo
    have hright := hus.typeFrom htable hjoined.append.tail hpoint his harrow hgo
    obtain ⟨-, -, -, hstop⟩ := hgo
    have honward : table.GoesOn true (k + ts.length) e :=
      TokenTable.Onward.of_operator hoperator hjoined.append hright hstop
    obtain ⟨hpoint', his', harrow'⟩ := Token.operator_endsOperand hoperator
    exact ih hjoined hpoint' his' harrow' honward

/-- An operand ends in front of a token that no type goes on with. -/
theorem operandEnd (h : TypeOperandTokens isFunction grouped ts)
    (htable : tokenize source = .ok table)
    (hk : table.Ahead k (ts ++ next :: behind))
    (hnext : ∀ text ∈ ["<", "[", ".", "is", "|", "&", "extends"], next.is text = false)
    (harrow : grouped = true → next.is "=>" = false) :
    Answers (table.operandEnd k) (k + ts.length) := by
  have hother : ∀ text ∈ ["<", "[", ".", "is", "|", "&", "extends"],
      table.is (k + ts.length) text = false := by
    intro text hmem
    rw [hk.append.is]
    exact hnext text hmem
  have honward : Answers (table.postfixEnd (k + ts.length)) (k + ts.length) :=
    TokenTable.postfixEnd_self (hother _ (by decide)) (hother _ (by decide)) (hother _ (by decide))
  have hstop : Answers (table.typeEndFrom (k + ts.length)) (k + ts.length) :=
    TokenTable.typeEndFrom_self (hother _ (by decide)) (hother _ (by decide))
      (hother _ (by decide))
  have hgo : table.GoesOn isFunction (k + ts.length) (k + ts.length) := by
    cases isFunction with
    | false => exact honward
    | true => exact ⟨_, honward, hstop, hstop⟩
  exact TokenTable.operandEnd_of
    (h.operandTo htable hk (hnext _ (by decide)) (hnext _ (by decide)) harrow hgo)

end TypeOperandTokens

/-- The first operand of a type ends in front of the operator behind it. -/
theorem OperatorBehind.exists_operandEnd {source : String} {table : TokenTable}
    {ts behind : List Token} {k : Nat} (h : OperatorBehind ts)
    (htable : tokenize source = .ok table) (hk : table.Ahead k (ts ++ behind)) :
    ∃ m, Answers (table.operandEnd k) m ∧ (table.is m "|" || table.is m "&") = true := by
  obtain ⟨us, operator, vs, grouped, rfl, hus, hoperator⟩ := h
  rw [List.append_assoc, List.cons_append] at hk
  have hgo : table.GoesOn false (k + us.length) (k + us.length) :=
    TokenTable.postfixEnd_operator hoperator hk.append
  obtain ⟨hpoint, his, harrow⟩ := Token.operator_endsOperand hoperator
  exact ⟨k + us.length, TokenTable.operandEnd_of (hus.operandTo htable hk hpoint his harrow hgo),
    hk.append.joins hoperator⟩

/-- A type cannot be read where what goes on behind it cannot be read. -/
theorem TypeTokens.typeFails {source : String} {table : TokenTable} {ts behind : List Token}
    {next : Token} {grouped : Bool} {k : Nat} {cause : Cause} (h : TypeTokens grouped ts)
    (htable : tokenize source = .ok table) (hk : table.Ahead k (ts ++ next :: behind))
    (hpoint : next.is "." = false) (his : next.is "is" = false)
    (harrow : grouped = true → next.is "=>" = false)
    (hgo : table.OnwardFails (k + ts.length) cause) : table.TypeFails k cause := by
  induction h generalizing k next behind with
  | name ht hts => exact hgo.typeFails (TokenTable.operandTo_name ht hts hk hpoint his)
  | literal ht => exact hgo.typeFails (TokenTable.operandTo_literal ht hk)
  | negative hminus ht => exact hgo.typeFails (TokenTable.operandTo_negative hminus ht hk)
  | bracketed shape hfirst hlast hinner =>
    rw [List.cons_append, List.append_assoc] at hk
    exact hgo.typeFails
      (TokenTable.operandTo_bracketed shape htable hfirst hlast hinner hk harrow)
  | @function first last arrow inner ts grouped hfirst hlast hinner harrow' hts ih =>
    rw [List.cons_append, List.append_assoc] at hk
    have hbehind : table.Ahead (k + inner.length + 3) (ts ++ next :: behind) := by
      rw [show k + inner.length + 3 = k + 1 + inner.length + 1 + 1 by omega]
      exact hk.tail.append.tail.tail
    have hlength : k + (first :: (inner ++ last :: arrow :: ts)).length =
        k + inner.length + 3 + ts.length := by
      simp only [List.length_cons, List.length_append]
      omega
    rw [hlength] at hgo
    have hresult := ih hbehind hpoint his harrow hgo
    obtain ⟨t, rest, rfl, ht⟩ := hts.exists_startsType
    exact TokenTable.typeFails_function htable hfirst hlast hinner harrow' hk
      (hresult.typeEnd hbehind ht)
  | @applied first last ts inner grouped _ hfirst hline hlast hinner ih =>
    have hlist : table.Ahead k (ts ++ first :: (inner ++ last :: next :: behind)) := by
      simpa using hk
    rw [List.length_append, ← Nat.add_assoc] at hgo
    obtain ⟨hpoint', his', harrow'⟩ := hfirst.endsOperand (by decide)
    exact ih hlist hpoint' his' harrow' (hgo.of_postfixEnd
      (TokenTable.postfixEnd_list htable hfirst hline hlast hinner hlist.append))
  | @indexed first last ts inner grouped _ hfirst hline hlast hinner ih =>
    have hlist : table.Ahead k (ts ++ first :: (inner ++ last :: next :: behind)) := by
      simpa using hk
    rw [List.length_append, ← Nat.add_assoc] at hgo
    obtain ⟨hpoint', his', harrow'⟩ := hfirst.endsOperand (by decide)
    exact ih hlist hpoint' his' harrow' (hgo.of_postfixEnd
      (TokenTable.postfixEnd_brackets htable hfirst hline hlast hinner hlist.append))
  | @prefixed word ts grouped hword hmem hts ih =>
    rw [List.length_cons, Nat.add_comm ts.length, ← Nat.add_assoc] at hgo
    have hrest := ih hk.tail hpoint his harrow hgo
    obtain ⟨t, rest, rfl, ht⟩ := hts.exists_startsType
    unfold TokenTable.TypeFails TokenTable.OperandTo at hrest ⊢
    rwa [TokenTable.afterTypePrefixes_word hword hmem ht hk]
  | @joined operator ts us grouped grouped' _ hoperator _ ih ih' =>
    have hjoined : table.Ahead k (ts ++ operator :: (us ++ next :: behind)) := by
      simpa using hk
    have hlength : k + (ts ++ operator :: us).length = k + ts.length + 1 + us.length := by
      simp only [List.length_cons, List.length_append]
      omega
    rw [hlength] at hgo
    have hright := ih' hjoined.append.tail hpoint his harrow hgo
    obtain ⟨hpoint', his', harrow'⟩ := Token.operator_endsOperand hoperator
    exact ih hjoined hpoint' his' harrow' (.of_operator hoperator hjoined.append hright)

end Workflow.Script
