import Workflow.Proofs.Script.Bracket
import Workflow.Proofs.Script.Grammar

/-!
# Looking ahead from a token

Erasure looks at the tokens from an index on. When these are known, so are the answers to
what it asks about that index. The searches for the end of a type are given here by one law
for each way they can go; no later proof opens their definitions.
-/

namespace Workflow.Script

/-- The token is the given operator or bracket. -/
def Token.IsMark (t : Token) (text : String) : Prop := t.kind = .punctuator ∧ t.text = text

/-- The token is the given word. -/
def Token.IsWord (t : Token) (text : String) : Prop := t.kind = .word ∧ t.text = text

/-- The token is a plain name. -/
def Token.IsName (t : Token) : Prop := t.kind = .word ∧ ∃ x : PlainName, t.text = x.text

/-- A mark is told from every other text. -/
theorem Token.IsMark.is {t : Token} {text : String} (h : t.IsMark text) (other : String) :
    t.is other = (text == other) := by
  simp [Token.is, h.1, h.2]

/-- A word is told from every other text. -/
theorem Token.IsWord.is {t : Token} {text : String} (h : t.IsWord text) (other : String) :
    t.is other = (text == other) := by
  simp [Token.is, h.1, h.2]

/-- A plain name is neither a reserved word nor an operator. -/
theorem Token.IsName.is_eq_false {t : Token} {text : String} (h : t.IsName)
    (hother : text ∈ reservedWords ∨ text.toList.head?.any isLetter = false) :
    t.is text = false := by
  obtain ⟨-, x, hx⟩ := h
  have hne : t.text ≠ text := by
    rintro rfl
    rcases hother with hmem | hletter
    · exact x.unreserved (hx ▸ hmem)
    · rw [hx, x.text_eq] at hletter
      simp [x.first_isLetter] at hletter
  simp [Token.is, hne]

/-- A name stands in no list of reserved words. -/
theorem Token.IsName.text_not_mem {t : Token} {words : List String} (h : t.IsName)
    (hwords : ∀ word ∈ words, word ∈ reservedWords) : t.text ∉ words := by
  obtain ⟨-, x, hx⟩ := h
  rw [hx]
  exact fun hmem => x.unreserved (hwords _ hmem)

theorem Token.IsName.contains_eq_false {t : Token} {words : List String} (h : t.IsName)
    (hwords : ∀ word ∈ words, word ∈ reservedWords) : words.contains t.text = false := by
  rw [Bool.eq_false_iff, Ne, List.contains_iff_mem]
  exact h.text_not_mem hwords

theorem Token.IsName.text_ne {t : Token} {word : String} (h : t.IsName)
    (hword : word ∈ reservedWords) : t.text ≠ word := by
  obtain ⟨-, x, hx⟩ := h
  rintro rfl
  exact x.unreserved (hx ▸ hword)

/-- The token is no word and no punctuator. -/
theorem Token.is_eq_false {t : Token} {text : String} (h : t.kind = .string ∨ t.kind = .number) :
    t.is text = false := by
  rcases h with h | h <;> simp [Token.is, h]

/-- The opening bracket of a shape is told by its text. -/
theorem Token.IsMark.opens? {t : Token} (shape : Bracket)
    (h : t.IsMark (String.singleton shape.opening)) : t.opens? = some shape := by
  cases shape <;> simp [Token.opens?, h.is, Bracket.opening]

/-- The closing bracket of a shape is told by its text. -/
theorem Token.IsMark.closes? {t : Token} (shape : Bracket)
    (h : t.IsMark (String.singleton shape.closing)) : t.closes? = some shape := by
  cases shape <;> simp [Token.closes?, h.is, Bracket.closing]

/-- A name is no bracket. -/
theorem Token.IsName.isNoBracket {t : Token} (h : t.IsName) : t.IsNoBracket := by
  refine isNoBracket_of_is fun text hmem => h.is_eq_false (.inr ?_)
  revert text
  decide

theorem Token.isNoBracket_of_literal {t : Token} (h : t.kind = .string ∨ t.kind = .number) :
    t.IsNoBracket := isNoBracket_of_is fun _ _ => is_eq_false h

theorem Token.IsMark.isNoBracket {t : Token} {text : String} (h : t.IsMark text)
    (htext : text ∉ ["(", "[", "\x7b", ")", "]", "\x7d"]) : t.IsNoBracket :=
  isNoBracket_of_text (h.2 ▸ htext)

/-- The token stands at the end of an operand. -/
def Token.EndsOperand (t : Token) : Prop :=
  t.IsName ∨ (t.kind = .string ∨ t.kind = .number) ∨ t.IsMark ")" ∨ t.IsMark "]" ∨ t.IsMark "\x7d"

/-- The end of an operand is not a point. -/
theorem Token.EndsOperand.unpointed {t : Token} (h : t.EndsOperand) :
    t.is "." = false ∧ t.is "?." = false := by
  rcases h with hname | hliteral | hmark | hmark | hmark
  · exact ⟨hname.is_eq_false (.inr (by decide)), hname.is_eq_false (.inr (by decide))⟩
  · exact ⟨is_eq_false hliteral, is_eq_false hliteral⟩
  · simp [hmark.is]
  · simp [hmark.is]
  · simp [hmark.is]

/-- The names behind the first part of a dotted name. -/
inductive Members : List Token → Prop
  | nil : Members []
  | cons {point name : Token} {ts : List Token} : point.IsMark "." → name.IsName → Members ts →
      Members (point :: name :: ts)

/-- A mark that is no bracket may be put in front of balanced tokens. -/
theorem Balanced.of_mark {t : Token} {text : String} {ts : List Token}
    (ht : t.IsMark text)
    (htext : text ∉ ["(", "[", "\x7b", ")", "]", "\x7d"]) (h : Balanced ts) : Balanced (t :: ts) :=
  .other (ht.isNoBracket htext).1 (ht.isNoBracket htext).2 h

theorem Token.IsWord.isNoBracket {t : Token} {text : String} (h : t.IsWord text)
    (htext : text ∉ ["(", "[", "\x7b", ")", "]", "\x7d"]) : t.IsNoBracket :=
  isNoBracket_of_text (h.2 ▸ htext)

/-- A word that is no bracket may be put in front of balanced tokens. -/
theorem Balanced.of_word {t : Token} {text : String} {ts : List Token} (ht : t.IsWord text)
    (htext : text ∉ ["(", "[", "\x7b", ")", "]", "\x7d"]) (h : Balanced ts) : Balanced (t :: ts) :=
  .other (ht.isNoBracket htext).1 (ht.isNoBracket htext).2 h

/-- A name may be put in front of balanced tokens. -/
theorem Balanced.of_name {t : Token} {ts : List Token} (ht : t.IsName) (h : Balanced ts) :
    Balanced (t :: ts) :=
  .other ht.isNoBracket.1 ht.isNoBracket.2 h

namespace TokenTable

variable {table : TokenTable} {k m n e : Nat} {t first last next : Token}
  {ts us inner behind : List Token}

/-- The tokens from an index on. -/
def Ahead (table : TokenTable) (k : Nat) (ts : List Token) : Prop := table.tokens.toList.drop k = ts

namespace Ahead

theorem getElem? (h : table.Ahead k (t :: ts)) : table.tokens[k]? = some t := by
  have hhead := congrArg List.head? h
  rwa [List.head?_drop, Array.getElem?_toList] at hhead

/-- Behind the first of the tokens stand the others. -/
theorem append (h : table.Ahead k (ts ++ us)) : table.Ahead (k + ts.length) us := by
  rw [Ahead, ← List.drop_drop, show table.tokens.toList.drop k = ts ++ us from h, List.drop_left]

theorem tail (h : table.Ahead k (t :: ts)) : table.Ahead (k + 1) ts :=
  append (show table.Ahead k ([t] ++ ts) from h)

theorem kind (h : table.Ahead k (t :: ts)) : table.kind k = t.kind := by
  simp [TokenTable.kind, h.getElem?]

theorem text (h : table.Ahead k (t :: ts)) : table.text k = t.text := by
  simp [TokenTable.text, h.getElem?]

theorem is (h : table.Ahead k (t :: ts)) (text : String) : table.is k text = t.is text := by
  simp [TokenTable.is, h.getElem?]

theorem drop (h : table.Ahead k ts) (n : Nat) : table.Ahead (k + n) (ts.drop n) := by
  rw [Ahead, ← List.drop_drop, show table.tokens.toList.drop k = ts from h]

/-- What is seen at an index is seen of the first token there. -/
theorem is_head (h : table.Ahead k ts) (text : String) :
    table.is k text = ts.head?.any (·.is text) := by
  have hhead := congrArg List.head? h
  rw [List.head?_drop, Array.getElem?_toList] at hhead
  rw [TokenTable.is, hhead]

theorem isWord (h : table.Ahead k (t :: ts)) : table.isWord k = (t.kind == .word) := by
  simp [TokenTable.isWord, h.kind]

theorem isOneOf (h : table.Ahead k (t :: ts)) (words : List String) :
    table.isOneOf k words = words.contains t.text := by
  simp [TokenTable.isOneOf, h.text]

theorem startsLine (h : table.Ahead k (t :: ts)) : table.startsLine k = t.startsLine := by
  simp [TokenTable.startsLine, h.getElem?]

/-- A bracket is closed behind what stands in it. -/
theorem closeOf {source : String} {shape : Bracket}
    (h : table.Ahead k (first :: (inner ++ last :: behind)))
    (htable : tokenize source = .ok table) (hopen : first.opens? = some shape)
    (hclose : last.closes? = some shape) (hinner : Balanced inner) :
    table.closeOf k = k + inner.length + 1 := by
  have hk : k < table.tokens.toList.length := by
    refine Nat.lt_of_not_le fun hle => ?_
    rw [Ahead, List.drop_eq_nil_of_le hle] at h
    cases h
  have hlength : (table.tokens.toList.take k).length = k :=
    List.length_take_of_le (Nat.le_of_lt hk)
  have htokens : table.tokens.toList =
      table.tokens.toList.take k ++ first :: (inner ++ last :: behind) := by
    rw [← show table.tokens.toList.drop k = _ from h, List.take_append_drop]
  have hclosed := closeOf_of_group htable htokens hopen hclose hinner
  rwa [hlength] at hclosed

/-- What follows a bracket stands behind the one that closes it. -/
theorem behind_closeOf {source : String} {shape : Bracket}
    (h : table.Ahead k (first :: (inner ++ last :: behind)))
    (htable : tokenize source = .ok table) (hopen : first.opens? = some shape)
    (hclose : last.closes? = some shape) (hinner : Balanced inner) :
    table.Ahead (table.closeOf k + 1) behind := by
  rw [h.closeOf htable hopen hclose hinner, Nat.add_right_comm k]
  exact h.tail.append.tail

end Ahead

end TokenTable

/-- A search for an end answers with the given index. -/
def Answers {p : Nat → Prop} (r : Except Fault { m : Nat // p m }) (e : Nat) : Prop :=
  ∃ h, r = .ok ⟨e, h⟩

namespace TokenTable

variable {table : TokenTable} {k m n e : Nat} {t first last next : Token}
  {ts us inner behind : List Token}

/-- Nothing is passed over in front of an operand where no prefix stands. -/
theorem afterTypePrefixes_eq_self
    (h : table.isWord k = false ∨ table.isOneOf k typePrefixes = false) :
    (table.afterTypePrefixes k).val = k := by
  rw [afterTypePrefixes, dif_neg]
  rcases h with h | h <;> simp [h]

/-- A prefix in front of a type is passed over, and then what stands behind it. -/
theorem afterTypePrefixes_eq (hword : table.isWord k = true)
    (hword' : table.isOneOf k typePrefixes = true) (hstart : table.startsType (k + 1) = true)
    (hangle : table.is (k + 1) "<" = false) :
    (table.afterTypePrefixes k).val = (table.afterTypePrefixes (k + 1)).val := by
  rw [afterTypePrefixes, dif_pos]
  simp [hword, hword', hstart, hangle]

/-- Only `new` is passed over in front of a constructor type. -/
theorem afterNew_eq_self (h : table.is k "new" = false) : (table.afterNew k).val = k := by
  simp [afterNew, h]

/-- A name without a point behind it has no members. -/
theorem afterMembers_eq_self (h : table.is k "." = false) : (table.afterMembers k).val = k := by
  rw [afterMembers, dif_neg]
  simp [h]

/-- A member is passed over with its point, and then what stands behind it. -/
theorem afterMembers_eq (hpoint : table.is k "." = true) (hword : table.isWord (k + 1) = true) :
    (table.afterMembers k).val = (table.afterMembers (k + 2)).val := by
  rw [afterMembers, dif_pos ⟨hpoint, hword⟩]

/-- The tokens that the search for a closing angle bracket looks at. -/
def angleMarks : List String := ["<", ">", "(", "[", "\x7b", ";", ")", "]", "\x7d"]

section

variable {start depth : Nat}

/-- A token that is no mark is passed over. -/
theorem angleEndFrom_eq (hkind : table.kind k ≠ .punctuator) (hfinish : table.kind k ≠ .finish) :
    table.angleEndFrom start depth k = (do
      let ⟨e, he⟩ ← table.angleEndFrom start depth (k + 1)
      return ⟨e, Nat.lt_of_succ_lt he⟩) := by
  rw [angleEndFrom]
  split
  case h_1 h => exact absurd h hfinish
  case h_2 h => exact absurd h hkind
  all_goals rfl

/-- A list in angle brackets that reaches the end of the source is refused. -/
theorem angleEndFrom_finish (hkind : table.kind k = .finish) :
    table.angleEndFrom start depth k = .error (table.fault start .unterminatedTypeList) := by
  rw [angleEndFrom]
  split
  case h_1 => rfl
  all_goals simp_all

/-- What a mark does depends on its text. -/
theorem angleEndFrom_mark (hkind : table.kind k = .punctuator) :
    table.angleEndFrom start depth k =
      match table.text k with
      | "<" => do
        let ⟨e, he⟩ ← table.angleEndFrom start (depth + 1) (k + 1)
        return ⟨e, Nat.lt_of_succ_lt he⟩
      | ">" =>
        if depth ≤ 1 then .ok ⟨k + 1, Nat.lt_succ_self k⟩
        else do
          let ⟨e, he⟩ ← table.angleEndFrom start (depth - 1) (k + 1)
          return ⟨e, Nat.lt_of_succ_lt he⟩
      | "(" | "[" | "\x7b" => do
        let ⟨e, he⟩ ← table.angleEndFrom start depth (table.closeOf k + 1)
        return ⟨e, table.lt_of_closeOf_lt he⟩
      | ";" | ")" | "]" | "\x7d" => .error (table.fault start .unterminatedTypeList)
      | _ => do
        let ⟨e, he⟩ ← table.angleEndFrom start depth (k + 1)
        return ⟨e, Nat.lt_of_succ_lt he⟩ := by
  rw [angleEndFrom]
  split
  case h_2 => rfl
  all_goals simp_all

/-- A token that is neither a bracket nor a semicolon is passed over in a list. -/
theorem angleEndFrom_other (hkind : table.kind k ≠ .finish)
    (htext : table.kind k = .punctuator → table.text k ∉ angleMarks)
    (h : Answers (table.angleEndFrom start depth (k + 1)) e) :
    Answers (table.angleEndFrom start depth k) e := by
  obtain ⟨_, h⟩ := h
  by_cases hmark : table.kind k = .punctuator
  · have hother := htext hmark
    rw [angleEndFrom_mark hmark]
    split
    case h_10 =>
      rw [h]
      exact ⟨_, rfl⟩
    all_goals
      rename_i heq
      rw [heq] at hother
      exact absurd (by decide) hother
  · rw [angleEndFrom_eq hmark hkind, h]
    exact ⟨_, rfl⟩

/-- A group in brackets is passed over whole in a list. -/
theorem angleEndFrom_group (hkind : table.kind k = .punctuator)
    (htext : table.text k = "(" ∨ table.text k = "[" ∨ table.text k = "\x7b")
    (h : Answers (table.angleEndFrom start depth (table.closeOf k + 1)) e) :
    Answers (table.angleEndFrom start depth k) e := by
  obtain ⟨_, h⟩ := h
  rw [angleEndFrom_mark hkind]
  rcases htext with htext | htext | htext
  all_goals
    simp only [htext, h]
    exact ⟨_, rfl⟩

/-- An angle bracket in a list opens a further one. -/
theorem angleEndFrom_open (hkind : table.kind k = .punctuator) (htext : table.text k = "<")
    (h : Answers (table.angleEndFrom start (depth + 1) (k + 1)) e) :
    Answers (table.angleEndFrom start depth k) e := by
  obtain ⟨_, h⟩ := h
  simp only [angleEndFrom_mark hkind, htext, h]
  exact ⟨_, rfl⟩

/-- The list ends behind the bracket that closes the outermost one. -/
theorem angleEndFrom_last (hkind : table.kind k = .punctuator) (htext : table.text k = ">") :
    Answers (table.angleEndFrom start 1 k) (k + 1) := by
  simp only [angleEndFrom_mark hkind, htext]
  exact ⟨_, rfl⟩

/-- An angle bracket that closes an inner list is passed over. -/
theorem angleEndFrom_close (hkind : table.kind k = .punctuator) (htext : table.text k = ">")
    (hdepth : 0 < depth) (h : Answers (table.angleEndFrom start depth (k + 1)) e) :
    Answers (table.angleEndFrom start (depth + 1) k) e := by
  obtain ⟨_, h⟩ := h
  have houter : ¬ depth + 1 ≤ 1 := by omega
  simp only [angleEndFrom_mark hkind, htext, houter, Nat.add_sub_cancel, h]
  exact ⟨_, rfl⟩

end

/-- An operand goes on with nothing else. -/
theorem postfixEnd_self (hangle : table.is k "<" = false) (hsquare : table.is k "[" = false)
    (hpoint : table.is k "." = false) : Answers (table.postfixEnd k) k := by
  rw [postfixEnd]
  split
  · exact ⟨_, rfl⟩
  · simp only [hangle, hsquare, hpoint]
    exact ⟨_, rfl⟩

/-- An operand goes on with a list in angle brackets on its line. -/
theorem postfixEnd_angle (hline : table.startsLine k = false) (hangle : table.is k "<" = true)
    (h : Answers (table.angleEnd k) m) (hrest : Answers (table.postfixEnd m) e) :
    Answers (table.postfixEnd k) e := by
  obtain ⟨_, h⟩ := h
  obtain ⟨_, hrest⟩ := hrest
  rw [postfixEnd, if_neg (by simp [hline]), dif_pos hangle, h]
  simp only [bind, Except.bind, hrest]
  exact ⟨_, rfl⟩

/-- An operand goes on with square brackets on its line. -/
theorem postfixEnd_square (hline : table.startsLine k = false) (hangle : table.is k "<" = false)
    (hsquare : table.is k "[" = true) (h : Answers (table.postfixEnd (table.closeOf k + 1)) e) :
    Answers (table.postfixEnd k) e := by
  obtain ⟨_, h⟩ := h
  rw [postfixEnd, if_neg (by simp [hline]), dif_neg (by simp [hangle]), dif_pos hsquare, h]
  exact ⟨_, rfl⟩

/-- A name is read with its members, and as a predicate if the word `is` stands behind it. -/
theorem plainOperandEnd_of_word (hkind : table.kind k = .word) : table.plainOperandEnd k =
    (let n := table.afterMembers (k + 1)
    if table.is n "is" && !table.startsLine n then do
      let ⟨e, he⟩ ← table.typeEnd (n + 1)
      return ⟨e, Index.lt_of_later_lt n he⟩
    else do
      let ⟨e, he⟩ ← table.postfixEnd n
      return ⟨e, Index.lt_of_later_le n he⟩) := by
  rw [plainOperandEnd]
  split
  case h_1 => rfl
  all_goals simp_all

/-- A literal is an operand, and goes on as one. -/
theorem plainOperandEnd_of_literal
    (hkind : table.kind k = .string ∨ table.kind k = .number ∨ table.kind k = .template) :
    table.plainOperandEnd k = (do
      let ⟨e, he⟩ ← table.postfixEnd (k + 1)
      return ⟨e, Nat.lt_of_succ_le he⟩) := by
  rw [plainOperandEnd]
  split
  case h_2 | h_3 | h_4 => rfl
  all_goals simp_all

/-- What a mark starts depends on its text. -/
theorem plainOperandEnd_of_mark (hkind : table.kind k = .punctuator) : table.plainOperandEnd k =
    match table.text k with
    | "-" =>
      if table.kind (k + 1) = .number then do
        let ⟨e, he⟩ ← table.postfixEnd (k + 2)
        return ⟨e, Index.lt_of_two_le he⟩
      else .error (table.fault k .typeExpected)
    | "\x7b" | "[" => do
      let ⟨e, he⟩ ← table.postfixEnd (table.closeOf k + 1)
      return ⟨e, table.lt_of_closeOf_le he⟩
    | "(" =>
      if table.is (table.closeOf k + 1) "=>" then do
        let ⟨e, he⟩ ← table.typeEnd (table.closeOf k + 2)
        return ⟨e, table.lt_of_closeOf_two_lt he⟩
      else do
        let ⟨e, he⟩ ← table.postfixEnd (table.closeOf k + 1)
        return ⟨e, table.lt_of_closeOf_le he⟩
    | "<" => do
      let ⟨params, hParams⟩ ← table.angleEnd k
      if table.is params "(" then
        let ⟨result, hResult⟩ ← table.expect (table.closeOf params + 1) "=>"
        let ⟨e, he⟩ ← table.typeEnd result
        return ⟨e, table.lt_of_lt_closeOf_lt hParams hResult he⟩
      else .error (table.fault params (.expected "("))
    | _ => .error (table.fault k .typeExpected) := by
  rw [plainOperandEnd]
  split
  case h_5 => rfl
  all_goals simp_all

/-- No type starts with a regular expression or at the end of the source. -/
theorem plainOperandEnd_of_other (hkind : table.kind k = .regex ∨ table.kind k = .finish) :
    table.plainOperandEnd k = .error (table.fault k .typeExpected) := by
  rw [plainOperandEnd]
  split
  case h_6 | h_7 => rfl
  all_goals simp_all

/-- A name with its members is an operand, unless it is checked by a predicate. -/
theorem plainOperandEnd_word (hkind : table.kind k = .word)
    (his : table.is (table.afterMembers (k + 1)) "is" = false)
    (h : Answers (table.postfixEnd (table.afterMembers (k + 1))) e) :
    Answers (table.plainOperandEnd k) e := by
  obtain ⟨_, h⟩ := h
  simp only [plainOperandEnd_of_word hkind, his, h]
  exact ⟨_, rfl⟩

/-- A predicate goes on with the type behind `is`. -/
theorem plainOperandEnd_predicate (hkind : table.kind k = .word)
    (his : table.is (table.afterMembers (k + 1)) "is" = true)
    (hline : table.startsLine (table.afterMembers (k + 1)) = false)
    (h : Answers (table.typeEnd (table.afterMembers (k + 1) + 1)) e) :
    Answers (table.plainOperandEnd k) e := by
  obtain ⟨_, h⟩ := h
  simp only [plainOperandEnd_of_word hkind, his, hline, h]
  exact ⟨_, rfl⟩

theorem plainOperandEnd_literal (hkind : table.kind k = .string ∨ table.kind k = .number)
    (h : Answers (table.postfixEnd (k + 1)) e) : Answers (table.plainOperandEnd k) e := by
  obtain ⟨_, h⟩ := h
  rw [plainOperandEnd_of_literal (hkind.imp_right .inl), h]
  exact ⟨_, rfl⟩

/-- A minus and a number are an operand, and go on as one. -/
theorem plainOperandEnd_negative (hkind : table.kind k = .punctuator) (htext : table.text k = "-")
    (hnumber : table.kind (k + 1) = .number) (h : Answers (table.postfixEnd (k + 2)) e) :
    Answers (table.plainOperandEnd k) e := by
  obtain ⟨_, h⟩ := h
  simp only [plainOperandEnd_of_mark hkind, htext, hnumber, h]
  exact ⟨_, rfl⟩

/-- A group in brackets is an operand, and goes on as one. -/
theorem plainOperandEnd_group (hkind : table.kind k = .punctuator)
    (htext : table.text k = "(" ∧ table.is (table.closeOf k + 1) "=>" = false ∨
      table.text k = "[" ∨ table.text k = "\x7b")
    (h : Answers (table.postfixEnd (table.closeOf k + 1)) e) :
    Answers (table.plainOperandEnd k) e := by
  obtain ⟨_, h⟩ := h
  rw [plainOperandEnd_of_mark hkind]
  rcases htext with ⟨htext, harrow⟩ | htext | htext
  · simp only [htext, harrow, h]
    exact ⟨_, rfl⟩
  · simp only [htext, h]
    exact ⟨_, rfl⟩
  · simp only [htext, h]
    exact ⟨_, rfl⟩

/-- A function type ends where its result ends. -/
theorem plainOperandEnd_function (hkind : table.kind k = .punctuator) (htext : table.text k = "(")
    (harrow : table.is (table.closeOf k + 1) "=>" = true)
    (h : Answers (table.typeEnd (table.closeOf k + 2)) e) :
    Answers (table.plainOperandEnd k) e := by
  obtain ⟨_, h⟩ := h
  simp only [plainOperandEnd_of_mark hkind, htext, harrow, h]
  exact ⟨_, rfl⟩

/-- An operand ends where what stands behind its prefixes ends. -/
theorem operandEnd_of
    (h : Answers (table.plainOperandEnd (table.afterNew (table.afterTypePrefixes k))) e) :
    Answers (table.operandEnd k) e := by
  obtain ⟨_, h⟩ := h
  rw [operandEnd]
  simp only [h]
  exact ⟨_, rfl⟩

/-- A type without an operator in front starts at its first operand. -/
theorem afterLeadingOperator_eq_self (hunion : table.is k "|" = false)
    (hintersection : table.is k "&" = false) : (table.afterLeadingOperator k).val = k := by
  simp [afterLeadingOperator, hunion, hintersection]

/-- A type ends where what goes on behind its first operand ends. -/
theorem typeEnd_of (h : Answers (table.operandEnd (table.afterLeadingOperator k)) m)
    (hrest : Answers (table.typeEndFrom m) e) : Answers (table.typeEnd k) e := by
  obtain ⟨_, h⟩ := h
  obtain ⟨_, hrest⟩ := hrest
  rw [typeEnd]
  simp only [h, bind, Except.bind, hrest]
  exact ⟨_, rfl⟩

/-- A type goes on with nothing else. -/
theorem typeEndFrom_self (hunion : table.is k "|" = false) (hintersection : table.is k "&" = false)
    (hextends : table.is k "extends" = false) : Answers (table.typeEndFrom k) k := by
  rw [typeEndFrom, dif_neg (by simp [hunion, hintersection]), dif_neg (by simp [hextends])]
  exact ⟨_, rfl⟩

/-- Behind an operator a type goes on with a further operand. -/
theorem typeEndFrom_of (hoperator : (table.is k "|" || table.is k "&") = true)
    (h : Answers (table.operandEnd (k + 1)) m) (hrest : Answers (table.typeEndFrom m) e) :
    Answers (table.typeEndFrom k) e := by
  obtain ⟨_, h⟩ := h
  obtain ⟨_, hrest⟩ := hrest
  rw [typeEndFrom, dif_pos hoperator, h]
  simp only [bind, Except.bind, hrest]
  exact ⟨_, rfl⟩

end TokenTable

end Workflow.Script
