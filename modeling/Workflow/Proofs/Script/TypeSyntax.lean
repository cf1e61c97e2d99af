import Workflow.Proofs.Script.TypeExtent

/-!
# Where a type of the grammar ends

The grammar of types, with a production for each form of a type. A function or a predicate takes
in whatever operators stand behind it, so the grammar need not say that it has to be put in
parentheses there: however the tokens are grouped, they end at the same place. A type that is
written on one line ends at the first token behind it that delimits types.
-/

namespace Workflow.Script

/-- The tokens are the given parts with marks between them; a mark may also stand behind the
last part. -/
inductive Separated (text : String) : List (List Token) → List Token → Prop
  | nil : Separated text [] []
  | last (part : List Token) : Separated text [part] part
  | cons {part ts : List Token} {parts : List (List Token)} {mark : Token} : mark.IsMark text →
      Separated text parts ts → Separated text (part :: parts) (part ++ mark :: ts)

/-- A name with a type. -/
structure TypedField where
  name : Token
  colon : Token
  type : List Token

namespace TypedField

def tokens (f : TypedField) : List Token := f.name :: f.colon :: f.type

/-- A colon stands between the name and its type. -/
def IsNamed (f : TypedField) : Prop := f.name.IsName ∧ f.colon.IsMark ":"

end TypedField

/-- The tokens are a type of the grammar. -/
inductive TypeSyntax : List Token → Prop
  | name {t : Token} {members : List Token} : t.IsName → Members members →
      TypeSyntax (t :: members)
  | literal {t : Token} : t.kind = .string ∨ t.kind = .number → TypeSyntax [t]
  | negative {minus t : Token} : minus.IsMark "-" → t.kind = .number → TypeSyntax [minus, t]
  | group {first last : Token} {ts : List Token} : first.IsMark "(" → last.IsMark ")" →
      TypeSyntax ts → TypeSyntax (first :: (ts ++ [last]))
  | tuple {first last : Token} {items : List (List Token)} {inner : List Token} :
      first.IsMark "[" → last.IsMark "]" → Separated "," items inner →
      (∀ item ∈ items, TypeSyntax item) → TypeSyntax (first :: (inner ++ [last]))
  | object {first last : Token} {fields : List TypedField} {inner : List Token} :
      first.IsMark "\x7b" → last.IsMark "\x7d" →
      Separated ";" (fields.map TypedField.tokens) inner → (∀ f ∈ fields, f.IsNamed) →
      (∀ f ∈ fields, TypeSyntax f.type) → TypeSyntax (first :: (inner ++ [last]))
  | function {first last arrow : Token} {parameters : List TypedField} {inner ts : List Token} :
      first.IsMark "(" → last.IsMark ")" →
      Separated "," (parameters.map TypedField.tokens) inner → (∀ f ∈ parameters, f.IsNamed) →
      (∀ f ∈ parameters, TypeSyntax f.type) → arrow.IsMark "=>" → TypeSyntax ts →
      TypeSyntax (first :: (inner ++ last :: arrow :: ts))
  | predicate {t word : Token} {ts : List Token} : t.IsName → word.IsWord "is" → TypeSyntax ts →
      TypeSyntax (t :: word :: ts)
  | applied {t first last : Token} {members inner : List Token} {items : List (List Token)} :
      t.IsName → Members members → first.IsMark "<" → last.IsMark ">" →
      Separated "," items inner → (∀ item ∈ items, TypeSyntax item) →
      TypeSyntax (t :: members ++ first :: (inner ++ [last]))
  | array {first last : Token} {ts : List Token} : TypeSyntax ts → first.IsMark "[" →
      last.IsMark "]" → TypeSyntax (ts ++ [first, last])
  | indexed {first key last : Token} {ts : List Token} : TypeSyntax ts → first.IsMark "[" →
      key.kind = .string → last.IsMark "]" → TypeSyntax (ts ++ [first, key, last])
  | prefixed {word : Token} {ts : List Token} : word.kind = .word →
      word.text ∈ ["keyof", "readonly", "typeof"] → TypeSyntax ts → TypeSyntax (word :: ts)
  | joined {operator : Token} {ts us : List Token} : TypeSyntax ts →
      operator.IsMark "|" ∨ operator.IsMark "&" → TypeSyntax us →
      TypeSyntax (ts ++ operator :: us)

/-- The tokens are a type of the grammar, in front of which an operator may stand. -/
inductive WholeType : List Token → Prop
  | plain {ts : List Token} : TypeSyntax ts → WholeType ts
  | led {operator : Token} {ts : List Token} : operator.IsMark "|" ∨ operator.IsMark "&" →
      TypeSyntax ts → WholeType (operator :: ts)

/-- The tokens stand on one line, which may begin with the first of them. -/
def OneLine (ts : List Token) : Prop := ∀ t ∈ ts.tail, t.startsLine = false

instance (ts : List Token) : Decidable (OneLine ts) :=
  inferInstanceAs (Decidable (∀ t ∈ ts.tail, t.startsLine = false))

/-- The marks in front of which a type ends. -/
def typeDelimiters : List String := ["=", ",", ";", ")", "\x7b", ">", "]"]

variable {ts us inner : List Token} {t first : Token} {text : String}
  {parts : List (List Token)} {fields : List TypedField}

namespace Separated

/-- What holds of the parts and passes over the marks holds of the whole. -/
theorem closed {P : List Token → Prop} (h : Separated text parts ts) (hnil : P [])
    (happend : ∀ {ts us}, P ts → P us → P (ts ++ us))
    (hmark : ∀ {mark ts}, mark.IsMark text → P ts → P (mark :: ts))
    (hparts : ∀ part ∈ parts, P part) : P ts := by
  induction h with
  | nil => exact hnil
  | last part => exact hparts part (List.mem_singleton_self part)
  | cons hsep _ ih =>
    obtain ⟨hpart, hrest⟩ := List.forall_mem_cons.mp hparts
    exact happend hpart (hmark hsep (ih hrest))

theorem enclosed (h : Separated "," parts ts) (hparts : ∀ part ∈ parts, Enclosed part) :
    Enclosed ts :=
  h.closed .nil (fun h h' => h.append h') (fun hmark h => .mark hmark (by decide) h) hparts

theorem balanced (h : Separated text parts ts) (htext : text ∈ [",", ";"])
    (hparts : ∀ part ∈ parts, Balanced part) : Balanced ts := by
  refine h.closed .nil (fun h h' => h.append h') (fun hmark h => .of_mark hmark ?_ h) hparts
  simp only [List.mem_cons, List.not_mem_nil, or_false] at htext
  rcases htext with rfl | rfl <;> decide

theorem mem_of_mem (h : Separated text parts ts) {part : List Token} (hpart : part ∈ parts)
    (ht : t ∈ part) : t ∈ ts := by
  induction h with
  | nil => cases hpart
  | last part =>
    rw [List.mem_singleton] at hpart
    exact hpart ▸ ht
  | cons _ _ ih =>
    rcases List.mem_cons.mp hpart with rfl | hpart
    · exact List.mem_append_left _ ht
    · exact List.mem_append_right _ (List.mem_cons_of_mem _ (ih hpart))

end Separated

namespace OneLine

theorem left (h : OneLine (ts ++ us)) : OneLine ts := by
  intro t ht
  refine h t ?_
  cases ts with
  | nil => cases ht
  | cons u ts => exact List.mem_append_left _ ht

/-- What stands behind the first token does not start a line. -/
theorem of_cons (h : OneLine (first :: ts)) (ht : t ∈ ts) : t.startsLine = false := h t ht

/-- What stands in brackets starts no line. -/
theorem inside (h : OneLine (first :: (inner ++ us))) : ∀ t ∈ inner, t.startsLine = false :=
  fun _ ht => h.of_cons (List.mem_append_left _ ht)

theorem right (h : OneLine (ts ++ us)) (hts : ts ≠ []) (ht : t ∈ us) : t.startsLine = false := by
  obtain ⟨u, ts, rfl⟩ := List.exists_cons_of_ne_nil hts
  exact h t (List.mem_append_right _ ht)

theorem of_forall (h : ∀ t ∈ ts, t.startsLine = false) : OneLine ts :=
  fun t ht => h t (List.mem_of_mem_tail ht)

end OneLine

namespace FollowedAsType

theorem ne_nil {grouped : Bool} (h : FollowedAsType grouped ts) : ts ≠ [] := by
  obtain ⟨t, rest, rfl, -⟩ := h.starts
  exact List.cons_ne_nil t rest

variable {source : String} {table : TokenTable} {behind : List Token} {operator next : Token}
  {k : Nat} {grouped : Bool}

/-- An operator in front of a type is passed over. -/
theorem typeEnd_led (h : FollowedAsType grouped ts) (htable : tokenize source = .ok table)
    (hoperator : operator.IsMark "|" ∨ operator.IsMark "&")
    (hk : table.Ahead k (operator :: (ts ++ next :: behind)))
    (hnext : ∀ text ∈ ["<", "[", ".", "is", "|", "&", "extends"], next.is text = false)
    (harrow : grouped = true → next.is "=>" = false) :
    Answers (table.typeEnd k) (k + (operator :: ts).length) := by
  obtain ⟨m, hm, he⟩ := h.typeFrom htable hk.tail (hnext _ (by decide)) (hnext _ (by decide)) harrow
    (onward hk.tail.append hnext)
  have hpassed : (table.afterLeadingOperator k).val = k + 1 := by
    simp only [TokenTable.afterLeadingOperator, hk.joins hoperator, if_true]
  rw [List.length_cons, Nat.add_comm ts.length, ← Nat.add_assoc]
  refine TokenTable.typeEnd_of ?_ he
  rw [hpassed]
  exact TokenTable.operandEnd_of hm

end FollowedAsType

namespace Separated

/-- Parts of tokens that start no line are on one line. -/
theorem oneLine (h : Separated text parts ts) (hline : ∀ t ∈ ts, t.startsLine = false)
    {part : List Token} (hpart : part ∈ parts) : OneLine part :=
  .of_forall fun t ht => hline t (h.mem_of_mem hpart ht)

/-- Names with types that are followed as types are balanced. -/
theorem balanced_fields (h : Separated text (fields.map TypedField.tokens) inner)
    (htext : text ∈ [",", ";"]) (hnamed : ∀ f ∈ fields, f.IsNamed)
    (hline : ∀ t ∈ inner, t.startsLine = false)
    (htypes : ∀ f ∈ fields, OneLine f.type → ∃ grouped, FollowedAsType grouped f.type) :
    Balanced inner := by
  refine h.balanced htext fun part hpart => ?_
  have honeLine := h.oneLine hline hpart
  obtain ⟨f, hf, rfl⟩ := List.mem_map.mp hpart
  obtain ⟨hname, hcolon⟩ := hnamed f hf
  have htype : OneLine f.type :=
    .of_forall fun t ht => honeLine.of_cons (List.mem_cons_of_mem _ ht)
  obtain ⟨grouped, hfollowed⟩ := htypes f hf htype
  exact .of_name hname (.of_mark hcolon (by decide) hfollowed.enclosed.balanced)

end Separated

/-- A type of the grammar that is written on one line is followed as a type. -/
theorem TypeSyntax.followed (h : TypeSyntax ts) (hline : OneLine ts) :
    ∃ grouped, FollowedAsType grouped ts := by
  induction h with
  | name ht hmembers => exact ⟨_, .name ht hmembers⟩
  | literal ht => exact ⟨_, .literal ht⟩
  | negative hminus ht => exact ⟨_, .negative hminus ht⟩
  | group hfirst hlast _ ih =>
    obtain ⟨grouped, hinner⟩ := ih (.of_forall hline.inside)
    exact ⟨_, .bracketed .round hfirst hlast hinner.enclosed.balanced⟩
  | tuple hfirst hlast hinner _ ih =>
    have hbalanced := hinner.balanced (by decide) fun item hitem =>
      (ih item hitem (hinner.oneLine hline.inside hitem)).elim fun _ h => h.enclosed.balanced
    exact ⟨_, .bracketed .square hfirst hlast hbalanced⟩
  | object hfirst hlast hinner hnamed _ ih =>
    have hbalanced := hinner.balanced_fields (by decide) hnamed hline.inside ih
    exact ⟨_, .bracketed .curly hfirst hlast hbalanced⟩
  | function hfirst hlast hinner hnamed _ harrow _ ihParameters ih =>
    have hbalanced := hinner.balanced_fields (by decide) hnamed hline.inside ihParameters
    obtain ⟨grouped, hresult⟩ := ih (.of_forall fun t ht => hline.of_cons
      (List.mem_append_right _ (List.mem_cons_of_mem _ (List.mem_cons_of_mem _ ht))))
    exact ⟨_, .function hfirst hlast hbalanced harrow hresult⟩
  | predicate ht hword _ ih =>
    obtain ⟨grouped, htype⟩ :=
      ih (.of_forall fun t ht => hline.of_cons (List.mem_cons_of_mem _ ht))
    exact ⟨_, .predicate ht hword (hline.of_cons List.mem_cons_self) htype⟩
  | @applied t first last members inner items ht hmembers hfirst hlast hinner _ ih =>
    have hinside : ∀ u ∈ inner, u.startsLine = false := fun u hu =>
      hline.right (List.cons_ne_nil t members) (List.mem_cons_of_mem _ (List.mem_append_left _ hu))
    have hangle := hline.right (List.cons_ne_nil t members) List.mem_cons_self
    have henclosed := hinner.enclosed fun item hitem =>
      (ih item hitem (hinner.oneLine hinside hitem)).elim fun _ h => h.enclosed
    exact ⟨_, .applied (.name ht hmembers) hfirst hangle hlast henclosed⟩
  | array _ hfirst hlast ih =>
    obtain ⟨grouped, htype⟩ := ih hline.left
    have hsquare := hline.right htype.ne_nil List.mem_cons_self
    exact ⟨_, .indexed htype hfirst hsquare hlast .nil⟩
  | @indexed first key last ts _ hfirst hkey hlast ih =>
    obtain ⟨grouped, htype⟩ := ih hline.left
    have hsquare := hline.right htype.ne_nil List.mem_cons_self
    have hliteral := Enclosed.literal (.inl hkey) .nil
    exact ⟨_, .indexed htype hfirst hsquare hlast hliteral.balanced⟩
  | prefixed hword hmem _ ih =>
    obtain ⟨grouped, htype⟩ := ih (.of_forall fun t ht => hline.of_cons ht)
    exact ⟨_, .prefixed hword hmem htype⟩
  | joined _ hoperator _ ih ih' =>
    obtain ⟨grouped, hleft⟩ := ih hline.left
    obtain ⟨grouped', hright⟩ := ih' (.of_forall fun t ht =>
      hline.right hleft.ne_nil (List.mem_cons_of_mem _ ht))
    exact ⟨_, .joined hleft hoperator hright⟩

theorem typeDelimiters_outside (htext : text ∈ typeDelimiters) :
    text ∉ ["<", "[", ".", "is", "|", "&", "extends", "=>"] := by
  revert text
  decide

/-- A type of the grammar that is written on one line ends at the delimiter behind it. -/
theorem typeEnd_of_wholeType {source : String} {table : TokenTable}
    {before behind : List Token} {delimiter : Token} (htable : tokenize source = .ok table)
    (htokens : table.tokens.toList = before ++ (ts ++ delimiter :: behind)) (hts : WholeType ts)
    (hline : OneLine ts) (hdelimiter : ∃ text ∈ typeDelimiters, delimiter.IsMark text) :
    Answers (table.typeEnd before.length) (before.length + ts.length) := by
  have hk : table.Ahead before.length (ts ++ delimiter :: behind) := by
    rw [TokenTable.Ahead, htokens, List.drop_left]
  obtain ⟨text, htext, hmark⟩ := hdelimiter
  have houtside := typeDelimiters_outside htext
  have hother : ∀ other ∈ ["<", "[", ".", "is", "|", "&", "extends", "=>"],
      delimiter.is other = false := by
    intro other hother
    rw [hmark.is, beq_eq_false_iff_ne]
    exact ne_of_mem_of_not_mem hother houtside |>.symm
  have hnext : ∀ other ∈ ["<", "[", ".", "is", "|", "&", "extends"],
      delimiter.is other = false := fun other hmem => hother other (List.mem_append_left ["=>"] hmem)
  cases hts with
  | plain hts =>
    obtain ⟨grouped, hfollowed⟩ := hts.followed hline
    exact hfollowed.typeEnd htable hk hnext fun _ => hother _ (by decide)
  | led hoperator hts =>
    obtain ⟨grouped, hfollowed⟩ := hts.followed (.of_forall fun t ht => hline.of_cons ht)
    exact hfollowed.typeEnd_led htable hoperator hk hnext fun _ => hother _ (by decide)

theorem Token.isName_of_isPlainName (hkind : t.kind = .word) (htext : isPlainName t.text = true) :
    t.IsName := by
  refine ⟨hkind, .ofText t.text htext, ?_⟩
  rw [PlainName.ofText]
  split
  · rename_i hnil
    simp [isPlainName, hnil] at htext
  · rfl

/-- A function whose result is a predicate about a list, in front of its value. -/
theorem typeEnd_of_predicate_function : ∃ table,
    tokenize "let f: (x: A) => x is B<C>[] = g;" = .ok table ∧ table.is 17 "=" = true ∧
      Answers (table.typeEnd 3) 17 := by
  have hread : ((tokenize "let f: (x: A) => x is B<C>[] = g;").map fun table =>
      table.tokens.toList) = .ok ([⟨.word, "", "let", 0⟩, ⟨.word, " ", "f", 4⟩,
        ⟨.punctuator, "", ":", 5⟩] ++ ([⟨.punctuator, " ", "(", 7⟩, ⟨.word, "", "x", 8⟩,
        ⟨.punctuator, "", ":", 9⟩, ⟨.word, " ", "A", 11⟩, ⟨.punctuator, "", ")", 12⟩,
        ⟨.punctuator, " ", "=>", 14⟩, ⟨.word, " ", "x", 17⟩, ⟨.word, " ", "is", 19⟩,
        ⟨.word, " ", "B", 22⟩, ⟨.punctuator, "", "<", 23⟩, ⟨.word, "", "C", 24⟩,
        ⟨.punctuator, "", ">", 25⟩, ⟨.punctuator, "", "[", 26⟩, ⟨.punctuator, "", "]", 27⟩] ++
        ⟨.punctuator, " ", "=", 29⟩ :: [⟨.word, " ", "g", 31⟩, ⟨.punctuator, "", ";", 32⟩,
        ⟨.finish, "", "", 33⟩])) := by decide +kernel
  cases htable : tokenize "let f: (x: A) => x is B<C>[] = g;" with
  | error fault =>
    rw [htable] at hread
    cases hread
  | ok table =>
    rw [htable] at hread
    have htokens := Except.ok.inj hread
    have hA : TypeSyntax [⟨.word, " ", "A", 11⟩] :=
      .name (Token.isName_of_isPlainName rfl (by decide +kernel)) .nil
    have hC : TypeSyntax [⟨.word, "", "C", 24⟩] :=
      .name (Token.isName_of_isPlainName rfl (by decide +kernel)) .nil
    have hlist : TypeSyntax (([⟨.word, " ", "B", 22⟩] ++ ⟨.punctuator, "", "<", 23⟩ ::
        ([⟨.word, "", "C", 24⟩] ++ [⟨.punctuator, "", ">", 25⟩])) ++
        [⟨.punctuator, "", "[", 26⟩, ⟨.punctuator, "", "]", 27⟩]) :=
      .array (.applied (Token.isName_of_isPlainName rfl (by decide +kernel)) .nil ⟨rfl, rfl⟩
        ⟨rfl, rfl⟩ (.last _) (List.forall_mem_singleton.mpr hC)) ⟨rfl, rfl⟩ ⟨rfl, rfl⟩
    have hpredicate := @TypeSyntax.predicate ⟨.word, " ", "x", 17⟩ ⟨.word, " ", "is", 19⟩ _
      (Token.isName_of_isPlainName rfl (by decide +kernel)) ⟨rfl, rfl⟩ hlist
    have hfield : TypedField.IsNamed
        ⟨⟨.word, "", "x", 8⟩, ⟨.punctuator, "", ":", 9⟩, [⟨.word, " ", "A", 11⟩]⟩ :=
      ⟨Token.isName_of_isPlainName rfl (by decide +kernel), rfl, rfl⟩
    have hfunction := @TypeSyntax.function ⟨.punctuator, " ", "(", 7⟩ ⟨.punctuator, "", ")", 12⟩
      ⟨.punctuator, " ", "=>", 14⟩ _ _ _ ⟨rfl, rfl⟩ ⟨rfl, rfl⟩ (.last _)
      (List.forall_mem_singleton.mpr hfield) (List.forall_mem_singleton.mpr hA) ⟨rfl, rfl⟩
      hpredicate
    refine ⟨table, rfl, ?_, ?_⟩
    · rw [TokenTable.is, ← Array.getElem?_toList]
      exact congrArg (fun ts => ts[17]?.any (·.is "=")) htokens
    · refine typeEnd_of_wholeType htable htokens (.plain hfunction) ?_ ⟨"=", by decide, rfl, rfl⟩
      decide +kernel

end Workflow.Script
