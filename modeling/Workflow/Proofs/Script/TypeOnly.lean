import Workflow.Proofs.Script.MarkedText

/-!
# Sources that only declare types

Interfaces, type aliases and ambient functions are removed as wholes. Where nothing is kept, the
next word starts a statement, so a source of such declarations, one behind the other, is removed
up to its end, and what is written of it are its line feeds.
-/

namespace Workflow.Script

open Erasure

/-- The tokens of what an ambient function returns. -/
inductive ResultTokens : List Token → Prop
  | type {ts : List Token} {grouped : Bool} : TypeTokens grouped ts → ResultTokens ts
  | void {t : Token} : t.IsWord "void" → ResultTokens [t]

/-- What a source that only declares types declares. -/
inductive TypeDeclaration where
  /-- An interface with the keys of its fields, as they are written. -/
  | interface (name : String) (keys : List String)
  /-- A name for a type. -/
  | typeAlias (name : String)
  /-- A function without its body. -/
  | ambient (name : String)

/-- The tokens of the fields with the given keys. Each key is one token, in front of its colon. -/
inductive FieldsTokens : List String → List Token → Prop
  | nil : FieldsTokens [] []
  | cons {key colon semicolon : Token} {mark us ts : List Token} {keys : List String} :
      key.IsNoBracket → (mark = [] ∨ ∃ t, mark = [t] ∧ t.IsMark "?") → colon.IsMark ":" →
      Balanced us → semicolon.IsMark ";" → FieldsTokens keys ts →
      FieldsTokens (key.text :: keys) (key :: (mark ++ colon :: (us ++ semicolon :: ts)))

/-- The tokens of a declaration of types. -/
inductive DeclarationTokens : TypeDeclaration → List Token → Prop
  | interface {word name first last : Token} {keys : List String} {inner : List Token} :
      word.IsWord "interface" → name.IsName → first.IsMark "\x7b" → FieldsTokens keys inner →
      last.IsMark "\x7d" → DeclarationTokens (.interface name.text keys)
        (word :: name :: first :: (inner ++ [last]))
  | typeAlias {word name equals semicolon : Token} {ts : List Token} {grouped : Bool} :
      word.IsWord "type" → name.IsName → equals.IsMark "=" → TypeTokens grouped ts →
      semicolon.IsMark ";" → DeclarationTokens (.typeAlias name.text)
        (word :: name :: equals :: (ts ++ [semicolon]))
  | ambient {word keyword name first last colon semicolon : Token} {inner ts : List Token} :
      word.IsWord "declare" → keyword.IsWord "function" → name.IsName → first.IsMark "(" →
      Balanced inner → last.IsMark ")" → colon.IsMark ":" → ResultTokens ts →
      semicolon.IsMark ";" → DeclarationTokens (.ambient name.text)
        (word :: keyword :: name :: first :: (inner ++ last :: colon :: (ts ++ [semicolon])))

/-- The tokens of declarations that stand one behind the other. -/
inductive DeclarationsTokens : List TypeDeclaration → List Token → Prop
  | nil : DeclarationsTokens [] []
  | cons {d : TypeDeclaration} {ds : List TypeDeclaration} {ts us : List Token} :
      DeclarationTokens d ts → DeclarationsTokens ds us → DeclarationsTokens (d :: ds) (ts ++ us)

variable {source : String} {table : TokenTable} {done : List (Token × Bool)}
  {ts us rest behind inner : List Token} {t first last next : Token} {k e : Nat}
  {d : TypeDeclaration} {ds : List TypeDeclaration} {keys : List String}

/-- The tokens of a result type are balanced. -/
theorem ResultTokens.balanced (h : ResultTokens ts) : Balanced ts := by
  cases h with
  | type hts => exact hts.enclosed.balanced
  | void ht => exact .of_word ht (by decide) .nil

theorem FieldsTokens.balanced (h : FieldsTokens keys ts) : Balanced ts := by
  induction h with
  | nil => exact .nil
  | cons hkey hmark hcolon hus hsemicolon _ ih =>
    have hrest := Balanced.of_mark hcolon (by decide)
      (hus.append (.of_mark hsemicolon (by decide) ih))
    refine .other hkey.1 hkey.2 ?_
    rcases hmark with rfl | ⟨t, rfl, ht⟩
    · exact hrest
    · exact .of_mark ht (by decide) hrest

/-- The tokens of a declaration are balanced. -/
theorem DeclarationTokens.balanced (h : DeclarationTokens d ts) : Balanced ts := by
  cases h with
  | interface hword hname hfirst hinner hlast =>
    exact .of_word hword (by decide) (.of_name hname
      (.group (hfirst.opens? .curly) (hlast.closes? .curly) hinner.balanced .nil))
  | typeAlias hword hname hequals hts hsemicolon =>
    exact .of_word hword (by decide) (.of_name hname (.of_mark hequals (by decide)
      (hts.enclosed.balanced.append (.of_mark hsemicolon (by decide) .nil))))
  | ambient hword hkeyword hname hfirst hinner hlast hcolon hts hsemicolon =>
    have hresult := hts.balanced.append (.of_mark hsemicolon (by decide) .nil)
    exact .of_word hword (by decide) (.of_word hkeyword (by decide) (.of_name hname
      (.group (hfirst.opens? .round) (hlast.closes? .round) hinner
        (.of_mark hcolon (by decide) hresult))))

theorem DeclarationsTokens.balanced (h : DeclarationsTokens ds ts) : Balanced ts := by
  induction h with
  | nil => exact .nil
  | cons hts _ ih => exact hts.balanced.append ih

/-- A result type ends in front of a semicolon. -/
theorem ResultTokens.typeEnd (h : ResultTokens ts) (htable : tokenize source = .ok table)
    (hk : table.Ahead k (ts ++ next :: behind)) (hnext : next.IsMark ";") :
    Answers (table.typeEnd k) (k + ts.length) := by
  cases h with
  | @type _ grouped hts =>
    have hends : next.EndsType grouped := hnext.endsType (by decide) fun _ => by decide
    exact hts.typeEnd htable hk hends.outside hends.arrow
  | @void t ht =>
    have hbehind : table.Ahead (k + 1) (next :: behind) := hk.tail
    have hmark : ∀ text, text ≠ ";" → table.is (k + 1) text = false := by
      intro text hne
      rw [hbehind.is, hnext.is, beq_eq_false_iff_ne]
      exact hne.symm
    have hmembers : (table.afterMembers (k + 1)).val = k + 1 :=
      TokenTable.afterMembers_eq_self (hmark _ (by decide))
    have hoperand : Answers (table.plainOperandEnd k) (k + 1) := by
      refine TokenTable.plainOperandEnd_word (hk.kind.trans ht.1) ?_ ?_
      · rw [hmembers]
        exact hmark _ (by decide)
      · rw [hmembers]
        exact TokenTable.postfixEnd_self (hmark _ (by decide)) (hmark _ (by decide))
          (hmark _ (by decide))
    have hrest : Answers (table.typeEndFrom (k + 1)) (k + 1) :=
      TokenTable.typeEndFrom_self (hmark _ (by decide)) (hmark _ (by decide)) (hmark _ (by decide))
    have hstart : t.StartsType :=
      ⟨.inl ht.1, ht.is _, ht.is _, ht.is _, ht.is _⟩
    refine TokenTable.TypeFrom.typeEnd (.of_plain hoperand (.inr ?_) ?_ hrest) hk hstart
    · rw [hk.isOneOf, ht.2]
      decide
    · rw [hk.is, ht.is]
      rfl

namespace TokenTable

/-- A token in front of another one stands in front of the end. -/
theorem Ahead.lt_finish (h : table.Ahead k (t :: next :: behind)) : k < table.finish := by
  have hlength := congrArg List.length h
  rw [List.length_drop, Array.length_toList, List.length_cons, List.length_cons] at hlength
  rw [finish]
  omega

/-- A body that starts at once ends with the brackets around it. -/
theorem bodyEnd_of (hlt : k < table.finish) (hbrace : table.is k "\x7b" = true) :
    Answers (table.bodyEnd k) (table.closeOf k + 1) := by
  have hfirst : table.braceFrom k k = .ok ⟨k, Nat.le_refl k⟩ := by
    rw [braceFrom, dif_pos hlt, if_pos hbrace]
  unfold bodyEnd
  simp only [hfirst]
  exact ⟨_, rfl⟩

/-- A semicolon behind a statement belongs to it. -/
theorem afterSemicolon_eq (h : table.is k ";" = true) :
    table.afterSemicolon k = ⟨k + 1, Nat.le_succ k⟩ := by
  rw [afterSemicolon, if_pos h]

/-- An alias without parameters ends behind its semicolon. -/
theorem aliasEnd_of (hequals : table.is k "=" = true) (hless : table.is k "<" = false)
    (htype : Answers (table.typeEnd (k + 1)) e) (hsemicolon : table.is e ";" = true) :
    Answers (table.aliasEnd k) (e + 1) := by
  obtain ⟨_, htype⟩ := htype
  have hexpect : table.expect k "=" = .ok ⟨k + 1, Nat.lt_succ_self k⟩ := by
    rw [expect, if_pos hequals]
  unfold aliasEnd
  simp only [hless, Bool.false_eq_true, if_false, bind, Except.bind, pure, Except.pure]
  rw [hexpect]
  simp only [htype, afterSemicolon_eq hsemicolon]
  exact ⟨_, rfl⟩

/-- An ambient function ends behind its semicolon. -/
theorem ambientEnd_function (hkeyword : table.text k = "function")
    (hname : table.isWord (k + 1) = true) (hless : table.is (k + 2) "<" = false)
    (hround : table.is (k + 2) "(" = true)
    (hcolon : table.is (table.closeOf (k + 2) + 1) ":" = true)
    (htype : Answers (table.typeEnd (table.closeOf (k + 2) + 2)) e)
    (hsemicolon : table.is e ";" = true) : Answers (table.ambientEnd k) (e + 1) := by
  obtain ⟨_, htype⟩ := htype
  have hannotation : Answers (table.annotationEnd (table.closeOf (k + 2) + 1)) e := by
    rw [annotationEnd, if_pos hcolon, htype]
    exact ⟨_, rfl⟩
  obtain ⟨_, hannotation⟩ := hannotation
  have hsignature : Answers (table.signatureEnd (k + 1)) e := by
    unfold signatureEnd
    simp only [hname, if_true, hless, Bool.false_eq_true, if_false, hround, bind, Except.bind, pure,
      Except.pure, hannotation]
    exact ⟨_, rfl⟩
  obtain ⟨_, hsignature⟩ := hsignature
  unfold ambientEnd
  simp only [hkeyword, hsignature, bind, Except.bind, afterSemicolon_eq hsemicolon]
  exact ⟨_, rfl⟩

/-- A declaration of types that starts at `k` ends at the index. -/
inductive DeclaresTo (table : TokenTable) (k e : Nat) : Prop
  | interface : table.text k = "interface" → table.isWord (k + 1) = true →
      table.is (k + 2) "\x7b" = true → Answers (table.bodyEnd (k + 2)) e → DeclaresTo table k e
  | typeAlias : table.text k = "type" → table.isWord (k + 1) = true →
      table.is (k + 2) "=" = true → Answers (table.aliasEnd (k + 2)) e → DeclaresTo table k e
  | ambient : table.text k = "declare" → table.isOneOf (k + 1) declarable = true →
      Answers (table.ambientEnd (k + 1)) e → DeclaresTo table k e

/-- A declaration is removed as a whole. -/
theorem DeclaresTo.statementRemoval (h : table.DeclaresTo k e) :
    ∃ hlt, table.statementRemoval k = .ok (some ⟨k, e, hlt⟩) := by
  have hexport : table.is k "export" = false := by
    refine Bool.eq_false_iff.mpr fun his => ?_
    have htext := text_of_is his
    cases h with
    | interface heq | typeAlias heq | ambient heq => exact absurd (htext.symm.trans heq) (by decide)
  have hhead : (if table.is k "export" then (⟨k + 1, Nat.le_succ k⟩ : { j : Nat // k ≤ j })
      else ⟨k, Nat.le_refl k⟩) = ⟨k, Nat.le_refl k⟩ := by
    rw [hexport]
    rfl
  unfold TokenTable.statementRemoval
  dsimp only
  generalize (if table.is k "export" then (⟨k + 1, Nat.le_succ k⟩ : { j : Nat // k ≤ j })
    else ⟨k, Nat.le_refl k⟩) = head at hhead ⊢
  subst hhead
  cases h with
  | interface htext hname hbrace hbody =>
    obtain ⟨hlt, hbody⟩ := hbody
    simp only [htext, hname, hbrace, Bool.true_or, Bool.and_true, if_true, hbody, bind, Except.bind]
    exact ⟨by omega, rfl⟩
  | typeAlias htext hname hequals halias =>
    obtain ⟨hlt, halias⟩ := halias
    simp only [htext, hname, hequals, Bool.true_or, Bool.and_true, if_true, halias, bind,
      Except.bind]
    exact ⟨by omega, rfl⟩
  | ambient htext hword hambient =>
    obtain ⟨hlt, hambient⟩ := hambient
    simp only [htext, hword, if_true, hambient, bind, Except.bind]
    exact ⟨by omega, rfl⟩

end TokenTable

/-- An interface ends with the bracket behind its fields. -/
theorem declaresTo_interface {word name : Token} (htable : tokenize source = .ok table)
    (hk : table.Ahead k (word :: name :: first :: (inner ++ last :: next :: behind)))
    (hword : word.IsWord "interface") (hname : name.IsName) (hfirst : first.IsMark "\x7b")
    (hinner : Balanced inner) (hlast : last.IsMark "\x7d") :
    table.DeclaresTo k (k + 2 + inner.length + 2) := by
  have hbody := hk.tail.tail
  have hclose := hbody.closeOf htable (hfirst.opens? .curly) (hlast.closes? .curly) hinner
  have hlt : k + 2 < table.finish := by
    cases inner with
    | nil => exact hbody.lt_finish
    | cons t inner => exact hbody.lt_finish
  have hbrace : table.is (k + 2) "\x7b" = true := by
    rw [hbody.is, hfirst.is]
    rfl
  have hend := TokenTable.bodyEnd_of hlt hbrace
  rw [hclose] at hend
  refine .interface (hk.text.trans hword.2) ?_ hbrace hend
  rw [hk.tail.isWord, hname.1]
  rfl

/-- An alias ends with its semicolon. -/
theorem declaresTo_typeAlias {word name equals semicolon : Token} {grouped : Bool}
    (htable : tokenize source = .ok table)
    (hk : table.Ahead k (word :: name :: equals :: (ts ++ semicolon :: next :: behind)))
    (hword : word.IsWord "type") (hname : name.IsName) (hequals : equals.IsMark "=")
    (hts : TypeTokens grouped ts) (hsemicolon : semicolon.IsMark ";") :
    table.DeclaresTo k (k + 3 + ts.length + 1) := by
  have halias := hk.tail.tail
  have hmark : table.is (k + 2) "=" = true := by
    rw [halias.is, hequals.is]
    rfl
  have hends : semicolon.EndsType grouped := hsemicolon.endsType (by decide) fun _ => by decide
  have htype := hts.typeEnd htable halias.tail hends.outside hends.arrow
  refine .typeAlias (hk.text.trans hword.2) ?_ hmark (TokenTable.aliasEnd_of hmark ?_ htype ?_)
  · rw [hk.tail.isWord, hname.1]
    rfl
  · rw [halias.is, hequals.is]
    rfl
  · rw [halias.tail.append.is, hsemicolon.is]
    rfl

/-- An ambient function ends with its semicolon. -/
theorem declaresTo_ambient {word keyword name colon semicolon : Token}
    (htable : tokenize source = .ok table)
    (hk : table.Ahead k (word :: keyword :: name :: first ::
      (inner ++ last :: colon :: (ts ++ semicolon :: next :: behind))))
    (hword : word.IsWord "declare") (hkeyword : keyword.IsWord "function") (hname : name.IsName)
    (hfirst : first.IsMark "(") (hinner : Balanced inner) (hlast : last.IsMark ")")
    (hcolon : colon.IsMark ":") (hts : ResultTokens ts) (hsemicolon : semicolon.IsMark ";") :
    table.DeclaresTo k (k + 3 + inner.length + 3 + ts.length + 1) := by
  have hlist := hk.tail.tail.tail
  have hclose := hlist.closeOf htable (hfirst.opens? .round) (hlast.closes? .round) hinner
  have hresult := hlist.behind_closeOf htable (hfirst.opens? .round) (hlast.closes? .round) hinner
  have htype := hts.typeEnd htable hresult.tail hsemicolon
  have hend : table.closeOf (k + 3) + 2 + ts.length + 1 =
      k + 3 + inner.length + 3 + ts.length + 1 := by
    rw [hclose]
  rw [← hend]
  refine .ambient (hk.text.trans hword.2) ?_
    (TokenTable.ambientEnd_function (hk.tail.text.trans hkeyword.2) ?_ ?_ ?_ ?_ htype ?_)
  · rw [hk.tail.isOneOf, hkeyword.2]
    decide
  · rw [hk.tail.tail.isWord, hname.1]
    rfl
  · rw [hlist.is, hfirst.is]
    rfl
  · rw [hlist.is, hfirst.is]
    rfl
  · rw [hresult.is, hcolon.is]
    rfl
  · rw [hresult.tail.append.is, hsemicolon.is]
    rfl

/-- Where nothing is kept, the next word starts a statement. -/
theorem startsStatement_of_recent {s : Erasure}
    (hs : s.Fits table ⟨done, t :: rest, .fresh .top, []⟩) (hrecent : recent done = [])
    (hkind : t.kind = .word) : s.startsStatement table done.length = true := by
  have hframe : s.frame = .fresh .top := hs.frame
  have hprevious : s.previous done.length = none := by
    have hpreceded := hs.marks.preceded
    rwa [hrecent] at hpreceded
  rw [startsStatement, hframe, hprevious, hs.ahead.isWord, hkind]
  rfl

namespace DeclarationTokens

/-- A declaration of types ends with its last token. -/
theorem declaresTo (h : DeclarationTokens d ts) (htable : tokenize source = .ok table)
    (hk : table.Ahead k (ts ++ next :: behind)) : table.DeclaresTo k (k + ts.length) := by
  cases h with
  | interface hword hname hfirst hinner hlast =>
    simp only [List.cons_append, List.append_assoc, List.nil_append] at hk
    convert declaresTo_interface htable hk hword hname hfirst hinner.balanced hlast using 1
    simp only [List.length_cons, List.length_append, List.length_nil]
    omega
  | typeAlias hword hname hequals hts hsemicolon =>
    simp only [List.cons_append, List.append_assoc, List.nil_append] at hk
    convert declaresTo_typeAlias htable hk hword hname hequals hts hsemicolon using 1
    simp only [List.length_cons, List.length_append, List.length_nil]
    omega
  | ambient hword hkeyword hname hfirst hinner hlast hcolon hts hsemicolon =>
    simp only [List.cons_append, List.append_assoc, List.nil_append] at hk
    convert declaresTo_ambient htable hk hword hkeyword hname hfirst hinner hlast hcolon hts
      hsemicolon using 1
    simp only [List.length_cons, List.length_append, List.length_nil]
    omega

/-- A declaration starts with a word. -/
theorem exists_word (h : DeclarationTokens d ts) : ∃ t rest, ts = t :: rest ∧ t.kind = .word := by
  cases h with
  | interface hword _ _ _ _ | typeAlias hword _ _ _ _ | ambient hword _ _ _ _ _ _ _ _ =>
    exact ⟨_, _, rfl, hword.1⟩

/-- Where nothing is kept, a run removes a declaration of types. -/
theorem leads (h : DeclarationTokens d ts) (htable : tokenize source = .ok table)
    (hrecent : recent done = []) :
    Leads table ⟨done, ts ++ next :: rest, .fresh .top, []⟩
      ⟨(allRemoved ts).reverse ++ done, next :: rest, .fresh .top, []⟩ := by
  obtain ⟨t, us, rfl, hkind⟩ := h.exists_word
  refine leads_of_removal fun s hs => ?_
  have hstarts := startsStatement_of_recent hs hrecent hkind
  obtain ⟨hlt, hremoval⟩ := (h.declaresTo htable hs.ahead).statementRemoval
  refine ⟨_, hlt, rfl, ?_⟩
  rw [step, removalAt, if_pos hstarts, hremoval]
  rfl

end DeclarationTokens

namespace DeclarationsTokens

/-- Where nothing is kept, a run removes declarations that stand one behind the other. -/
theorem leads (h : DeclarationsTokens ds ts) (htable : tokenize source = .ok table)
    (hrecent : recent done = []) :
    Leads table ⟨done, ts ++ [last], .fresh .top, []⟩
      ⟨(allRemoved ts).reverse ++ done, [last], .fresh .top, []⟩ := by
  induction h generalizing done with
  | nil => exact .refl _
  | @cons d ds ts us hts hus ih =>
    have hrest : Leads table ⟨(allRemoved ts).reverse ++ done, us ++ [last], .fresh .top, []⟩ _ :=
      ih (by rw [recent_allRemoved, hrecent])
    obtain ⟨next, behind, hnext⟩ : ∃ next behind, us ++ [last] = next :: behind :=
      List.exists_cons_of_ne_nil (by simp)
    rw [hnext] at hrest
    have hfirst : Leads table ⟨done, ts ++ next :: behind, .fresh .top, []⟩ _ :=
      (hts.leads htable hrecent).trans hrest
    rw [← hnext] at hfirst
    simpa [allRemoved] using hfirst

end DeclarationsTokens

/-- Wherever a text of one line or more stands, it is read as tokens of the given sort. -/
def LexesLines (text : String) (stops : Char → Prop) (P : List Token → Prop) : Prop :=
  ∀ start, ∃ ts, Lexed start text stops ts ∧ P ts

variable {text front back lead : String} {stops stops' : Char → Prop} {P Q R : List Token → Prop}

/-- What is read on one line is read with its line feeds, of which there are none. -/
theorem Lexes.lines (h : Lexes text stops P) : LexesLines text stops P := by
  intro start
  obtain ⟨ts, hts, -, hP⟩ := h start
  exact ⟨ts, hts, hP⟩

namespace LexesLines

/-- Of the tokens on several lines less may be known. -/
theorem mono (h : LexesLines text stops P) (hstops : ∀ c, stops' c → stops c)
    (hP : ∀ ts, P ts → Q ts) : LexesLines text stops' Q := by
  intro start
  obtain ⟨ts, hts, hs⟩ := h start
  exact ⟨ts, hts.stops_mono hstops, hP ts hs⟩

/-- Texts on several lines are read one behind the other. -/
theorem append (h : LexesLines front stops P) (h' : LexesLines back stops' Q)
    (hjoin : ∀ c ∈ back.toList.head?, stops c) :
    LexesLines (front ++ back) stops' fun ts => ∃ us vs, ts = us ++ vs ∧ P us ∧ Q vs := by
  intro start
  obtain ⟨us, hus, hP⟩ := h start
  obtain ⟨vs, hvs, hQ⟩ := h' (start + front.toList.length)
  exact ⟨us ++ vs, hus.append hvs hjoin, us, vs, rfl, hP, hQ⟩

theorem join (h : LexesLines front stops P) (h' : LexesLines back stops' Q)
    (hjoin : ∀ c ∈ back.toList.head?, stops c) (hR : ∀ us vs, P us → Q vs → R (us ++ vs)) :
    LexesLines (front ++ back) stops' R := by
  refine (h.append h' hjoin).mono (fun _ => id) ?_
  rintro _ ⟨us, vs, rfl, hus, hvs⟩
  exact hR us vs hus hvs

end LexesLines

/-- The line feeds of two parts are those of the first and those of the second. -/
theorem lineFeeds_append (cs ds : List Char) :
    lineFeeds (cs ++ ds) = lineFeeds cs ++ lineFeeds ds :=
  List.filter_append ..

/-- No line feed of a removed text is lost. -/
theorem Lexed.emitted_allRemoved {start : Nat} (h : Lexed start text stops ts) :
    emitted (allRemoved ts) = lineFeeds text.toList := by
  obtain ⟨hcharacters, -, hplain, -, -⟩ := h
  rw [← hcharacters]
  clear hcharacters
  induction ts with
  | nil => rfl
  | cons t ts ih =>
    have hline : lineFeeds t.text.toList = [] := by
      refine List.filter_eq_nil_iff.mpr fun c hc heq => ?_
      rw [beq_iff_eq] at heq
      exact (hplain t List.mem_cons_self).line (heq ▸ hc)
    rw [show emitted (allRemoved (t :: ts)) = (t.emit false).toList ++ emitted (allRemoved ts) from
      rfl, ih fun u hu => hplain u (List.mem_cons_of_mem _ hu), charactersOf_cons, lineFeeds_append,
      lineFeeds_append, hline, toList_emit_removed, List.nil_append]

/-- What is removed leaves its line feeds. -/
theorem LexesLines.remove (h : LexesLines text stops P) :
    Erases text (String.ofList (lineFeeds text.toList)) stops
      fun ms => ∃ ts, ms = allRemoved ts ∧ P ts := by
  intro start
  obtain ⟨ts, hts, hP⟩ := h start
  refine ⟨allRemoved ts, by rwa [map_fst_allRemoved], ?_, ts, rfl, hP⟩
  rw [hts.emitted_allRemoved, String.toList_ofList]

/-- Of declarations of types with a line feed behind them, the line feeds are left. -/
theorem eraseTypes_declarations (h : LexesLines text stops (DeclarationsTokens ds))
    (hmark : ¬ ['#', '!'] <+: (text ++ "\n").toList) (hstops : stops '\n') :
    (∃ table ts last, tokenize (text ++ "\n") = .ok table ∧ table.tokens.toList = ts ++ [last] ∧
        last.kind = .finish ∧ DeclarationsTokens ds ts) ∧
      eraseTypes (text ++ "\n") =
        .ok (String.ofList (List.replicate ((text ++ "\n").toList.count '\n') '\n')) := by
  have hblank : Trivia "\n".toList := .blank (by decide) .none
  have hend : triviaTail "\n".toList = .ok [] := by
    simpa [triviaTail] using hblank.triviaTail_append []
  obtain ⟨table, s, _, last, htable, hrun, ⟨ts, rfl, hts⟩, hlast, hmarked, hemit⟩ :=
    h.remove.exists_run_append "\n" hmark hend (by simpa using hstops)
    (by
      rintro _ ⟨ts, rfl, hts⟩
      rw [map_fst_allRemoved]
      exact hts.balanced)
    (by
      rintro table _ last htable ⟨ts, rfl, hts⟩ -
      have hleads : Leads table ⟨[], ts ++ [last], .fresh .top, []⟩
          ⟨(allRemoved ts).reverse ++ [], [last], .fresh .top, []⟩ := hts.leads htable rfl
      rw [List.append_nil] at hleads
      rw [map_fst_allRemoved]
      exact ⟨_, _, hleads⟩)
  refine ⟨⟨table, ts, last, htable, ?_, hlast, hts⟩, ?_⟩
  · rw [← TokenTable.map_fst_marked, hmarked, List.map_append, map_fst_allRemoved]
    rfl
  · simp only [eraseTypes, htable, hrun, hemit]
    rw [← List.filter_beq, String.toList_append, List.filter_append, String.ofList_append]
    rfl

end Workflow.Script
