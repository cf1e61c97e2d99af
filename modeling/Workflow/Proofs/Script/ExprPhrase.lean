import Workflow.Proofs.Script.Inert
import Workflow.Proofs.Script.Outline
import Workflow.Proofs.Script.Phrase

/-!
# Expressions as they are read

An expression is read as tokens that erasure leaves alone, in front of everything that may
follow it. The tokens are not in step with the tree in one place: a name behind an integer
and a point belongs to the number, up to its first `$`. Members are therefore passed on to
the operand that they are written behind.
-/

namespace Workflow.Script

variable {text front back : String} {ts us vs : List Token} {ps qs : List Piece}

/-- The tokens of an expression, which outside of its brackets is the given row. -/
structure ExprTokens (ps : List Piece) (ts : List Token) : Prop where
  inert : Inert .operand ts
  last : ∃ t ∈ ts.getLast?, t.EndsOperand
  outlined : Outlined ts ps

/-- Inert operands are inert at every place. -/
theorem Inert.of_operand {place : Place} (h : Inert .operand ts) : Inert place ts := by
  generalize hplace : Place.operand = place' at h
  induction h with
  | nil => exact .nil
  | name ht _ ih => exact .name ht (ih hplace)
  | literal ht _ ih => exact .literal ht (ih hplace)
  | operator ht _ ih => exact .operator ht (ih hplace)
  | comma hne _ _ _ => exact absurd hplace.symm hne
  | key _ _ _ _ => cases hplace
  | conditional hquestion hts hcolon _ _ ih => exact .conditional hquestion hts hcolon (ih hplace)
  | group hfirst hinner hlast hhead _ _ ih => exact .group hfirst hinner hlast hhead (ih hplace)
  | square hfirst hinner hlast _ _ ih => exact .square hfirst hinner hlast (ih hplace)
  | object hfirst hinner hlast _ _ ih => exact .object hfirst hinner hlast (ih hplace)
  | arrow hfirst hinner hlast harrow _ ih => exact .arrow hfirst hinner hlast harrow (ih hplace)

/-- What ends with tokens at whose end an operand stands has one at its end. -/
theorem endsOperand_append (ts : List Token) (h : ∃ t ∈ us.getLast?, t.EndsOperand) :
    ∃ t ∈ (ts ++ us).getLast?, t.EndsOperand := by
  obtain ⟨t, ht, hends⟩ := h
  refine ⟨t, ?_, hends⟩
  rw [List.getLast?_append, Option.mem_def.mp ht]
  rfl

/-- Members end with a name. -/
theorem Members.exists_last (h : Members us) (hne : us ≠ []) : ∃ t ∈ us.getLast?, t.IsName := by
  induction h with
  | nil => exact absurd rfl hne
  | @cons point name ts _ hname hts ih =>
    rw [List.getLast?_cons_of_ne_nil (by simp)]
    by_cases hrest : ts = []
    · subst hrest
      exact ⟨name, rfl, hname⟩
    · rw [List.getLast?_cons_of_ne_nil hrest]
      exact ih hrest

/-- The last one of members is a name, which ends an operand. -/
theorem Members.endsOperand (h : Members us) (hne : us ≠ []) :
    ∃ t ∈ us.getLast?, t.EndsOperand := by
  obtain ⟨t, ht, hname⟩ := h.exists_last hne
  exact ⟨t, ht, .inl hname⟩

/-- Members are inert. -/
theorem Members.inert (h : Members us) : Inert .operand us := by
  induction h with
  | nil => exact .nil
  | cons hpoint hname _ ih => exact .operator ⟨".", by decide, hpoint⟩ (.name hname ih)

namespace ExprTokens

/-- Tokens that end with the end of an operand are those of an expression, if they are inert. -/
theorem of_last {last : Token} (h : Inert .operand (ts ++ [last])) (hlast : last.EndsOperand)
    (houtlined : Outlined (ts ++ [last]) ps) : ExprTokens ps (ts ++ [last]) :=
  ⟨h, ⟨last, List.getLast?_concat, hlast⟩, houtlined⟩

/-- A name is an expression. -/
theorem name {t : Token} (ht : t.IsName) : ExprTokens [.name] [t] :=
  ⟨.name ht .nil, ⟨t, rfl, .inl ht⟩, .operand (.name ht)⟩

theorem literal {t : Token} (ht : t.kind = .string ∨ t.kind = .number) : ExprTokens [.other] [t] :=
  ⟨.literal ht .nil, ⟨t, rfl, .inr (.inl ht)⟩, .operand (.literal ht)⟩

/-- A number may end in the midst of a member, which then is read as a word of its own. -/
theorem number_cons {t : Token} {p : Piece} (h : ExprTokens [p] ts) (hkind : t.kind = .number)
    (htext : t.text ∉ Erasure.memberPrefixes) : ExprTokens [.other] (t :: ts) :=
  ⟨.literal (.inr hkind) h.inert, endsOperand_append [t] h.last, h.outlined.number_cons hkind htext⟩

section

variable {first last : Token} {inner : List Token}

/-- An expression in parentheses is one. -/
theorem group (hfirst : first.IsMark "(") (hinner : Inert .items inner) (hlast : last.IsMark ")") :
    ExprTokens [.round] (first :: (inner ++ [last])) := by
  have hinert : Inert .operand (first :: inner ++ [last]) :=
    .group hfirst hinner hlast (by simp) .nil
  exact of_last hinert (.inr (.inr (.inl hlast)))
    (.operand (.bracket .round hfirst hlast hinner.balanced))

/-- A list in square brackets is an expression. -/
theorem square (hfirst : first.IsMark "[") (hinner : Inert .items inner) (hlast : last.IsMark "]") :
    ExprTokens [.other] (first :: (inner ++ [last])) := by
  have hinert : Inert .operand (first :: inner ++ [last]) := .square hfirst hinner hlast .nil
  exact of_last hinert (.inr (.inr (.inr (.inl hlast))))
    (.operand (.bracket .square hfirst hlast hinner.balanced))

/-- An object is an expression. -/
theorem object (hfirst : first.IsMark "\x7b") (hinner : Inert .entries inner)
    (hlast : last.IsMark "\x7d") : ExprTokens [.other] (first :: (inner ++ [last])) := by
  have hinert : Inert .operand (first :: inner ++ [last]) := .object hfirst hinner hlast .nil
  exact of_last hinert (.inr (.inr (.inr (.inr hlast))))
    (.operand (.bracket .curly hfirst hlast hinner.balanced))

end

/-- An expression goes on with members, arguments or an index. -/
theorem extend (h : ExprTokens ps ts) (hus : ExprTokens qs us) (hextension : ExtensionTokens us)
    (hhead : ∀ t ∈ us.head?, t.is "\x7b" = false) : ExprTokens (extendLast ps) (ts ++ us) :=
  ⟨h.inert.append hus.inert hhead, endsOperand_append ts hus.last, h.outlined.extend hextension⟩

/-- Members behind an expression belong to it. -/
theorem members (h : ExprTokens ps ts) (hus : Members us) (hne : us ≠ []) :
    ExprTokens (extendLast ps) (ts ++ us) := by
  refine ⟨h.inert.append hus.inert fun t ht => ?_, endsOperand_append ts (hus.endsOperand hne),
    h.outlined.extend (.members hus hne)⟩
  simp [(hus.isMark_head t ht).is]

/-- An operator stands between two expressions. -/
theorem join {t : Token} (h : ExprTokens ps us) (ht : t.IsMark text) (hmem : text ∈ outlineMarks)
    (h' : ExprTokens qs vs) (hinert : Inert .operand (us ++ t :: vs)) :
    ExprTokens (ps ++ .operator text :: qs) (us ++ t :: vs) := by
  refine ⟨hinert, ?_, h.outlined.join ht hmem h'.outlined⟩
  simpa using endsOperand_append (us ++ [t]) h'.last

end ExprTokens

/-- The row that an expression is with members behind it. -/
def withMembers (members : List PlainName) (ps : List Piece) : List Piece :=
  if members = [] then ps else extendLast ps

/-- The text is read as an expression, also with members behind it. -/
def TakesMembers (ps : List Piece) (text : String) : Prop :=
  ∀ members, Phrase (text ++ dotted members) Delimits (ExprTokens (withMembers members ps))

/-- Members belong to the last piece, whatever stands in front. -/
theorem withMembers_append {members : List PlainName} (h : ps ≠ []) :
    withMembers members (qs ++ ps) = qs ++ withMembers members ps := by
  by_cases hmembers : members = []
  · simp [withMembers, hmembers]
  · simp [withMembers, hmembers, extendLast_append h]

/-- An operand that is no single name stays what it is with members behind it. -/
theorem withMembers_singleton {members : List PlainName} {p : Piece} (h : p ≠ .name) :
    withMembers members [p] = [p] := by
  cases p with
  | name => exact absurd rfl h
  | _ => exact ite_self _

/-- What takes members is read as an expression without them. -/
theorem TakesMembers.phrase (h : TakesMembers ps text) : Phrase text Delimits (ExprTokens ps) := by
  simpa [dotted, withMembers] using h []

/-- What is read as an expression in front of a point takes members. -/
theorem Phrase.takesMembers (h : Phrase text (fun c => Delimits c ∨ c = '.') (ExprTokens ps)) :
    TakesMembers ps text := by
  intro members
  refine (h.members members).mono (fun _ => id) ?_
  rintro _ ⟨us, vs, rfl, hus, hvs, hempty⟩
  by_cases hmembers : members = []
  · rw [withMembers, if_pos hmembers, hempty.mpr hmembers, List.append_nil]
    exact hus
  · rw [withMembers, if_neg hmembers]
    exact hus.members hvs (mt hempty.mp hmembers)

/-- The characters that continue a number. -/
def isNumberPart (c : Char) : Bool := c.isAlphanum || c == '_' || c == '.'

/-- Apart from dollar signs, the characters of a name may stand in a number. -/
theorem PlainName.isNumberPart (x : PlainName) {c : Char} (hc : c ∈ x.text.toList) (hne : c ≠ '$') :
    isNumberPart c = true := by
  have hpart : (isLetter c || c.isDigit) = true := by
    rw [x.text_eq] at hc
    rcases List.mem_cons.mp hc with rfl | hc
    · simp [x.first_isLetter]
    · exact x.rest_isPart c hc
  simp only [isLetter, beq_eq_false_iff_ne.mpr hne, Bool.or_false] at hpart
  simp only [Script.isNumberPart, Char.isAlphanum, Bool.or_eq_true, beq_iff_eq] at hpart ⊢
  rcases hpart with (hpart | hpart) | hpart
  · exact .inl (.inl (.inl hpart))
  · exact .inl (.inr hpart)
  · exact .inl (.inl (.inr hpart))

/-- The end of a name, from a `$` on, is a name. -/
theorem PlainName.exists_of_dollar (x : PlainName) {front rest : List Char}
    (h : x.text.toList = front ++ '$' :: rest) :
    ∃ y : PlainName, y.text.toList = '$' :: rest := by
  refine ⟨⟨String.ofList ('$' :: rest), '$', rest, String.toList_ofList, by decide, ?_, ?_⟩,
    String.toList_ofList⟩
  · intro c hc
    have hmem : c ∈ front ++ '$' :: rest :=
      List.mem_append_right front (List.mem_cons_of_mem _ hc)
    rw [← h, x.text_eq] at hmem
    rcases List.mem_cons.mp hmem with rfl | hmem
    · simp [x.first_isLetter]
    · exact x.rest_isPart c hmem
  · intro hmem
    have hall : ∀ word ∈ reservedWords, word.toList.head? ≠ some '$' := by decide +kernel
    exact hall _ hmem (by simp)

/-- Members behind an integer belong to the number, up to a name with a `$` if there is one. -/
theorem dotted_eq (members : List PlainName) :
    (∀ c ∈ (dotted members).toList, isNumberPart c = true) ∨
      ∃ front x others, dotted members = front ++ (PlainName.text x ++ dotted others) ∧
        x.text.toList.head? = some '$' ∧ ∀ c ∈ front.toList, isNumberPart c = true := by
  induction members with
  | nil => exact .inl (by simp [dotted])
  | cons x members ih =>
    by_cases hdollar : '$' ∈ x.text.toList
    · right
      obtain ⟨front, rest, htext, hfront⟩ := List.eq_append_cons_of_mem hdollar
      obtain ⟨y, hy⟩ := x.exists_of_dollar htext
      refine ⟨"." ++ String.ofList front, y, members, ?_, by rw [hy]; rfl, ?_⟩
      · have hx : x.text = String.ofList front ++ y.text := by
          rw [← String.toList_inj, String.toList_append, String.toList_ofList, hy, htext]
        rw [dotted, hx]
        simp only [String.append_assoc]
      · intro c hc
        simp only [String.toList_append, String.toList_ofList, List.mem_append] at hc
        rcases hc with hc | hc
        · have hall : ∀ c ∈ ".".toList, isNumberPart c = true :=
            List.all_eq_true.mp (by decide)
          exact hall c hc
        · refine x.isNumberPart ?_ ?_
          · rw [htext]
            exact List.mem_append_left _ hc
          · rintro rfl
            exact hfront hc
    · have hx : ∀ c ∈ ("." ++ x.text).toList, isNumberPart c = true := by
        intro c hc
        rw [String.toList_append] at hc
        rcases List.mem_append.mp hc with hc | hc
        · have hall : ∀ c ∈ ".".toList, isNumberPart c = true :=
            List.all_eq_true.mp (by decide)
          exact hall c hc
        · exact x.isNumberPart hc fun heq => hdollar (heq ▸ hc)
      rcases ih with ih | ⟨front, y, others, heq, hy, hfront⟩
      · left
        intro c hc
        rw [dotted, String.toList_append] at hc
        rcases List.mem_append.mp hc with hc | hc
        · exact hx c hc
        · exact ih c hc
      · right
        refine ⟨"." ++ x.text ++ front, y, others, ?_, hy, ?_⟩
        · rw [dotted, heq]
          simp only [String.append_assoc]
        · intro c hc
          rw [String.toList_append] at hc
          rcases List.mem_append.mp hc with hc | hc
          · exact hx c hc
          · exact hfront c hc

/-- A name takes members. -/
theorem PlainName.takesMembers (x : PlainName) : TakesMembers [.name] x.text := by
  have hname : Phrase x.text (fun c => Delimits c ∨ c = '.') (ExprTokens [.name]) := by
    refine (phrase_name x).mono (fun _ => id) ?_
    rintro _ ⟨t, rfl, ht⟩
    exact .name ht
  exact hname.takesMembers

/-- A string takes members. -/
theorem StringLiteral.takesMembers (s : StringLiteral) : TakesMembers [.other] s.text := by
  have hstring : Phrase s.text (fun c => Delimits c ∨ c = '.') (ExprTokens [.other]) := by
    refine (phrase_string s).mono (fun _ _ => trivial) ?_
    rintro _ ⟨t, rfl, hkind, -⟩
    exact .literal (.inl hkind)
  exact hstring.takesMembers

/-- A number goes on with letters and digits, as the point of a member does not start one. -/
theorem lexes_integer {lead : String} (hlead : lead = "" ∨ lead = " ") (n : DigitLiteral)
    (hpart : ∀ c ∈ text.toList, isNumberPart c = true) :
    Lexes (lead ++ (n.text ++ text)) (StopsAt .number (n.text ++ text))
      (IsToken .number (n.text ++ text)) := by
  have htext : (n.text ++ text).toList = n.first :: (n.rest ++ text.toList) := by
    simp [DigitLiteral.text]
  refine lexes_number hlead htext n.first_isDigit (numberTail_eq_nil fun c hc => ?_)
  rcases List.mem_append.mp hc with hc | hc
  · simp [Char.isAlphanum, n.rest_isDigit c hc]
  · exact hpart c hc

/-- A number is not spelled like a word in front of a member. -/
theorem DigitLiteral.append_not_mem (n : DigitLiteral) (front : String) :
    n.text ++ front ∉ Erasure.memberPrefixes := by
  intro hmem
  have hall : ∀ word ∈ Erasure.memberPrefixes, word.toList.head?.any Char.isDigit = false := by
    decide
  have hfirst := hall _ hmem
  rw [String.toList_append, DigitLiteral.text, String.toList_ofList] at hfirst
  simp [n.first_isDigit] at hfirst

/-- An integer is read with the members that are written behind it. -/
theorem DigitLiteral.takesMembers (n : DigitLiteral) : TakesMembers [.other] n.text := by
  intro members lead hlead
  rw [withMembers_singleton (by decide)]
  rcases dotted_eq members with hpart | ⟨front, x, others, heq, hx, hfront⟩
  · refine ((lexes_integer hlead n hpart).mono ?_).stops_mono fun _ hc => delimits_number hc
    rintro _ ⟨t, rfl, hkind, -⟩
    exact .literal (.inr hkind)
  · rw [heq, show lead ++ (n.text ++ (front ++ (x.text ++ dotted others))) =
      lead ++ (n.text ++ front) ++ (x.text ++ dotted others) by simp only [String.append_assoc]]
    refine (lexes_integer hlead n hfront).join (x.takesMembers others).plain ?_ ?_
    · obtain ⟨rest, hrest⟩ := List.head?_eq_some_iff.mp hx
      rw [String.toList_append, hrest]
      rintro _ ⟨⟩
      rfl
    · rintro _ us ⟨t, rfl, hkind, htext, -⟩ hus
      have hname : ∃ p, withMembers others [.name] = [p] := by
        by_cases hothers : others = []
        · exact ⟨.name, if_pos hothers⟩
        · exact ⟨.other, if_neg hothers⟩
      obtain ⟨p, hp⟩ := hname
      rw [hp] at hus
      exact hus.number_cons hkind (htext ▸ n.append_not_mem front)

/-- The entries of a list are expressions without types. -/
theorem phrase_items {items : List Expr} (h : ∀ e ∈ items, TakesMembers e.outline e.text) :
    ∀ x ∈ Expr.texts items, Phrase x Delimits (Inert .items) := by
  rw [Expr.texts_eq_map]
  intro x hx
  obtain ⟨e, he, rfl⟩ := List.mem_map.mp hx
  exact (h e he).phrase.mono (fun _ => id) fun _ hts => hts.inert.of_operand

/-- The entries of an object are read as inert tokens. -/
theorem phrase_entries {entries : List (PlainName × Expr)}
    (h : ∀ p ∈ entries, TakesMembers p.2.outline p.2.text) :
    ∀ x ∈ Expr.entryTexts entries, Phrase x Delimits (Inert .entries) := by
  rw [Expr.entryTexts_eq_map]
  intro x hx
  obtain ⟨p, hp, rfl⟩ := List.mem_map.mp hx
  refine (phrase_entry p.1 (h p hp).phrase).mono (fun _ => id) ?_
  rintro _ ⟨name, colon, us, rfl, hname, hcolon, hus⟩
  exact .key hname hcolon hus.inert.of_operand

section

variable {items : List String}

/-- A list of expressions up to the bracket that closes it. -/
theorem lexes_inert (close : String) {place : Place} (hclose : close ∈ closers)
    (hplace : place ≠ .operand) (hitems : ∀ x ∈ items, Phrase x Delimits (Inert place)) :
    Lexes (", ".intercalate items ++ close) (fun _ => True) (IsClosed (Inert place) close) := by
  -- What stands behind an entry is no block, for it is empty or starts with a comma.
  refine lexes_intercalate "," close (by decide) hclose hitems .nil
    (Q := fun ts => Inert place ts ∧ ∀ t ∈ ts.head?, t.is "\x7b" = false) ⟨.nil, by simp⟩ ?_ ?_
  · rintro t us vs ht hus ⟨hvs, hhead⟩
    refine ⟨.comma hplace ht (hus.append hvs hhead), ?_⟩
    rintro _ ⟨⟩
    simp [ht.is]
  · rintro us vs hus ⟨hvs, hhead⟩
    exact hus.append hvs hhead

/-- Names with commas between them, up to the bracket behind them. -/
theorem lexes_names (names : List PlainName) :
    Lexes (", ".intercalate (names.map PlainName.text) ++ ")") (fun _ => True)
      (IsClosed (fun ts => ∀ t ∈ ts, t.IsName ∨ t.IsMark ",") ")") := by
  have hitems : ∀ x ∈ names.map PlainName.text,
      Phrase x Delimits fun ts => ∀ t ∈ ts, t.IsName ∨ t.IsMark "," := by
    intro x hx
    obtain ⟨name, -, rfl⟩ := List.mem_map.mp hx
    refine (phrase_name name).mono (fun _ hc => .inl hc) ?_
    rintro _ ⟨t, rfl, ht⟩
    simpa using .inl ht
  have happend : ∀ us vs : List Token, (∀ t ∈ us, t.IsName ∨ t.IsMark ",") →
      (∀ t ∈ vs, t.IsName ∨ t.IsMark ",") → ∀ t ∈ us ++ vs, t.IsName ∨ t.IsMark "," :=
    fun us vs hus hvs => List.forall_mem_append.mpr ⟨hus, hvs⟩
  refine lexes_intercalate "," ")" (by decide) (by decide) hitems (by simp)
    (Q := fun ts => ∀ t ∈ ts, t.IsName ∨ t.IsMark ",") (by simp) ?_ happend
  intro t us vs ht hus hvs
  exact List.forall_mem_cons.mpr ⟨.inr ht, happend us vs hus hvs⟩

/-- Brackets behind an expression. -/
theorem TakesMembers.bracketed (qs : List Piece) (h : TakesMembers ps front)
    (hbrackets : Phrase text (fun _ => True) fun ts => ExprTokens qs ts ∧ ExtensionTokens ts ∧
      ∀ t ∈ ts.head?, t.is "\x7b" = false)
    (htext : ∀ c ∈ text.toList.head?, Delimits c) :
    TakesMembers (extendLast ps) (front ++ text) := by
  have hjoined : Phrase (front ++ text) (fun _ => True) (ExprTokens (extendLast ps)) := by
    refine h.phrase.join hbrackets.plain htext ?_
    rintro us vs hus ⟨hvs, hextension, hhead⟩
    exact hus.extend hvs hextension hhead
  exact (hjoined.mono (fun _ _ => trivial) fun _ => id).takesMembers

/-- An operator between an expression and another one, which takes the members. -/
theorem TakesMembers.operator (text : String) (h : TakesMembers ps front) (hmem : text ∈ operators)
    (hmark : text ∈ outlineMarks) (hback : TakesMembers qs back) (hne : qs ≠ [])
    (hjoin : ∀ us t vs, Inert .operand us → t.IsMark text → Inert .operand vs →
      Inert .operand (us ++ t :: vs)) :
    TakesMembers (ps ++ .operator text :: qs) (front ++ (" " ++ text ++ " " ++ back)) := by
  intro members
  rw [show front ++ (" " ++ text ++ " " ++ back) ++ dotted members =
    front ++ (" " ++ text ++ " " ++ (back ++ dotted members)) by simp only [String.append_assoc],
    show ps ++ .operator text :: qs = ps ++ [.operator text] ++ qs by simp, withMembers_append hne]
  refine h.phrase.join (lexes_operator text hmem (hback members))
    (by simp [Delimits, delimiters]) ?_
  rintro us _ hus ⟨t, vs, rfl, ht, hvs⟩
  rw [List.append_assoc, List.singleton_append]
  exact hus.join ht hmark hvs (hjoin us t vs hus.inert ht hvs.inert)

end

/-! ## One lemma for each production -/

section

variable {e key body test yes no left right : Expr}

attribute [local simp] Expr.text String.append_assoc

theorem Expr.takesMembers_member (h : TakesMembers e.outline e.text) (x : PlainName) :
    TakesMembers (Expr.member e x).outline (Expr.member e x).text := by
  intro members
  rw [show (Expr.member e x).text ++ dotted members = e.text ++ dotted (x :: members) by
      simp [dotted],
    show withMembers members (Expr.member e x).outline = withMembers (x :: members) e.outline by
      simp [withMembers, outline]]
  exact h (x :: members)

/-- A call adds a group to the tokens of what is called. -/
theorem Expr.takesMembers_call {arguments : List Expr} (h : TakesMembers e.outline e.text)
    (harguments : ∀ a ∈ arguments, TakesMembers a.outline a.text) :
    TakesMembers (Expr.call e arguments).outline (Expr.call e arguments).text := by
  rw [show (Expr.call e arguments).text = e.text ++
    ("(" ++ ", ".intercalate (Expr.texts arguments) ++ ")") by simp]
  refine h.bracketed [.round] ?_ (by simp [Delimits, delimiters])
  refine (phrase_between "(" ")" (by decide) (lexes_inert ")" (by decide) (by decide)
    (phrase_items harguments))).mono (fun _ => id) ?_
  rintro _ ⟨first, inner, last, rfl, hfirst, -, hinner, hlast⟩
  exact ⟨.group hfirst hinner hlast, .bracket .round hfirst hlast hinner.balanced,
    by simp [hfirst.is]⟩

/-- A key in square brackets adds a group as well. -/
theorem Expr.takesMembers_index (h : TakesMembers e.outline e.text)
    (hkey : TakesMembers key.outline key.text) :
    TakesMembers (Expr.index e key).outline (Expr.index e key).text := by
  rw [show (Expr.index e key).text = e.text ++ ("[" ++ key.text ++ "]") by simp]
  refine h.bracketed [.other] ?_ (by simp [Delimits, delimiters])
  refine (phrase_between "[" "]" (by decide) (lexes_closed "]" (by decide) hkey.phrase)).mono
    (fun _ => id) ?_
  rintro _ ⟨first, inner, last, rfl, hfirst, -, hinner, hlast⟩
  exact ⟨.square hfirst hinner.inert.of_operand hlast,
    .bracket .square hfirst hlast hinner.inert.balanced, by simp [hfirst.is]⟩

theorem Expr.takesMembers_array {items : List Expr}
    (hitems : ∀ item ∈ items, TakesMembers item.outline item.text) :
    TakesMembers (Expr.array items).outline (Expr.array items).text := by
  have hlist := phrase_between "[" "]" (by decide) (lexes_inert "]" (by decide) (by decide)
    (phrase_items hitems))
  refine (hlist.mono (fun _ _ => trivial) ?_).takesMembers
  rintro _ ⟨first, inner, last, rfl, hfirst, -, hinner, hlast⟩
  exact .square hfirst hinner hlast

theorem Expr.takesMembers_object {entries : List (PlainName × Expr)}
    (hentries : ∀ p ∈ entries, TakesMembers p.2.outline p.2.text) :
    TakesMembers (Expr.object entries).outline (Expr.object entries).text := by
  have hlist := phrase_between "\x7b" "\x7d" (by decide) (lexes_inert "\x7d" (by decide)
    (by decide) (phrase_entries hentries))
  refine (hlist.mono (fun _ _ => trivial) ?_).takesMembers
  rintro _ ⟨first, inner, last, rfl, hfirst, -, hinner, hlast⟩
  exact .object hfirst hinner hlast

theorem Expr.takesMembers_group (h : TakesMembers e.outline e.text) :
    TakesMembers (Expr.group e).outline (Expr.group e).text := by
  have hgroup := phrase_between "(" ")" (by decide) (lexes_closed ")" (by decide) h.phrase)
  refine (hgroup.mono (fun _ _ => trivial) ?_).takesMembers
  rintro _ ⟨first, inner, last, rfl, hfirst, -, hinner, hlast⟩
  exact .group hfirst hinner.inert.of_operand hlast

/-- What is written behind an arrow function belongs to its body. -/
theorem Expr.takesMembers_arrow (parameters : List PlainName)
    (h : TakesMembers body.outline body.text) :
    TakesMembers (Expr.arrow parameters body).outline (Expr.arrow parameters body).text := by
  intro members
  have hlist := phrase_between "(" ")" (by decide) (lexes_names parameters)
  have hmark : ") => " = ")" ++ (" " ++ "=>" ++ " ") := rfl
  rw [show (Expr.arrow parameters body).text ++ dotted members =
    "(" ++ ", ".intercalate (parameters.map PlainName.text) ++ ")" ++
      (" " ++ "=>" ++ " " ++ (body.text ++ dotted members)) by
        simp only [Expr.text, hmark, String.append_assoc],
    show (Expr.arrow parameters body).outline = [.round, .operator "=>"] ++ body.outline from rfl,
    withMembers_append body.outline_ne_nil]
  refine hlist.join (lexes_operator "=>" (by decide) (h members)) (by simp) ?_
  rintro _ _ ⟨first, inner, last, rfl, hfirst, -, hinner, hlast⟩ ⟨arrow, us, rfl, harrow, hus⟩
  have hparameters : OperandTokens .round (first :: (inner ++ [last])) :=
    .bracket .round hfirst hlast (Inert.balanced_of_names hinner)
  refine ⟨?_, ?_, .operator hparameters harrow (by decide) hus.outlined⟩
  · rw [List.cons_append, List.append_assoc, List.singleton_append]
    exact .arrow hfirst hinner hlast harrow hus.inert
  · simpa using endsOperand_append (first :: (inner ++ [last, arrow])) hus.last

/-- Both branches of a conditional, with what is written behind it. -/
theorem Expr.phrase_branches (hyes : TakesMembers yes.outline yes.text)
    (hno : TakesMembers no.outline no.text) (members : List PlainName) :
    Phrase (yes.text ++ (" " ++ ":" ++ " " ++ (no.text ++ dotted members))) Delimits
      fun ts => ∃ us colon vs, ts = us ++ colon :: vs ∧ ExprTokens yes.outline us ∧
        colon.IsMark ":" ∧ ExprTokens (withMembers members no.outline) vs := by
  refine hyes.phrase.join (lexes_operator ":" (by decide) (hno members))
    (by simp [Delimits, delimiters]) ?_
  rintro us _ hus ⟨colon, vs, rfl, hcolon, hvs⟩
  exact ⟨us, colon, vs, rfl, hus, hcolon, hvs⟩

/-- What is written behind a conditional belongs to its last branch. -/
theorem Expr.takesMembers_conditional (htest : TakesMembers test.outline test.text)
    (hyes : TakesMembers yes.outline yes.text) (hno : TakesMembers no.outline no.text) :
    TakesMembers (Expr.conditional test yes no).outline (Expr.conditional test yes no).text := by
  intro members
  have hbranches := lexes_operator "?" (by decide) (phrase_branches hyes hno members)
  rw [show (Expr.conditional test yes no).text ++ dotted members = test.text ++
    (" " ++ "?" ++ " " ++ (yes.text ++ (" " ++ ":" ++ " " ++ (no.text ++ dotted members)))) by
      simp,
    show (Expr.conditional test yes no).outline =
      test.outline ++ .operator "?" :: (yes.outline ++ [.operator ":"]) ++ no.outline by
        simp [outline],
    withMembers_append no.outline_ne_nil]
  refine htest.phrase.join hbranches (by simp [Delimits, delimiters]) ?_
  rintro us _ hus ⟨question, _, rfl, hquestion, vs, colon, ws, rfl, hvs, hcolon, hws⟩
  refine ⟨?_, ?_, ?_⟩
  · refine hus.inert.append (.conditional hquestion hvs.inert hcolon hws.inert) ?_
    rintro _ ⟨⟩
    simp [hquestion.is]
  · simpa using endsOperand_append (us ++ question :: (vs ++ [colon])) hws.last
  · have hrow := hus.outlined.join hquestion (by decide)
      (hvs.outlined.join hcolon (by decide) hws.outlined)
    simpa using hrow

/-- What is written behind an operation belongs to its right operand. -/
theorem Expr.takesMembers_binary (operator : BinaryOperator)
    (hleft : TakesMembers left.outline left.text) (hright : TakesMembers right.outline right.text) :
    TakesMembers (Expr.binary operator left right).outline
      (Expr.binary operator left right).text := by
  rw [show (Expr.binary operator left right).text =
    left.text ++ (" " ++ operator.text ++ " " ++ right.text) by simp]
  refine hleft.operator operator.text (by cases operator <;> decide)
    (by cases operator <;> decide) hright right.outline_ne_nil ?_
  intro us t vs hus ht hvs
  have hmem : operator.text ∈ [".", "+", "-", "*", "&&", "||", "??", "==="] := by
    cases operator <;> decide
  refine hus.append (.operator ⟨_, hmem, ht⟩ hvs) ?_
  rintro _ ⟨⟩
  cases operator <;> simp [ht.is, BinaryOperator.text]

end

/-- Every expression is read as tokens that erasure leaves alone, with the members that are
written behind it. -/
theorem Expr.takesMembers (e : Expr) : TakesMembers e.outline e.text := by
  induction e with
  | name x => exact x.takesMembers
  | integer n => exact n.takesMembers
  | string s => exact s.takesMembers
  | member e x ih => exact takesMembers_member ih x
  | call e arguments ih ihArguments => exact takesMembers_call ih ihArguments
  | index e key ih ihKey => exact takesMembers_index ih ihKey
  | array items ih => exact takesMembers_array ih
  | object entries ih => exact takesMembers_object ih
  | group e ih => exact takesMembers_group ih
  | arrow parameters body ih => exact takesMembers_arrow parameters ih
  | conditional test yes no ihTest ihYes ihNo => exact takesMembers_conditional ihTest ihYes ihNo
  | binary operator left right ih ih' => exact takesMembers_binary operator ih ih'

end Workflow.Script
