import Mathlib.Data.List.Chain
import Workflow.Proofs.Script.Reading
import Workflow.Proofs.Script.Grammar

/-!
# Tokens written one behind the other

A text that is put together from words, literals and punctuators is read as these if no
character that follows one of them lengthens it. For that only the first character behind a
token has to be known. The facts here are put together like the text: a part is read as
certain tokens in front of all characters of a class, and two parts are joined if the second
one starts with such a character.
-/

namespace Workflow.Script

variable {c : Char} {p behind : List Char} {t : Token} {text front back : String}
  {stops stops' : Char → Prop} {P Q : List Token → Prop}

/-- The characters that longer punctuators go on with. -/
def continuations (p : List Char) : List Char :=
  punctuators.filterMap fun q => if p.isPrefixOf q then q[p.length]? else none

/-- A mark that is no optional point is the first of the list that the text starts with. -/
theorem punctuatorLength_eq {cs : List Char} (h : ¬ ['?', '.'] <+: cs) :
    punctuatorLength cs = (punctuators.find? (·.isPrefixOf cs)).map List.length := by
  unfold punctuatorLength
  split
  · rename_i d tail
    exact absurd (List.prefix_append ['?', '.'] (d :: tail)) h
  · rfl

/-- A punctuator is read as a whole in front of a character that none goes on with. -/
theorem punctuatorLength_append (hp : p ∈ punctuators) (hpoint : p ≠ ['?', '.'])
    (h : c ∉ continuations p) : punctuatorLength (p ++ c :: behind) = some p.length := by
  have hlong : ∀ q ∈ punctuators, ¬ p ++ [c] <+: q := by
    rintro q hq ⟨tail, rfl⟩
    refine h (List.mem_filterMap.mpr ⟨_, hq, ?_⟩)
    rw [if_pos (List.isPrefixOf_iff_prefix.mpr ⟨c :: tail, by simp⟩)]
    simp
  have hsame : ∀ q ∈ punctuators, q.isPrefixOf (p ++ c :: behind) = q.isPrefixOf p := by
    intro q hq
    rw [Bool.eq_iff_iff, List.isPrefixOf_iff_prefix, List.isPrefixOf_iff_prefix]
    refine ⟨fun hprefix => ?_, fun hprefix => hprefix.trans (List.prefix_append _ _)⟩
    rcases Nat.lt_or_ge p.length q.length with hlength | hlength
    · have hc : p ++ [c] <+: p ++ c :: behind := ⟨behind, by simp⟩
      have hle : (p ++ [c]).length ≤ q.length := by
        rw [List.length_append, List.length_singleton]
        exact hlength
      exact absurd (List.prefix_of_prefix_length_le hc hprefix hle) (hlong q hq)
    · exact List.prefix_of_prefix_length_le hprefix (List.prefix_append _ _) hlength
  have hquestion : ¬ ['?', '.'] <+: p := by
    have hall : ∀ q ∈ punctuators, q ≠ ['?', '.'] → ¬ ['?', '.'] <+: q := by decide
    exact hall p hp hpoint
  have hquestion' : ¬ ['?', '.'] <+: p ++ c :: behind := by
    rw [← List.isPrefixOf_iff_prefix, hsame _ (by decide), List.isPrefixOf_iff_prefix]
    exact hquestion
  have halone := punctuatorLength_of_mem p hp
  rw [punctuatorLength_eq hquestion] at halone
  rw [punctuatorLength_eq hquestion', ← halone]
  rw [← List.head?_filter, ← List.head?_filter, List.filter_congr hsame]

/-- Whether a character neither lengthens the token that it stands behind nor turns its
point into a number. -/
def Token.StopsAt (t : Token) (c : Char) : Prop :=
  match t.kind with
  | .word | .regex => isNamePart c = false
  | .number => (c.isAlphanum || c == '_' || c == '.' || c == '+' || c == '-') = false
  | .punctuator => c ∉ continuations t.text.toList ∧ (t.text = "." → c.isDigit = false)
  | .string | .template | .finish => True

/-- A token on one line that starts no regular expression and no comment. -/
structure Token.Plain (t : Token) : Prop where
  formed : t.Formed
  head : t.text.toList.head? ≠ some '/'
  point : t.text ≠ "?."
  line : '\n' ∉ t.text.toList
  trivia : Trivia t.leading.toList

/-- The text of a punctuator is listed. -/
theorem Token.Formed.text_mem (h : t.Formed) (hkind : t.kind = .punctuator) :
    t.text.toList ∈ punctuators := by
  obtain ⟨c, rest, earlier, htext, -, hread⟩ := h
  rw [hkind, tokenTail_eq_ok_iff] at hread
  obtain ⟨-, n, hn, hdrop⟩ := hread
  obtain ⟨hpos, hle⟩ := punctuatorLength_bounds hn
  have hlength := congrArg List.length hdrop
  simp only [List.length_drop, List.length_nil, List.length_cons] at hlength hle
  have hmem := take_punctuatorLength hn
  rwa [List.take_of_length_le (by rw [List.length_cons]; omega), ← htext] at hmem

/-- A plain token ends in front of every character that it stops at. -/
theorem Token.Plain.endsBefore (h : t.Plain) (hstops : ∀ c ∈ behind.head?, t.StopsAt c) :
    t.EndsBefore behind := by
  have hmem := h.formed.text_mem
  have hpoint : t.text.toList ≠ ['?', '.'] := fun heq => h.point (String.toList_inj.mp heq)
  have hhead := h.head
  have htext : t.text.toList = ['.'] → t.text = "." := fun heq => String.toList_inj.mp heq
  unfold Token.StopsAt at hstops
  unfold Token.EndsBefore
  generalize t.kind = kind at hstops hmem ⊢
  cases kind with
  | word | regex => exact hstops
  | number =>
    intro c hc
    have hstop := hstops c hc
    simp only [Bool.or_eq_false_iff] at hstop
    simp [continuesNumber, hstop]
  | punctuator =>
    refine ⟨?_, fun hdot c hc => (hstops c hc).2 (htext hdot), fun hslash => ?_⟩
    · cases behind with
      | nil => rw [List.append_nil, punctuatorLength_of_mem _ (hmem rfl)]
      | cons c behind => exact punctuatorLength_append (hmem rfl) hpoint (hstops c rfl).1
    · rw [hslash] at hhead
      exact absurd rfl hhead
  | string | template | finish => trivial

/-- A plain token has characters. -/
theorem Token.Plain.characters_ne_nil (h : t.Plain) : t.characters ≠ [] := by
  obtain ⟨c, body, htext⟩ := h.formed.exists_cons
  simp [Token.characters, htext]

/-- A text is made up of tokens, none of which is lengthened by the next one, nor the last
one by a character of a class. -/
structure Lexed (start : Nat) (text : String) (stops : Char → Prop) (ts : List Token) : Prop where
  characters : charactersOf ts = text.toList
  placed : Placed start ts
  plain : ∀ t ∈ ts, t.Plain
  chain : ts.IsChain fun t u => ∀ c ∈ u.characters.head?, t.StopsAt c
  last : ∃ t ∈ ts.getLast?, ∀ c, stops c → t.StopsAt c

/-- The first character of plain tokens is that of the first one. -/
theorem head?_charactersOf {ts : List Token} (h : ∀ t ∈ ts, t.Plain) :
    (charactersOf ts).head? = ts.head?.bind fun t => t.characters.head? := by
  cases ts with
  | nil => rfl
  | cons t ts =>
    obtain ⟨d, rest, hcharacters⟩ :=
      List.exists_cons_of_ne_nil (h t List.mem_cons_self).characters_ne_nil
    rw [show charactersOf (t :: ts) = t.characters ++ charactersOf ts from List.flatMap_cons]
    simp [hcharacters]

/-- No text is read as no tokens. -/
theorem Lexed.ne_nil {start : Nat} {ts : List Token} (h : Lexed start text stops ts) : ts ≠ [] := by
  obtain ⟨t, ht, -⟩ := h.last
  rintro rfl
  cases ht

/-- Fewer stops are met by a text that is read with more of them. -/
theorem Lexed.stops_mono {start : Nat} {ts : List Token} (h : Lexed start text stops ts)
    (hstops : ∀ c, stops' c → stops c) : Lexed start text stops' ts := by
  obtain ⟨hcharacters, hplaced, hplain, hchain, t, ht, hlast⟩ := h
  exact ⟨hcharacters, hplaced, hplain, hchain, t, ht, fun c hc => hlast c (hstops c hc)⟩

/-- Two parts are joined if the second one starts with a character that stops the first. -/
theorem Lexed.append {start : Nat} {ts us : List Token} (h : Lexed start front stops ts)
    (h' : Lexed (start + front.toList.length) back stops' us)
    (hjoin : ∀ c ∈ back.toList.head?, stops c) : Lexed start (front ++ back) stops' (ts ++ us) where
  characters := by rw [charactersOf_append, h.characters, h'.characters, String.toList_append]
  placed := placed_append.mpr ⟨h.placed, by rw [h.characters]; exact h'.placed⟩
  plain t ht := (List.mem_append.mp ht).elim (h.plain t) (h'.plain t)
  chain := by
    refine h.chain.append h'.chain fun t ht u hu c hc => ?_
    obtain ⟨last, hlast, hstops⟩ := h.last
    obtain rfl := Option.mem_unique ht hlast
    refine hstops c (hjoin c ?_)
    rw [← h'.characters, head?_charactersOf h'.plain, hu]
    exact hc
  last := by
    obtain ⟨t, ht, hstops⟩ := h'.last
    exact ⟨t, by rw [List.getLast?_append_of_ne_nil _ h'.ne_nil]; exact ht, hstops⟩

section

variable {ts earlier : List Token} {before : Nat} {tail : List Char}

theorem characters_append_charactersOf (t : Token) (ts : List Token) :
    t.characters ++ charactersOf ts = charactersOf (t :: ts) := List.flatMap_cons.symm

/-- White space and comments in front of a token are passed over. -/
theorem Token.Formed.triviaTail_characters (h : t.Formed) (hlead : Trivia t.leading.toList)
    (hends : t.EndsBefore behind) (hfits : t.FitsBehind earlier) :
    triviaTail (t.characters ++ behind) = .ok (t.text.toList ++ behind) := by
  obtain ⟨c, body, htext⟩ := h.exists_cons
  have hreads := (h.reads_iff htext).mpr ⟨hends, hfits⟩
  rw [Token.characters, List.append_assoc, hlead.triviaTail_append, htext]
  exact hreads.2

/-- A token is read, and the reading goes on behind it. -/
theorem Token.Formed.readFrom_eq (h : t.Formed) (hends : t.EndsBefore behind)
    (hfits : t.FitsBehind earlier) (hstart : t.start = before + t.leading.toList.length)
    (hnext : triviaTail behind = .ok tail) :
    readFrom earlier before (t.characters ++ behind) (t.text.toList ++ behind) =
      readFrom (t :: earlier) (before + t.characters.length) behind tail := by
  obtain ⟨c, body, htext⟩ := h.exists_cons
  have hreads := (h.reads_iff htext).mpr ⟨hends, hfits⟩
  have htoken : (⟨t.kind, String.ofList t.leading.toList, String.ofList (c :: body),
      before + t.leading.toList.length⟩ : Token) = t := by
    rw [← htext, ← hstart, String.ofList_toList, String.ofList_toList]
  rw [Token.characters, htext, List.append_assoc, List.cons_append,
    readFrom_token hreads.1 hnext, htoken, List.length_append, Nat.add_assoc]

theorem Token.Plain.fitsBehind (h : t.Plain) (earlier : List Token) : t.FitsBehind earlier :=
  fun hslash => absurd hslash h.head

/-- A token of a chain ends in front of the next one, and the last one in front of what stands
behind them all. -/
theorem endsBefore_of_chain (hplain : ∀ u ∈ t :: ts, u.Plain)
    (hchain : (t :: ts).IsChain fun t u => ∀ c ∈ u.characters.head?, t.StopsAt c)
    (hlast : ∀ u ∈ (t :: ts).getLast?, ∀ c ∈ behind.head?, u.StopsAt c) :
    t.EndsBefore (charactersOf ts ++ behind) := by
  refine (hplain t List.mem_cons_self).endsBefore ?_
  cases ts with
  | nil => exact hlast t rfl
  | cons u ts =>
    have hu := hplain u (by simp)
    rw [← characters_append_charactersOf, List.append_assoc,
      List.head?_append_of_ne_nil _ hu.characters_ne_nil]
    exact (List.isChain_cons_cons.mp hchain).1

/-- Plain tokens are read one behind the other, and the reading goes on behind them. -/
theorem readFrom_of_chain (earlier : List Token) (hplain : ∀ u ∈ t :: ts, u.Plain)
    (hplaced : Placed before (t :: ts))
    (hchain : (t :: ts).IsChain fun t u => ∀ c ∈ u.characters.head?, t.StopsAt c)
    (hlast : ∀ u ∈ (t :: ts).getLast?, ∀ c ∈ behind.head?, u.StopsAt c)
    (hbehind : triviaTail behind = .ok tail) :
    readFrom earlier before (charactersOf (t :: ts) ++ behind)
        (t.text.toList ++ (charactersOf ts ++ behind)) =
      readFrom ((t :: ts).reverse ++ earlier) (before + (charactersOf (t :: ts)).length) behind
        tail := by
  have hends := endsBefore_of_chain hplain hchain hlast
  have ht := hplain t List.mem_cons_self
  induction ts generalizing t earlier before with
  | nil =>
    rw [← characters_append_charactersOf t, List.append_assoc]
    simpa using ht.formed.readFrom_eq hends (ht.fitsBehind earlier) hplaced.1 hbehind
  | cons u ts ih =>
    have hplain' : ∀ v ∈ u :: ts, v.Plain := fun v hv => hplain v (List.mem_cons_of_mem _ hv)
    have hlast' : ∀ v ∈ (u :: ts).getLast?, ∀ c ∈ behind.head?, v.StopsAt c := by
      rwa [List.getLast?_cons_cons] at hlast
    have hends' := endsBefore_of_chain hplain' hchain.tail hlast'
    have hu := hplain' u List.mem_cons_self
    have hnext := hu.formed.triviaTail_characters hu.trivia hends' (hu.fitsBehind [])
    rw [← List.append_assoc, characters_append_charactersOf] at hnext
    have hrest := ih (t :: earlier) hplain' hplaced.2 hchain.tail hlast' hends' hu
    rw [← characters_append_charactersOf t, List.append_assoc,
      ht.formed.readFrom_eq hends (ht.fitsBehind earlier) hplaced.1 hnext]
    simpa [Token.characters, Nat.add_assoc] using hrest

end

/-- The tokens that a text is made up of are read, and the reading goes on behind them. -/
theorem Lexed.exists_readFrom {start : Nat} {tail behind : List Char} {ts : List Token}
    (h : Lexed start text stops ts) (earlier : List Token) (hbehind : triviaTail behind = .ok tail)
    (hstops : ∀ c ∈ behind.head?, stops c) :
    ∃ cs, triviaTail (text.toList ++ behind) = .ok cs ∧
      readFrom earlier start (text.toList ++ behind) cs =
        readFrom (ts.reverse ++ earlier) (start + text.toList.length) behind tail := by
  obtain ⟨t, rest, rfl⟩ := List.exists_cons_of_ne_nil h.ne_nil
  have hlast : ∀ u ∈ (t :: rest).getLast?, ∀ c ∈ behind.head?, u.StopsAt c := by
    obtain ⟨final, hfinal, hlast⟩ := h.last
    intro u hu c hc
    obtain rfl := Option.mem_unique hu hfinal
    exact hlast c (hstops c hc)
  have ht := h.plain t List.mem_cons_self
  have htail := ht.formed.triviaTail_characters ht.trivia
    (endsBefore_of_chain h.plain h.chain hlast) (ht.fitsBehind [])
  have hread := readFrom_of_chain earlier h.plain h.placed h.chain hlast hbehind
  rw [← List.append_assoc, characters_append_charactersOf] at htail
  rw [← h.characters]
  exact ⟨_, htail, hread⟩

/-- A text at the start of a source is read as the tokens that it is made up of. -/
theorem Lexed.readTokens_eq {source : String} {tail behind : List Char} {ts : List Token}
    (h : Lexed 0 text stops ts) (hsource : source.toList = text.toList ++ behind)
    (hmark : ¬ ['#', '!'] <+: source.toList) (hbehind : triviaTail behind = .ok tail)
    (hstops : ∀ c ∈ behind.head?, stops c) :
    readTokens source = readFrom ts.reverse text.toList.length behind tail := by
  obtain ⟨cs, htail, hread⟩ := h.exists_readFrom [] hbehind hstops
  rw [List.append_nil, Nat.zero_add] at hread
  rw [readTokens, headTail_eq_triviaTail hmark, hsource, htail]
  exact hread

/-- A whole source is read as the tokens that it is made up of, whatever white space and comments
stand at its end. -/
theorem Lexed.readTokens_append {source tail : String} {ts : List Token}
    (h : Lexed 0 source stops ts) (hmark : ¬ ['#', '!'] <+: (source ++ tail).toList)
    (hend : triviaTail tail.toList = .ok []) (hstops : ∀ c ∈ tail.toList.head?, stops c) :
    readTokens (source ++ tail) =
      ⟨ts ++ [⟨.finish, tail, "", (source ++ tail).toList.length⟩], none⟩ := by
  rw [h.readTokens_eq String.toList_append hmark hend hstops, readFrom_nil]
  simp

/-- Wherever a text stands, it is read as tokens of the given sort, none of which starts a
line. -/
def Lexes (text : String) (stops : Char → Prop) (P : List Token → Prop) : Prop :=
  ∀ start, ∃ ts, Lexed start text stops ts ∧ (∀ t ∈ ts, t.startsLine = false) ∧ P ts

namespace Lexes

/-- Two texts are read one behind the other if the first one stops at the second. -/
theorem append (h : Lexes front stops P) (h' : Lexes back stops' Q)
    (hjoin : ∀ c ∈ back.toList.head?, stops c) :
    Lexes (front ++ back) stops' fun ts => ∃ us vs, ts = us ++ vs ∧ P us ∧ Q vs := by
  intro start
  obtain ⟨us, hus, hline, hP⟩ := h start
  obtain ⟨vs, hvs, hline', hQ⟩ := h' (start + front.toList.length)
  exact ⟨us ++ vs, hus.append hvs hjoin, List.forall_mem_append.mpr ⟨hline, hline'⟩, us, vs, rfl,
    hP, hQ⟩

/-- Of the tokens of a text less may be known. -/
theorem mono (h : Lexes text stops P) (hP : ∀ ts, P ts → Q ts) : Lexes text stops Q := by
  intro start
  obtain ⟨ts, hts, hline, hs⟩ := h start
  exact ⟨ts, hts, hline, hP ts hs⟩

/-- Fewer stops are met by what is read with more of them. -/
theorem stops_mono (h : Lexes text stops P) (hstops : ∀ c, stops' c → stops c) :
    Lexes text stops' P := by
  intro start
  obtain ⟨ts, hts, hs⟩ := h start
  exact ⟨ts, hts.stops_mono hstops, hs⟩

end Lexes

/-- A single token, on the line of the token before it. -/
def IsToken (kind : TokenKind) (text : String) (ts : List Token) : Prop :=
  ∃ t, ts = [t] ∧ t.kind = kind ∧ t.text = text ∧ t.startsLine = false

/-- The characters that a token may be followed by. -/
def StopsAt (kind : TokenKind) (text : String) (c : Char) : Prop :=
  Token.StopsAt ⟨kind, "", text, 0⟩ c

variable {kind : TokenKind} {lead : String}

/-- A text on one line that is a token is made up of that token. -/
theorem lexed_token {c : Char} {rest : List Char} {start : Nat} (hlead : Trivia lead.toList)
    (htext : text.toList = c :: rest) (hblank : Text.isBlank c = false) (hslash : c ≠ '/')
    (hpoint : text ≠ "?.") (hline : '\n' ∉ rest)
    (hread : tokenTail [] c rest = .ok (kind, [])) :
    Lexed start (lead ++ text) (StopsAt kind text)
      [⟨kind, lead, text, start + lead.toList.length⟩] := by
  refine ⟨?_, ?_, ?_, ?_, ?_⟩
  · simp
  · exact ⟨rfl, trivial⟩
  · intro t ht
    obtain rfl := List.mem_singleton.mp ht
    have hself : triviaTail (c :: rest) = .ok (c :: rest) :=
      triviaTail_eq_self_iff.mpr ⟨hblank, fun h => hslash h.1⟩
    have hfeed : '\n' ≠ c := by
      rintro rfl
      cases hblank
    refine ⟨⟨c, rest, [], htext, hself, hread⟩, ?_, hpoint, ?_, hlead⟩
    · simpa [htext] using hslash
    · simpa [htext, hfeed] using hline
  · exact List.isChain_singleton _
  · exact ⟨_, rfl, fun c hc => hc⟩

/-- A blank or nothing is passed over in front of a token. -/
theorem trivia_of_space (hlead : lead = "" ∨ lead = " ") : Trivia lead.toList := by
  rcases hlead with rfl | rfl
  · exact .none
  · exact .blank (by decide) .none

/-- A token with at most a space in front starts no line. -/
theorem lexes_of_lexed (hlead : lead = "" ∨ lead = " ")
    (h : ∀ start,
      Lexed start (lead ++ text) stops [⟨kind, lead, text, start + lead.toList.length⟩]) :
    Lexes (lead ++ text) stops (IsToken kind text) := by
  intro start
  have hline : ∀ start, Token.startsLine ⟨kind, lead, text, start⟩ = false := by
    rcases hlead with rfl | rfl <;> simp [Token.startsLine]
  exact ⟨_, h start, by simpa using hline _, _, rfl, rfl, rfl, hline _⟩

/-- Visible characters of ASCII are no white space. -/
theorem isBlank_of_visible {c : Char} (h : 33 ≤ c.toNat ∧ c.toNat ≤ 126) :
    Text.isBlank c = false := by
  unfold Text.isBlank Text.whiteSpace
  obtain ⟨h₁, h₂⟩ := h
  simp only [Text.Ranges.has]
  simp
  omega

/-- A letter or a digit is a visible character. -/
theorem visible_of_isAlphanum (h : c.isAlphanum = true) : 33 ≤ c.toNat ∧ c.toNat ≤ 126 := by
  change ((decide (65 ≤ c.val ∧ c.val ≤ 90) || (decide (97 ≤ c.val) && decide (c.val ≤ 122))) ||
    (decide (48 ≤ c.val) && decide (c.val ≤ 57))) = true at h
  simp only [Bool.or_eq_true, Bool.and_eq_true, decide_eq_true_eq, UInt32.le_iff_toNat_le] at h
  change ((65 ≤ c.toNat ∧ c.toNat ≤ 90) ∨ (97 ≤ c.toNat ∧ c.toNat ≤ 122)) ∨
    (48 ≤ c.toNat ∧ c.toNat ≤ 57) at h
  omega

/-- A letter is a visible character. -/
theorem visible_of_isLetter (h : isLetter c = true) : 33 ≤ c.toNat ∧ c.toNat ≤ 126 := by
  simp only [isLetter, Bool.or_eq_true, beq_iff_eq] at h
  rcases h with (h | rfl) | rfl
  · exact visible_of_isAlphanum (by simp [Char.isAlphanum, h])
  · decide
  · decide

/-- A letter may start a name. -/
theorem isNameStart_of_isLetter (h : isLetter c = true) : isNameStart c = true := by
  simp only [isLetter, Bool.or_eq_true, beq_iff_eq] at h
  rcases h with (h | rfl) | rfl
  · simp [isNameStart, Text.isAlphabetic_of_isAlpha h]
  · decide
  · decide

/-- A letter or a digit may go on with a name. -/
theorem isNamePart_of_isAlphanum (h : c.isAlphanum = true) : isNamePart c = true := by
  simp only [Char.isAlphanum, Bool.or_eq_true] at h
  rcases h with h | h
  · simp [isNamePart, Text.isAlphabetic_of_isAlpha h]
  · simp [isNamePart, Text.isNumeral_of_isDigit h]

theorem isNamePart_of_isLetter_or_isDigit (h : (isLetter c || c.isDigit) = true) :
    isNamePart c = true := by
  simp only [isLetter, Bool.or_eq_true, beq_iff_eq] at h
  rcases h with ((h | rfl) | rfl) | h
  · exact isNamePart_of_isAlphanum (by simp [Char.isAlphanum, h])
  · decide
  · decide
  · exact isNamePart_of_isAlphanum (by simp [Char.isAlphanum, h])

/-- Letters and digits are made up of a word. -/
theorem lexed_word {start : Nat} (hlead : Trivia lead.toList)
    (htext : text.toList = c :: rest) (hc : isLetter c = true)
    (hrest : ∀ d ∈ rest, isNamePart d = true) :
    Lexed start (lead ++ text) (fun d => isNamePart d = false)
      [⟨.word, lead, text, start + lead.toList.length⟩] := by
  have hvisible := visible_of_isLetter hc
  show Lexed start (lead ++ text) (StopsAt .word text) _
  refine lexed_token hlead htext (isBlank_of_visible hvisible) ?_ ?_ ?_ ?_
  · rintro rfl
    cases hc
  · rintro rfl
    obtain ⟨rfl, -⟩ := List.cons.inj htext
    cases hc
  · exact fun hfeed => absurd (hrest _ hfeed) (by decide)
  · rw [tokenTail_eq_ok_iff, leadingKind, if_pos (isNameStart_of_isLetter hc)]
    exact ⟨rfl, List.dropWhile_eq_nil_iff.mpr hrest⟩

/-- Letters and digits are read as a word. -/
theorem lexes_word (hlead : lead = "" ∨ lead = " ") (htext : text.toList = c :: rest)
    (hc : isLetter c = true) (hrest : ∀ d ∈ rest, isNamePart d = true) :
    Lexes (lead ++ text) (fun d => isNamePart d = false) (IsToken .word text) :=
  lexes_of_lexed hlead fun _ => lexed_word (trivia_of_space hlead) htext hc hrest

/-- No digit starts a name. -/
theorem isNameStart_of_isDigit (h : c.isDigit = true) : isNameStart c = false := by
  have hlt : c.toNat < 0x41 := by
    simp only [Char.isDigit, Bool.and_eq_true, decide_eq_true_eq, UInt32.le_iff_toNat_le] at h
    change 48 ≤ c.toNat ∧ c.toNat ≤ 57 at h
    omega
  have halphabetic : Text.isAlphabetic c = false := Text.Ranges.has_of_lt_first hlt
  have hother : ∀ d, c = d → d.isDigit = true := fun d hd => hd ▸ h
  simp only [isNameStart, halphabetic, Bool.false_or, Bool.or_eq_false_iff, beq_eq_false_iff_ne]
  refine ⟨⟨?_, ?_⟩, ?_⟩
  all_goals
    rintro rfl
    cases h

/-- A number ends at the end of its line. -/
theorem not_mem_of_numberTail_eq_nil {hexadecimal : Bool} {cs : List Char}
    (h : numberTail hexadecimal c cs = []) : '\n' ∉ cs := by
  induction cs generalizing c with
  | nil => exact List.not_mem_nil
  | cons d cs ih =>
    rw [numberTail_cons] at h
    split at h
    · rename_i hd
      have hfeed : '\n' ≠ d := by
        rintro rfl
        cases hd
      simpa [hfeed] using ih h
    · cases h

/-- A digit and what continues it are read as a number. -/
theorem lexes_number (hlead : lead = "" ∨ lead = " ") (htext : text.toList = c :: rest)
    (hc : c.isDigit = true) (hrest : numberTail (isHexadecimal (c :: rest)) c rest = []) :
    Lexes (lead ++ text) (StopsAt .number text) (IsToken .number text) := by
  have hvisible := visible_of_isAlphanum (show c.isAlphanum = true by simp [Char.isAlphanum, hc])
  refine lexes_of_lexed hlead fun _ => lexed_token (trivia_of_space hlead) htext
    (isBlank_of_visible hvisible) ?_ ?_ (not_mem_of_numberTail_eq_nil hrest) ?_
  · rintro rfl
    cases hc
  · rintro rfl
    obtain ⟨rfl, -⟩ := List.cons.inj htext
    cases hc
  · rw [tokenTail_eq_ok_iff, leadingKind, if_neg (by simp [isNameStart_of_isDigit hc]),
      if_pos (by simp [hc])]
    exact ⟨rfl, hrest⟩

/-- Digits, letters and points continue a number. -/
theorem numberTail_eq_nil {hexadecimal : Bool} {cs : List Char}
    (h : ∀ d ∈ cs, (d.isAlphanum || d == '_' || d == '.') = true) :
    numberTail hexadecimal c cs = [] := by
  induction cs generalizing c with
  | nil => rfl
  | cons d cs ih =>
    have hd : continuesNumber hexadecimal c d = true := by
      rw [continuesNumber, h d List.mem_cons_self, Bool.true_or]
    rw [numberTail_cons, if_pos hd]
    exact ih fun d hd => h d (List.mem_cons_of_mem _ hd)

/-- A number may have the sign and the digits of an exponent at its end. -/
theorem NumberLiteral.numberTail_eq_nil (n : NumberLiteral) :
    numberTail (isHexadecimal (n.first :: (n.rest ++ n.exponent))) n.first
      (n.rest ++ n.exponent) = [] := by
  have hrest : ∀ hexadecimal, numberTail hexadecimal n.first n.rest = [] :=
    fun _ => Script.numberTail_eq_nil n.rest_isPart
  rcases n.exponent_eq with hnone | ⟨sign, digits, hexponent, hsign, hdigits, hmantissa, hhex⟩
  · rw [hnone, List.append_nil]
    exact hrest _
  · obtain ⟨mantissa, e, hmantissa, he⟩ := hmantissa
    have hdecimal : isHexadecimal (n.first :: (n.rest ++ n.exponent)) = false := by
      rw [hmantissa] at hhex ⊢
      cases mantissa with
      | nil => simpa [isHexadecimal] using hhex
      | cons d mantissa => simpa [isHexadecimal] using hhex
    rw [numberTail_append (hrest _), hdecimal, hexponent, hmantissa, numberTail_cons, if_pos]
    · exact Script.numberTail_eq_nil fun d hd => by simp [Char.isAlphanum, hdigits d hd]
    · rw [List.getLastD_concat]
      rcases hsign with rfl | rfl <;> rcases he with rfl | rfl <;> decide

/-- A listed operator or bracket is made up of a punctuator. -/
theorem lexed_punctuator {start : Nat} (hlead : Trivia lead.toList)
    (htext : text.toList ∈ punctuators) (hslash : text.toList.head? ≠ some '/')
    (hpoint : text ≠ "?.") :
    Lexed start (lead ++ text) (StopsAt .punctuator text)
      [⟨.punctuator, lead, text, start + lead.toList.length⟩] := by
  have hlisted : ∀ p ∈ punctuators, p.head? ≠ some '/' → p ≠ [] ∧
      Text.isBlank (p.headD ' ') = false ∧ '\n' ∉ p.tail ∧
      leadingKind [] (p.headD ' ') p.tail = .punctuator := by
    decide
  obtain ⟨hne, hblank, hline, hleading⟩ := hlisted _ htext hslash
  have hlength := punctuatorLength_of_mem _ htext
  obtain ⟨c, rest, heq⟩ := List.exists_cons_of_ne_nil hne
  rw [heq] at hslash hblank hline hleading hlength
  refine lexed_token hlead heq hblank (fun hc => hslash (congrArg some hc)) hpoint hline ?_
  rw [tokenTail_eq_ok_iff]
  exact ⟨hleading, _, hlength, by simp⟩

/-- A listed operator or bracket is read as a punctuator. -/
theorem lexes_punctuator (hlead : lead = "" ∨ lead = " ") (htext : text.toList ∈ punctuators)
    (hslash : text.toList.head? ≠ some '/') (hpoint : text ≠ "?.") :
    Lexes (lead ++ text) (StopsAt .punctuator text) (IsToken .punctuator text) :=
  lexes_of_lexed hlead fun _ => lexed_punctuator (trivia_of_space hlead) htext hslash hpoint

/-- The parts of a string literal lead up to its closing quote. -/
theorem stringTail_pieces {quote : Char} {pieces : List StringPiece} (hquote : quote ≠ '\n')
    (hslash : quote ≠ '\\') (h : ∀ p ∈ pieces, p.Fits quote) :
    stringTail quote (pieces.flatMap StringPiece.characters ++ [quote]) = some [] := by
  induction pieces with
  | nil => simp [stringTail_cons hquote hslash]
  | cons p pieces ih =>
    have hp := h p List.mem_cons_self
    have hrest := ih fun q hq => h q (List.mem_cons_of_mem _ hq)
    rw [List.flatMap_cons, List.append_assoc]
    cases p with
    | plain d =>
      obtain ⟨hd, hesc, hfeed⟩ := hp
      rw [StringPiece.characters, List.singleton_append, stringTail_cons hfeed hesc, if_neg hd,
        hrest]
    | escaped d =>
      rw [StringPiece.characters, List.cons_append, List.singleton_append]
      have hnext : ∀ tail, pieces.flatMap StringPiece.characters ++ [quote] ≠ '\n' :: tail := by
        intro tail heq
        rw [heq] at hrest
        cases hrest
      rw [stringTail, hrest]
      intro tail hd htail
      exact hnext tail htail

/-- A string literal stands on one line. -/
theorem StringLiteral.not_mem_body (s : StringLiteral) :
    '\n' ∉ s.pieces.flatMap StringPiece.characters ++ [s.quote] := by
  have hquote : '\n' ≠ s.quote := by
    rcases s.isQuote with h | h <;> rw [h] <;> decide
  have hpiece : ∀ p ∈ s.pieces, '\n' ∉ p.characters := by
    intro p hp
    have hfits := s.fits p hp
    cases p with
    | plain c => simpa [StringPiece.characters] using hfits.2.2.symm
    | escaped c => simpa [StringPiece.characters] using Ne.symm hfits
  simpa [hquote] using hpiece

/-- A string literal is made up of one token. -/
theorem lexed_string {start : Nat} (hlead : Trivia lead.toList) (s : StringLiteral) :
    Lexed start (lead ++ s.text) (fun _ => True)
      [⟨.string, lead, s.text, start + lead.toList.length⟩] := by
  have htext : s.text.toList =
      s.quote :: (s.pieces.flatMap StringPiece.characters ++ [s.quote]) := String.toList_ofList
  have hpieces := stringTail_pieces
    (by rcases s.isQuote with h | h <;> rw [h] <;> decide)
    (by rcases s.isQuote with h | h <;> rw [h] <;> decide) s.fits
  show Lexed start (lead ++ s.text) (StopsAt .string s.text) _
  have hquote := s.isQuote
  have hline := s.not_mem_body
  generalize s.quote = quote at hquote htext hpieces hline
  refine lexed_token hlead htext ?_ ?_ ?_ hline ?_
  · rcases hquote with rfl | rfl <;> decide
  · rcases hquote with rfl | rfl <;> decide
  · rintro heq
    rw [heq] at htext
    rcases hquote with rfl | rfl <;> cases htext
  · rw [tokenTail_eq_ok_iff]
    refine ⟨?_, hpieces⟩
    rcases hquote with rfl | rfl
    · simp [leadingKind, show isNameStart '"' = false by decide,
        show Char.isDigit '"' = false by decide]
    · simp [leadingKind, show isNameStart '\'' = false by decide,
        show Char.isDigit '\'' = false by decide]

/-- A string literal is read as one token. -/
theorem lexes_string (hlead : lead = "" ∨ lead = " ") (s : StringLiteral) :
    Lexes (lead ++ s.text) (fun _ => True) (IsToken .string s.text) :=
  lexes_of_lexed hlead fun _ => lexed_string (trivia_of_space hlead) s

/-- A plain name is read as a word. -/
theorem PlainName.lexes (hlead : lead = "" ∨ lead = " ") (x : PlainName) :
    Lexes (lead ++ x.text) (fun d => isNamePart d = false) (IsToken .word x.text) :=
  lexes_word hlead x.text_eq x.first_isLetter fun d hd =>
    isNamePart_of_isLetter_or_isDigit (x.rest_isPart d hd)

end Workflow.Script
