import Workflow.Proofs.Script.Interchange
import Workflow.Proofs.Script.Lexeme
import Workflow.Proofs.Script.Rereading

/-!
# Reading a source with another member name

The name of a member is read as a word, whichever it is: the point in front of it ends there,
because no punctuator and no number goes on with a letter, and what stands behind is read as before
unless a slash comes to mean something else. So the tokens of the source with the name replaced are
those of the source with the name replaced, each where it now starts.
-/

namespace Workflow.Script

variable {c d : Char} {cs w v : List Char} {text : String} {t u point name : Token}
  {ts us earlier earlier' before behind : List Token}

/-- A text of letters, digits, `_` and `$` that starts with no digit. Reserved words are such
texts, too. -/
def IsIdentifier (text : String) : Prop := ∃ c rest, text.toList = c :: rest ∧ isLetter c = true ∧
  ∀ d ∈ rest, (isLetter d || d.isDigit) = true

/-- A text starts like a name if its first character does. -/
theorem startsName_iff : StartsName text ↔
    ∃ c rest, text.toList = c :: rest ∧ isNameStart c = true := by
  unfold StartsName
  cases text.toList with
  | nil => simp
  | cons c rest => simp

/-- An identifier starts like a name. -/
theorem IsIdentifier.startsName (h : IsIdentifier text) : StartsName text := by
  obtain ⟨c, rest, htext, hc, -⟩ := h
  exact startsName_iff.mpr ⟨c, rest, htext, isNameStart_of_isLetter hc⟩

/-- An identifier is read as a word. -/
theorem IsIdentifier.formed (h : IsIdentifier t.text) (hkind : t.kind = .word) : t.Formed := by
  obtain ⟨c, rest, htext, hc, hrest⟩ := h
  have hlexed : Lexed 0 ("" ++ t.text) _ [⟨.word, "", t.text, _⟩] :=
    lexed_word .none htext hc fun d hd => isNamePart_of_isLetter_or_isDigit (hrest d hd)
  refine (Token.formed_congr ?_).mp (hlexed.plain _ (List.mem_singleton_self _)).formed
  rw [Token.spelling, Token.spelling, hkind]

/-- A word starts like a name. -/
theorem Token.Formed.startsName (h : t.Formed) (hkind : t.kind = .word) : StartsName t.text := by
  obtain ⟨c, rest, earlier, htext, -, hread⟩ := h
  rw [hkind, tokenTail_eq_ok_iff] at hread
  refine startsName_iff.mpr ⟨c, rest, htext, ?_⟩
  by_contra hc
  have hword := hread.1
  unfold leadingKind at hword
  rw [if_neg hc] at hword
  split_ifs at hword

/-! ## Names behind a point -/

/-- No name starts with a digit. -/
theorem isDigit_of_isNameStart (hc : isNameStart c = true) : c.isDigit = false := by
  by_contra hdigit
  rw [Bool.not_eq_false] at hdigit
  rw [isNameStart_of_isDigit hdigit] at hc
  cases hc

/-- No punctuator goes on with the start of a name. -/
theorem punctuatorLength_name (hc : isNameStart c = true) (cs w : List Char) :
    punctuatorLength (cs ++ c :: w) = punctuatorLength cs := by
  have hdigit := isDigit_of_isNameStart hc
  have hsame : ∀ p ∈ punctuators, p.isPrefixOf (cs ++ c :: w) = p.isPrefixOf cs := by
    intro p hp
    rw [Bool.eq_iff_iff, List.isPrefixOf_iff_prefix, List.isPrefixOf_iff_prefix]
    refine ⟨fun hprefix => ?_, fun hprefix => hprefix.trans (List.prefix_append _ _)⟩
    rcases Nat.lt_or_ge cs.length p.length with hlength | hlength
    · have hmember : c ∈ p := by
        have hstart : cs ++ [c] <+: cs ++ c :: w := ⟨w, by simp⟩
        have hle : (cs ++ [c]).length ≤ p.length := by
          rw [List.length_append, List.length_singleton]
          exact hlength
        exact (List.prefix_of_prefix_length_le hstart hprefix hle).subset (by simp)
      have hmarks : ∀ q ∈ punctuators, q.any isNameStart = false := by decide
      exact absurd hc (List.any_eq_false.mp (hmarks p hp) c hmember)
    · exact List.prefix_of_prefix_length_le hprefix (List.prefix_append _ _) hlength
  have hfind : punctuators.find? (·.isPrefixOf (cs ++ c :: w)) =
      punctuators.find? (·.isPrefixOf cs) := by
    rw [← List.head?_filter, ← List.head?_filter, List.filter_congr hsame]
  by_cases hquestion : ['?', '.'] <+: cs
  · obtain ⟨tail, rfl⟩ := hquestion
    cases tail with
    | nil =>
      simp only [List.append_nil, List.cons_append, List.nil_append] at hfind ⊢
      rw [punctuatorLength, hdigit, if_neg Bool.false_ne_true, hfind]
      rfl
    | cons d tail =>
      simp only [List.cons_append, List.nil_append] at hfind ⊢
      rw [punctuatorLength, punctuatorLength, hfind]
  · have hquestion' : ¬ ['?', '.'] <+: cs ++ c :: w := by
      rwa [← List.isPrefixOf_iff_prefix, hsame _ (by decide), List.isPrefixOf_iff_prefix]
    rw [punctuatorLength_eq hquestion, punctuatorLength_eq hquestion', hfind]

/-- A name in front of which something else stands lengthens no token before it, and neither does
another name in its place. -/
theorem Token.EndsBefore.replace (h : t.EndsBefore (cs ++ c :: w)) (hc : isNameStart c = true)
    (hd : isNameStart d = true) (hbetween : cs ≠ [] ∨ t.kind = .punctuator) :
    t.EndsBefore (cs ++ d :: v) := by
  have hhead : cs ≠ [] → (cs ++ d :: v).head? = (cs ++ c :: w).head? := fun hcs => by
    rw [List.head?_append_of_ne_nil _ hcs, List.head?_append_of_ne_nil _ hcs]
  unfold Token.EndsBefore at h ⊢
  generalize t.kind = kind at h hbetween ⊢
  cases kind with
  | word | number | regex =>
    rw [TokenKind.Ends, hhead (hbetween.resolve_right (by decide))]
    exact h
  | punctuator =>
    obtain ⟨hlength, hpoint, hslash⟩ := h
    rw [← List.append_assoc, punctuatorLength_name hc] at hlength
    refine ⟨?_, ?_, ?_⟩
    · rw [← List.append_assoc, punctuatorLength_name hd, hlength]
    · cases cs with
      | nil =>
        rintro - x hx
        obtain rfl := Option.some.inj hx
        exact isDigit_of_isNameStart hd
      | cons x cs => exact hpoint
    · cases cs with
      | nil =>
        rintro - x hx
        obtain rfl := Option.some.inj hx
        exact ⟨fun heq => absurd (heq ▸ hd) (by decide), fun heq => absurd (heq ▸ hd) (by decide)⟩
      | cons x cs => exact hslash
  | string | template | finish => trivial

/-! ## What is read does not depend on where it stands -/

/-- What a token is, with what stands in front of it, wherever it starts. -/
def Token.content (t : Token) : TokenKind × String × String := (t.kind, t.leading, t.text)

/-- Tokens with the same content are written alike. -/
theorem Token.spelling_of_content (h : t.content = u.content) : t.spelling = u.spelling := by
  simp only [content, Prod.mk.injEq] at h
  rw [spelling, spelling, h.1, h.2.2]

/-- Whether a token may follow another one depends on its content. -/
theorem Token.spaced_congr (h : t.content = u.content) : t.Spaced ↔ u.Spaced := by
  simp only [content, Prod.mk.injEq] at h
  rw [Spaced, Spaced, h.1, h.2.1]

theorem Token.headSpaced_congr (h : t.content = u.content) : t.HeadSpaced ↔ u.HeadSpaced := by
  simp only [content, Prod.mk.injEq] at h
  rw [HeadSpaced, HeadSpaced, h.1, h.2.1]

/-- Tokens with the same contents are written alike. -/
theorem charactersOf_congr (h : ts.map Token.content = us.map Token.content) :
    charactersOf ts = charactersOf us := by
  have hcharacters : ∀ ts : List Token, charactersOf ts =
      (ts.map Token.content).flatMap fun content => content.2.1.toList ++ content.2.2.toList :=
    fun ts => by rw [List.flatMap_map]; rfl
  rw [hcharacters, hcharacters, h]

/-- Every token can be given the start that it has behind the others. -/
theorem exists_placed (start : Nat) (ts : List Token) :
    ∃ us, us.map Token.content = ts.map Token.content ∧ Placed start us := by
  induction ts generalizing start with
  | nil => exact ⟨[], rfl, trivial⟩
  | cons t ts ih =>
    obtain ⟨us, hcontent, hplaced⟩ := ih (start + t.leading.toList.length + t.text.toList.length)
    exact ⟨⟨t.kind, t.leading, t.text, start + t.leading.toList.length⟩ :: us,
      by rw [List.map_cons, List.map_cons, hcontent]; rfl, rfl, hplaced⟩

/-- A slash has the same meaning behind the one token as behind the other. -/
def Token.LeadsAlike (t u : Token) : Prop := t.kind = u.kind ∧
  (t.kind = .punctuator → t.text = u.text) ∧
  wordsBeforeRegex.contains t.text = wordsBeforeRegex.contains u.text

theorem Token.leadsAlike_of_content (h : t.content = u.content) : t.LeadsAlike u := by
  simp only [content, Prod.mk.injEq] at h
  exact ⟨h.1, fun _ => h.2.2, by rw [h.2.2]⟩

/-- Tokens that lead alike end an operand alike. -/
theorem Token.LeadsAlike.endsOperand (h : t.LeadsAlike u) : t.endsOperand = u.endsOperand := by
  obtain ⟨hkind, htext, hword⟩ := h
  unfold Token.endsOperand
  rw [← hkind, hword]
  split
  case h_6 hmark => rw [htext hmark]
  all_goals rfl

/-- Whether a slash starts a regular expression depends on what the tokens lead to. -/
theorem regexAllowed_of_alike (h : List.Forall₂ Token.LeadsAlike ts us) :
    regexAllowed ts = regexAllowed us := by
  cases h with
  | nil => rfl
  | @cons t u ts us hfirst hrest =>
    have hoperand : ts.head?.any Token.endsOperand = us.head?.any Token.endsOperand := by
      cases hrest with
      | nil => rfl
      | cons hsecond _ => exact hsecond.endsOperand
    obtain ⟨hkind, htext, hword⟩ := hfirst
    rw [regexAllowed, regexAllowed, ← hkind, hoperand, hword]
    split
    case h_1 hmark => rw [htext hmark]
    all_goals rfl

/-- Tokens are read alike wherever they start, behind tokens that lead alike. -/
theorem ReadsOn.of_content (h : ReadsOn earlier ts)
    (hearlier : List.Forall₂ Token.LeadsAlike earlier earlier')
    (hcontent : ts.map Token.content = us.map Token.content) : ReadsOn earlier' us := by
  induction h generalizing earlier' us with
  | @finish earlier t hkind htext =>
    obtain ⟨u, rfl, hsame⟩ := List.map_eq_singleton_iff.mp hcontent.symm
    obtain ⟨hkind', htext'⟩ := Prod.mk.inj (Token.spelling_of_content hsame)
    exact .finish (hkind'.trans hkind) (htext'.trans htext)
  | @token earlier t next ts hformed hends hfits hspaced _ ih =>
    obtain ⟨u, rest, rfl, hfirst, hrest⟩ := List.map_eq_cons_iff.mp hcontent.symm
    obtain ⟨next', us, rfl, hnext, hothers⟩ := List.map_eq_cons_iff.mp hrest
    have hspelling := Token.spelling_of_content hfirst
    obtain ⟨hkind, htext⟩ := Prod.mk.inj hspelling
    refine .token ((Token.formed_congr hspelling).mpr hformed) ?_ ?_
      ((Token.spaced_congr hnext).mpr hspaced) ?_
    · rw [charactersOf_congr hrest]
      exact (Token.endsBefore_congr hspelling _).mpr hends
    · rw [Token.FitsBehind, ← regexAllowed_of_alike hearlier, hkind, htext]
      exact hfits
    · exact ih (.cons (Token.leadsAlike_of_content hfirst.symm) hearlier) hrest.symm

/-- The reading goes on behind a token if the token is formed, ends there and may stand there. -/
theorem readsOn_cons_iff (hts : ts ≠ []) : ReadsOn earlier (t :: ts) ↔ t.Formed ∧
    t.EndsBefore (charactersOf ts) ∧ t.FitsBehind earlier ∧ (∀ u ∈ ts.head?, u.Spaced) ∧
    ReadsOn (t :: earlier) ts := by
  obtain ⟨next, ts, rfl⟩ := List.exists_cons_of_ne_nil hts
  constructor
  · intro h
    cases h with
    | token hformed hends hfits hspaced hrest =>
      exact ⟨hformed, hends, hfits, by simpa using hspaced, hrest⟩
  · rintro ⟨hformed, hends, hfits, hspaced, hrest⟩
    exact .token hformed hends hfits (hspaced next rfl) hrest

/-- All tokens that are read are formed, up to the end of the source. -/
theorem ReadsOn.formed (h : ReadsOn earlier ts) (ht : t ∈ ts) (hkind : t.kind ≠ .finish) :
    t.Formed := by
  obtain ⟨front, last, rfl, hlast, -, hformed, -⟩ := readsOn_iff.mp h
  rcases List.mem_append.mp ht with ht | ht
  · exact hformed t ht
  · rw [List.mem_singleton.mp ht] at hkind
    exact absurd hlast hkind

/-- The words that are read start like names. -/
theorem startsName_of_read {source : String} (h : readTokens source = ⟨ts, none⟩) (ht : t ∈ ts)
    (hkind : t.kind = .word) : StartsName t.text := by
  obtain ⟨u, us, rfl, hof⟩ := readTokens_eq_iff.mp h
  exact (hof.reads.formed ht (by simp [hkind])).startsName hkind

/-- A mark in front of a name does not reach into it. -/
theorem prefix_of_prefix_name (h : ['#', '!'] <+: cs ++ d :: v) (hcs : cs ≠ [])
    (hd : isNameStart d = true) : ['#', '!'] <+: cs := by
  obtain ⟨x, cs, rfl⟩ := List.exists_cons_of_ne_nil hcs
  rw [List.cons_append, List.cons_prefix_cons] at h
  obtain ⟨rfl, h⟩ := h
  cases cs with
  | nil =>
    rw [List.nil_append, List.cons_prefix_cons] at h
    exact absurd (h.1 ▸ hd) (by decide)
  | cons y cs =>
    rw [List.cons_append, List.cons_prefix_cons] at h
    exact ⟨cs, by rw [← h.1]; rfl⟩

/-! ## The tokens of the source with another name -/

/-- A name in front of which other characters stand ends the tokens before it like another one. -/
theorem Token.EndsBefore.replace_name (h : t.EndsBefore (charactersOf (before ++ name :: behind)))
    (hname : StartsName name.text) (htext : StartsName text)
    (hbetween : charactersOf before ≠ [] ∨ t.kind = .punctuator) :
    t.EndsBefore (charactersOf (before ++ { name with text } :: behind)) := by
  obtain ⟨c, w, hc, hstart⟩ := startsName_iff.mp hname
  obtain ⟨d, v, hd, hstart'⟩ := startsName_iff.mp htext
  rw [charactersOf_append, charactersOf_cons, ← List.append_assoc] at h ⊢
  rw [hc, List.cons_append] at h
  rw [hd, List.cons_append]
  exact h.replace hstart hstart'
    (hbetween.imp_left fun hne hnil => hne (List.append_eq_nil_iff.mp hnil).1)

section

variable (hpoint : point.kind = .punctuator ∧ point.text ∈ [".", "?."]) (hname : name.kind = .word)
  (hidentifier : IsIdentifier text)
  (hslash : wordsBeforeRegex.contains name.text = wordsBeforeRegex.contains text)

include hpoint in
/-- A point is written. -/
theorem charactersOf_point_ne_nil (before : List Token) :
    charactersOf (before ++ [point]) ≠ [] := by
  intro hnil
  simp only [charactersOf_append, charactersOf_cons, List.append_eq_nil_iff,
    String.toList_eq_nil_iff] at hnil
  exact absurd (hnil.2.2.1 ▸ hpoint.2) (by decide)

include hname hidentifier hslash

/-- Another name is read where the name was, and what stands behind it as before. -/
theorem ReadsOn.replace_head (h : ReadsOn earlier (name :: behind)) :
    ReadsOn earlier ({ name with text } :: behind) := by
  have hformed := hidentifier.formed (t := { name with text }) hname
  obtain ⟨d, v, htext, hd⟩ := startsName_iff.mp hidentifier.startsName
  cases h with
  | finish hkind =>
    rw [hname] at hkind
    cases hkind
  | token _ hends hfits hspaced hrest =>
    refine .token hformed ?_ ?_ hspaced (hrest.of_content (.cons ?_ ?_) rfl)
    · unfold Token.EndsBefore at hends ⊢
      rw [hname] at hends ⊢
      exact hends
    · intro hhead
      rw [htext] at hhead
      obtain rfl := Option.some.inj hhead
      cases hd
    · exact ⟨rfl, fun hmark => absurd (hname.symm.trans hmark) (by decide), hslash⟩
    · exact List.forall₂_same.mpr fun _ _ => Token.leadsAlike_of_content rfl

include hpoint

/-- Tokens with another name behind a point are read one behind the other like those with the
name. -/
theorem ReadsOn.replace (hstarts : StartsName name.text)
    (h : ReadsOn earlier (before ++ point :: name :: behind)) :
    ReadsOn earlier (before ++ point :: { name with text } :: behind) := by
  induction before generalizing earlier with
  | nil =>
    rw [List.nil_append, readsOn_cons_iff (by simp)] at h ⊢
    obtain ⟨hformed, hends, hfits, hspaced, hrest⟩ := h
    have hends' : point.EndsBefore (charactersOf ([] ++ { name with text } :: behind)) :=
      hends.replace_name hstarts hidentifier.startsName (.inr hpoint.1)
    exact ⟨hformed, hends', hfits, by simpa [Token.Spaced] using hspaced,
      hrest.replace_head hname hidentifier hslash⟩
  | cons t before ih =>
    rw [List.cons_append, readsOn_cons_iff (by simp)] at h ⊢
    obtain ⟨hformed, hends, hfits, hspaced, hrest⟩ := h
    have hrest' := ih hrest
    rw [List.append_cons] at hends hspaced hrest' ⊢
    refine ⟨hformed, hends.replace_name hstarts hidentifier.startsName
      (.inl (charactersOf_point_ne_nil hpoint before)), hfits, ?_, hrest'⟩
    rw [List.head?_append_of_ne_nil _ (by simp)] at hspaced ⊢
    exact hspaced

/-- The source with another name is read as the tokens with another name, each where it now
starts. -/
theorem readTokens_replace {source : String}
    (h : readTokens source = ⟨before ++ point :: name :: behind, none⟩) :
    ∃ us, us.map Token.content =
        (before ++ point :: { name with text } :: behind).map Token.content ∧
      readTokens (String.ofList (charactersOf (before ++ point :: { name with text } :: behind))) =
        ⟨us, none⟩ := by
  obtain ⟨t, ts, hall, hof⟩ := readTokens_eq_iff.mp h
  have hreads := hof.reads
  rw [← hall] at hreads
  have hstarts := startsName_of_read h (by simp) hname
  obtain ⟨us, hcontent, hplaced⟩ :=
    exists_placed 0 (before ++ point :: { name with text } :: behind)
  have hreplaced := hreads.replace hpoint hname hidentifier hslash hstarts
  have hreads' := hreplaced.of_content .nil hcontent.symm
  obtain ⟨u, us, rfl⟩ : ∃ u us', us = u :: us' := by
    refine List.exists_cons_of_ne_nil fun hnil => ?_
    simp [hnil] at hcontent
  have hfirst : u.content = t.content := by
    cases before with
    | nil =>
      obtain ⟨rfl, -⟩ := List.cons.inj hall
      exact (List.cons.inj hcontent).1
    | cons v before =>
      obtain ⟨rfl, -⟩ := List.cons.inj hall
      exact (List.cons.inj hcontent).1
  refine ⟨u :: us, hcontent, readTokens_eq_iff.mpr ⟨u, us, rfl, ?_, hplaced, hreads', ?_, ?_⟩⟩
  · rw [String.toList_ofList, charactersOf_congr hcontent]
  · exact (Token.headSpaced_congr hfirst).mpr hof.head
  · obtain ⟨d, v, hd, hstart⟩ := startsName_iff.mp hidentifier.startsName
    have hleading : u.leading = t.leading := by
      simp only [Token.content, Prod.mk.injEq] at hfirst
      exact hfirst.2.1
    have hsource := hof.characters
    rw [← hall, List.append_cons, charactersOf_append, charactersOf_cons, ← List.append_assoc]
      at hsource
    rw [String.toList_ofList, List.append_cons, charactersOf_append, charactersOf_cons,
      ← List.append_assoc, hd, List.cons_append, hleading]
    intro hmark
    have hbetween : charactersOf (before ++ [point]) ++ name.leading.toList ≠ [] := fun hnil =>
      charactersOf_point_ne_nil hpoint before (List.append_eq_nil_iff.mp hnil).1
    refine hof.mark (hsource ▸ ?_)
    exact (prefix_of_prefix_name hmark hbetween hstart).trans (List.prefix_append _ _)

end

/-! ## Brackets -/

/-- Which bracket a token opens and which one it closes. -/
def Token.bracket (t : Token) : Option Bracket × Option Bracket := (t.opens?, t.closes?)

/-- The bracket of a token depends on its content. -/
theorem Token.bracket_of_content (h : t.content = u.content) : t.bracket = u.bracket := by
  have hspelling := Token.spelling_of_content h
  rw [bracket, bracket, Token.opens?_congr hspelling, Token.closes?_congr hspelling]

/-- A name is no bracket. -/
theorem Token.bracket_of_startsName (h : StartsName t.text) : t.bracket = (none, none) := by
  have his : ∀ mark : String, mark.toList.head?.any isNameStart = false → t.is mark = false := by
    intro mark hmark
    rw [Token.is, Bool.and_eq_false_iff, beq_eq_false_iff_ne]
    refine .inr fun heq => ?_
    rw [StartsName, heq, hmark] at h
    cases h
  simp (disch := decide) only [bracket, opens?, closes?, his]
  rfl

/-- What two tokens with one content share, lists of them share, too. -/
theorem map_of_content {α : Type} {f : Token → α} (hf : ∀ t u, t.content = u.content → f t = f u)
    (h : ts.map Token.content = us.map Token.content) : ts.map f = us.map f := by
  induction ts generalizing us with
  | nil =>
    rw [List.map_nil, eq_comm, List.map_eq_nil_iff] at h
    rw [h]
  | cons t ts ih =>
    obtain ⟨u, us, rfl, hfirst, hrest⟩ := List.map_eq_cons_iff.mp h.symm
    rw [List.map_cons, List.map_cons, hf t u hfirst.symm, ih hrest.symm]

namespace Pairing

variable {p q p' : Pairing} {index : Nat}

/-- The same brackets are paired and open; where these start may differ. -/
def Alike (p q : Pairing) : Prop := p.partner = q.partner ∧
  p.opened.map (fun b => (b.shape, b.index)) = q.opened.map fun b => (b.shape, b.index)

/-- Pairings that are alike stay so with tokens of the same bracket. -/
theorem Alike.take (h : p.Alike p') (hbracket : t.bracket = u.bracket)
    (htake : p.take index t = .ok q) : ∃ q', p'.take index u = .ok q' ∧ q.Alike q' := by
  obtain ⟨hpartner, hopened⟩ := h
  obtain ⟨hopens, hcloses⟩ := Prod.mk.inj hbracket
  cases hopen : t.opens? with
  | some shape =>
    rw [take_open hopen] at htake
    cases htake
    refine ⟨_, take_open (hopens ▸ hopen), hpartner, ?_⟩
    rw [List.map_cons, List.map_cons, hopened]
  | none =>
    cases hclose : t.closes? with
    | none =>
      rw [take_other hopen hclose] at htake
      cases htake
      exact ⟨p', take_other (hopens ▸ hopen) (hcloses ▸ hclose), hpartner, hopened⟩
    | some shape =>
      obtain ⟨inner, outer, hinner, hshape, rfl⟩ := exists_of_take_close hclose htake
      rw [hinner] at hopened
      obtain ⟨inner', outer', hinner', hsame, houter⟩ := List.map_eq_cons_iff.mp hopened.symm
      obtain ⟨hshape', hindex⟩ := Prod.mk.inj hsame
      refine ⟨_, take_close (hcloses ▸ hclose) hinner' (hshape'.trans hshape), ?_, houter.symm⟩
      rw [link, link, hpartner, hindex]

/-- Pairings that are alike stay so with lists of tokens of the same brackets. -/
theorem Alike.takeAll (h : p.Alike p') (hbracket : ts.map Token.bracket = us.map Token.bracket)
    (htake : p.takeAll index ts = .ok q) : ∃ q', p'.takeAll index us = .ok q' ∧ q.Alike q' := by
  induction ts generalizing p p' index us with
  | nil =>
    cases htake
    rw [List.map_nil, eq_comm, List.map_eq_nil_iff] at hbracket
    exact ⟨p', by rw [hbracket]; rfl, h⟩
  | cons t ts ih =>
    obtain ⟨u, us, rfl, hfirst, hrest⟩ := List.map_eq_cons_iff.mp hbracket.symm
    obtain ⟨r, hr, htake⟩ := exists_of_takeAll_cons htake
    obtain ⟨r', hr', halike⟩ := h.take hfirst.symm hr
    obtain ⟨q', hq', hq⟩ := ih halike hrest.symm htake
    exact ⟨q', by rw [takeAll_cons hr', hq'], hq⟩

end Pairing

/-- The source with another name has a table in which the same brackets are partners. -/
theorem exists_tokenize_replace {source : String} {table : TokenTable}
    (htable : tokenize source = .ok table)
    (htokens : table.tokens.toList = before ++ point :: name :: behind)
    (hpoint : point.kind = .punctuator ∧ point.text ∈ [".", "?."]) (hname : name.kind = .word)
    (hidentifier : IsIdentifier text)
    (hslash : wordsBeforeRegex.contains name.text = wordsBeforeRegex.contains text) :
    ∃ table', tokenize (String.ofList
        (charactersOf (before ++ point :: { name with text } :: behind))) = .ok table' ∧
      table'.tokens.toList.map Token.content =
        (before ++ point :: { name with text } :: behind).map Token.content ∧
      table'.partner = table.partner := by
  obtain ⟨hread, q, hq, hopened, hpartner⟩ := tokenize_eq_ok_iff.mp htable
  rw [htokens] at hread
  obtain ⟨us, hcontent, hread'⟩ := readTokens_replace hpoint hname hidentifier hslash hread
  have hbracket : table.tokens.toList.map Token.bracket = us.map Token.bracket := by
    have hnew : Token.bracket { name with text } = (none, none) :=
      Token.bracket_of_startsName hidentifier.startsName
    have hold : name.bracket = (none, none) :=
      Token.bracket_of_startsName (startsName_of_read hread (by simp) hname)
    rw [map_of_content (fun _ _ => Token.bracket_of_content) hcontent, htokens]
    simp only [List.map_append, List.map_cons, hnew, hold]
  have hlength : us.length = table.tokens.size := by
    simpa using (congrArg List.length hbracket).symm
  have hstart : Pairing.Alike ⟨Array.replicate table.tokens.size none, []⟩
      ⟨Array.replicate us.length none, []⟩ := ⟨by rw [hlength], rfl⟩
  obtain ⟨q', hq', hpartner', hopened'⟩ := hstart.takeAll hbracket hq
  refine ⟨⟨us.toArray, q'.partner⟩, tokenize_eq_ok_iff.mpr ⟨hread', q', ?_, ?_, rfl⟩, hcontent, ?_⟩
  · simpa using hq'
  · rw [hopened, List.map_nil, eq_comm, List.map_eq_nil_iff] at hopened'
    exact hopened'
  · rw [← hpartner', hpartner]

end Workflow.Script
