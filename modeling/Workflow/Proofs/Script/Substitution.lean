import Workflow.Proofs.Script.Bracket

/-!
# Code in a substitution

The code in a substitution of a template literal is passed over by a scanner of its own, which
knows white space, comments, strings, template literals and braces, and for which every other
character stands by itself. It does not know regular expressions. Where those in a source can be
passed over in this way, the source as a whole can: its tokens are passed over one by one, and its
braces pair up.
-/

namespace Workflow.Script

variable {cs ds rest : List Char} {remaining braces : Nat} {outer : List TemplateLevel}

/-! ## White space and comments -/

/-- A line feed ends a comment at the end of a text. -/
theorem triviaTail_append_feed (h : triviaTail cs = .ok []) (w : List Char) :
    triviaTail (cs ++ '\n' :: w) = triviaTail w := by
  have hfeed (ds : List Char) : triviaTail ('\n' :: ds) = triviaTail ds :=
    triviaTail_blank (by decide)
  fun_induction triviaTail cs with
  | case1 => exact hfeed w
  | case2 tail ih =>
    obtain ⟨line, hline, htail, hnil | ⟨after, hafter⟩⟩ := exists_line tail
    · rw [hnil, List.append_nil] at htail
      rw [htail, List.cons_append, List.cons_append, triviaTail, lineTail_append hline, hfeed]
    · rw [hafter] at htail
      have hbehind := ih h
      rw [hafter, List.cons_append] at hbehind
      rw [htail]
      simp only [List.cons_append, List.append_assoc]
      rw [triviaTail, lineTail_append hline, hbehind]
  | case3 tail after hafter ih =>
    obtain ⟨body, rfl, hbody⟩ := exists_body_of_commentTail hafter
    simp only [List.cons_append, List.append_assoc]
    rw [triviaTail_comment (hbody _), ih h]
  | case4 => cases h
  | case5 c tail _ _ hblank ih => rw [List.cons_append, triviaTail_blank hblank, ih h]
  | case6 => cases h

/-- What a substitution is read as depends on what stands behind the white space and the
comments. -/
theorem substitutionTail_congr (h : triviaTail cs = triviaTail ds) :
    substitutionTail remaining braces outer cs = substitutionTail remaining braces outer ds := by
  cases hds : triviaTail ds with
  | error fault =>
    rw [substitutionTail, substitutionTail]
    split <;> split <;> simp_all
  | ok left =>
    cases left with
    | nil =>
      rw [substitutionTail, substitutionTail]
      split <;> split <;> simp_all
    | cons c tail => rw [substitutionTail_eq (h.trans hds), substitutionTail_eq hds]

/-! ## Literals in literals -/

section

variable {n : Nat} {level : TemplateLevel} {levels : List TemplateLevel}
  (ihText : ∀ {remaining outer cs rest}, cs.length < n →
    templateTail remaining outer cs = .ok rest →
    templateTail remaining (outer ++ level :: levels) cs =
      substitutionTail level.remaining level.braces levels rest)
  (ihSub : ∀ {remaining braces outer cs rest}, cs.length < n →
    substitutionTail remaining braces outer cs = .ok rest →
    substitutionTail remaining braces (outer ++ level :: levels) cs =
      substitutionTail level.remaining level.braces levels rest)

include ihText ihSub

private theorem templateTail_within_step (hn : cs.length < n + 1)
    (h : templateTail remaining outer cs = .ok rest) :
    templateTail remaining (outer ++ level :: levels) cs =
      substitutionTail level.remaining level.braces levels rest := by
  rw [templateTail.eq_def] at h ⊢
  split at h
  · cases h
  · rw [List.length_cons, List.length_cons] at hn
    exact ihText (by omega) h
  · rw [List.length_cons] at hn
    -- Without a level around it the literal ends here.
    cases outer with
    | nil =>
      cases h
      rfl
    | cons first more => exact ihSub (by omega) h
  · rw [List.length_cons, List.length_cons] at hn
    exact ihSub (by omega) h
  · rw [List.length_cons] at hn
    exact ihText (by omega) h

private theorem substitutionTail_within_step (hn : cs.length < n + 1)
    (h : substitutionTail remaining braces outer cs = .ok rest) :
    substitutionTail remaining braces (outer ++ level :: levels) cs =
      substitutionTail level.remaining level.braces levels rest := by
  obtain ⟨c, tail, ht⟩ : ∃ c tail, triviaTail cs = .ok (c :: tail) := by
    rw [substitutionTail] at h
    split at h
    · cases h
    · cases h
    · exact ⟨_, _, ‹_›⟩
  have hlength := length_triviaTail_le ht
  rw [List.length_cons] at hlength
  rw [substitutionTail_eq ht] at h ⊢
  by_cases hopen : c = '\x7b'
  · rw [if_pos hopen] at h ⊢
    exact ihSub (by omega) h
  rw [if_neg hopen] at h ⊢
  by_cases hclose : c = '\x7d'
  · rw [if_pos hclose] at h ⊢
    cases braces with
    | zero => exact ihText (by omega) h
    | succ inner => exact ihSub (by omega) h
  rw [if_neg hclose] at h ⊢
  by_cases hquote : c = '"' ∨ c = '\''
  · rw [if_pos hquote] at h ⊢
    cases hs : stringTail c tail with
    | none =>
      rw [hs] at h
      cases h
    | some after =>
      have hafter := length_stringTail_lt hs
      rw [hs] at h
      exact ihSub (by omega) h
  rw [if_neg hquote] at h ⊢
  by_cases htick : c = '\x60'
  · rw [if_pos htick] at h ⊢
    exact ihText (by omega) h
  · rw [if_neg htick] at h ⊢
    exact ihSub (by omega) h

end

private theorem within_of_length_lt (level : TemplateLevel) (levels : List TemplateLevel)
    (n : Nat) :
    (∀ {remaining outer cs rest}, cs.length < n → templateTail remaining outer cs = .ok rest →
      templateTail remaining (outer ++ level :: levels) cs =
        substitutionTail level.remaining level.braces levels rest) ∧
    ∀ {remaining braces outer cs rest}, cs.length < n →
      substitutionTail remaining braces outer cs = .ok rest →
      substitutionTail remaining braces (outer ++ level :: levels) cs =
        substitutionTail level.remaining level.braces levels rest := by
  induction n with
  | zero => exact ⟨fun hn => absurd hn (Nat.not_lt_zero _), fun hn => absurd hn (Nat.not_lt_zero _)⟩
  | succ n ih =>
    obtain ⟨ihText, ihSub⟩ := ih
    exact ⟨fun hn h => templateTail_within_step ihText ihSub hn h,
      fun hn h => substitutionTail_within_step ihText ihSub hn h⟩

/-- Behind a template literal the substitution that it stands in is read on. -/
theorem templateTail_within (h : templateTail remaining [] cs = .ok []) (start : Nat)
    (level : TemplateLevel) (levels : List TemplateLevel) (w : List Char) :
    templateTail start (level :: levels) (cs ++ w) =
      substitutionTail level.remaining level.braces levels w :=
  (within_of_length_lt level levels _).1 (Nat.lt_succ_self _) (templateTail_append h start w)

/-! ## What is passed over -/

/-- The characters that a substitution takes for more than themselves, but for the slash. -/
def marksInCode : List Char := ['\x7b', '\x7d', '"', '\'', '\x60']

/-- Code that is complete when it is read as the code in a substitution is, in front of a further
character: literals and comments end in it, braces pair up, and no slash that is not part of a
literal starts a comment. -/
inductive PassedOver : Char → List Char → Prop
  | nil {next : Char} : PassedOver next []
  /-- A character that stands by itself. -/
  | plain {next c : Char} {cs : List Char} : c ∉ marksInCode →
      (c = '/' → cs.headD next ≠ '/' ∧ cs.headD next ≠ '*') → PassedOver next cs →
      PassedOver next (c :: cs)
  /-- A comment between its marks. -/
  | comment {next : Char} {body cs : List Char} : commentTail body = some [] →
      PassedOver next cs → PassedOver next ('/' :: '*' :: (body ++ cs))
  /-- A string literal. -/
  | string {next quote : Char} {body cs : List Char} : quote = '"' ∨ quote = '\'' →
      stringTail quote body = some [] → PassedOver next cs → PassedOver next (quote :: (body ++ cs))
  /-- A template literal. -/
  | template {next : Char} {remaining : Nat} {body cs : List Char} :
      templateTail remaining [] body = .ok [] → PassedOver next cs →
      PassedOver next ('\x60' :: (body ++ cs))
  /-- Code between braces. -/
  | braces {next : Char} {inner cs : List Char} : PassedOver '\x7d' inner →
      PassedOver next cs → PassedOver next ('\x7b' :: (inner ++ '\x7d' :: cs))

variable {next c : Char} {text : List Char}

/-- A mark is neither blank nor the start of a comment. -/
theorem triviaTail_mark (hc : c ∈ marksInCode) (cs : List Char) :
    triviaTail (c :: cs) = .ok (c :: cs) := by
  have hmarks : (marksInCode.all fun c => !Text.isBlank c && c != '/') = true := by decide
  have hmark := List.all_eq_true.mp hmarks c hc
  simp only [Bool.and_eq_true, Bool.not_eq_true', bne_iff_ne] at hmark
  exact triviaTail_eq_self_iff.mpr ⟨hmark.1, fun h => hmark.2 h.1⟩

theorem substitutionTail_open (cs : List Char) :
    substitutionTail remaining braces outer ('\x7b' :: cs) =
      substitutionTail remaining (braces + 1) outer cs := by
  rw [substitutionTail_eq (triviaTail_mark (by decide) cs), if_pos rfl]

theorem substitutionTail_close (cs : List Char) :
    substitutionTail remaining (braces + 1) outer ('\x7d' :: cs) =
      substitutionTail remaining braces outer cs := by
  rw [substitutionTail_eq (triviaTail_mark (by decide) cs), if_neg (by decide), if_pos rfl]

/-- A character that stands by itself is passed over. -/
theorem substitutionTail_plain (hc : c ∉ marksInCode)
    (hslash : c = '/' → ∀ d ∈ cs.head?, d ≠ '/' ∧ d ≠ '*') :
    substitutionTail remaining braces outer (c :: cs) =
      substitutionTail remaining braces outer cs := by
  cases hblank : Text.isBlank c with
  | true => exact substitutionTail_congr (triviaTail_blank hblank)
  | false =>
    have hself : triviaTail (c :: cs) = .ok (c :: cs) := by
      refine triviaTail_eq_self_iff.mpr ⟨hblank, ?_⟩
      rintro ⟨rfl, hhead | hhead⟩
      · exact (hslash rfl _ hhead).1 rfl
      · exact (hslash rfl _ hhead).2 rfl
    simp only [marksInCode, List.mem_cons, List.not_mem_nil, or_false, not_or] at hc
    obtain ⟨hopen, hclose, hdouble, hsingle, htick⟩ := hc
    rw [substitutionTail_eq hself, if_neg hopen, if_neg hclose,
      if_neg (not_or.mpr ⟨hdouble, hsingle⟩), if_neg htick]

/-- What is complete is passed over, whatever follows the next character. -/
theorem PassedOver.substitutionTail_append (h : PassedOver next text) (remaining braces : Nat)
    (outer : List TemplateLevel) (w : List Char) :
    substitutionTail remaining braces outer (text ++ next :: w) =
      substitutionTail remaining braces outer (next :: w) := by
  induction h generalizing braces w with
  | nil => rfl
  | @plain next c cs hc hslash _ ih =>
    rw [List.cons_append, substitutionTail_plain hc, ih]
    intro hc d hd
    obtain rfl : cs.headD next = d := by cases cs <;> simpa using hd
    exact hslash hc
  | comment hbody _ ih =>
    simp only [List.cons_append, List.append_assoc]
    rw [substitutionTail_congr (triviaTail_comment (commentTail_append hbody _)), ih]
  | @string next quote body cs hquote hbody _ ih =>
    have hmark : quote ∈ marksInCode := by rcases hquote with rfl | rfl <;> decide
    have hplain : quote ≠ '\x7b' ∧ quote ≠ '\x7d' ∧ quote ≠ '\\' := by
      rcases hquote with rfl | rfl <;> decide
    rw [List.cons_append, List.append_assoc, substitutionTail_eq (triviaTail_mark hmark _),
      if_neg hplain.1, if_neg hplain.2.1, if_pos hquote, stringTail_append hplain.2.2 hbody]
    exact ih braces w
  | template hbody _ ih =>
    rw [List.cons_append, List.append_assoc, substitutionTail_eq (triviaTail_mark (by decide) _),
      if_neg (by decide), if_neg (by decide), if_neg (by decide), if_pos rfl,
      templateTail_within hbody, ih]
  | braces _ _ ihInner ih =>
    rw [List.cons_append, List.append_assoc, List.cons_append, substitutionTail_open, ihInner,
      substitutionTail_close, ih]

/-! ## Tokens are passed over -/

/-- A character that stands by itself, whatever stands behind it. -/
def isPlainInCode (c : Char) : Bool := !('/' :: marksInCode).contains c

/-- Characters that stand by themselves are passed over. -/
theorem PassedOver.of_plain (h : text.all isPlainInCode = true) : PassedOver next text := by
  induction text with
  | nil => exact .nil
  | cons c cs ih =>
    rw [List.all_cons, Bool.and_eq_true] at h
    obtain ⟨hc, hcs⟩ := h
    obtain ⟨hslash, hmark⟩ : c ≠ '/' ∧ c ∉ marksInCode := by simpa [isPlainInCode] using hc
    exact .plain hmark (fun h => absurd h hslash) (ih hcs)

/-- A character of a kind to which neither the slash nor a mark belongs stands by itself. -/
theorem isPlainInCode_of {p : Char → Bool} (hnone : ('/' :: marksInCode).any p = false)
    (h : p c = true) : isPlainInCode c = true := by
  rw [isPlainInCode, Bool.not_eq_true', List.contains_eq_mem, decide_eq_false_iff_not]
  exact fun hc => List.any_eq_false.mp hnone c hc h

theorem isPlainInCode_of_numberTail {hexadecimal : Bool} {previous : Char}
    (h : numberTail hexadecimal previous cs = []) : cs.all isPlainInCode = true := by
  induction cs generalizing previous with
  | nil => rfl
  | cons c cs ih =>
    rw [numberTail_cons] at h
    split at h
    · rename_i hc
      let p (c : Char) : Bool := c.isAlphanum || c == '_' || c == '.' || (c == '+' || c == '-')
      have hpart : p c = true := by
        simp only [continuesNumber, Bool.or_eq_true, Bool.and_eq_true] at hc
        simp only [p, Bool.or_eq_true]
        exact hc.imp_right fun hsign => hsign.1.1
      have hnone : ('/' :: marksInCode).any p = false := by decide
      rw [List.all_cons, isPlainInCode_of hnone hpart, ih h, Bool.and_self]
    · cases h

/-- A mark of the language is a brace, begins with a slash or consists of plain characters. -/
theorem plain_of_mem_punctuators : ∀ p ∈ punctuators, p = ['\x7b'] ∨ p = ['\x7d'] ∨ p = ['/'] ∨
    p = ['/', '='] ∨ p.all isPlainInCode = true := by
  decide

section

variable {c : Char} {rest behind : List Char} {earlier : List Token}

theorem PassedOver.of_word (hkind : leadingKind earlier c rest = .word)
    (hreads : rest.dropWhile isNamePart = []) : PassedOver next (c :: rest) := by
  have hc : isNameStart c = true := by
    unfold leadingKind at hkind
    split_ifs at hkind with hstart
    exact hstart
  have hstart : ('/' :: marksInCode).any isNameStart = false := by decide
  have hpart : ('/' :: marksInCode).any isNamePart = false := by decide
  have hrest : rest.all isPlainInCode = true := List.all_eq_true.mpr fun d hd =>
    isPlainInCode_of hpart (List.dropWhile_eq_nil_iff.mp hreads d hd)
  exact .of_plain (by rw [List.all_cons, isPlainInCode_of hstart hc, hrest, Bool.and_self])

theorem PassedOver.of_number (hkind : leadingKind earlier c rest = .number)
    {hexadecimal : Bool} {previous : Char} (hreads : numberTail hexadecimal previous rest = []) :
    PassedOver next (c :: rest) := by
  let p (c : Char) : Bool := c.isDigit || c == '.'
  have hc : p c = true := by
    unfold leadingKind at hkind
    split_ifs at hkind with _ hdigit
    simp only [p, Bool.or_eq_true, Bool.and_eq_true] at hdigit ⊢
    exact hdigit.imp_right And.left
  have hnone : ('/' :: marksInCode).any p = false := by decide
  have hrest : rest.all isPlainInCode = true := isPlainInCode_of_numberTail hreads
  exact .of_plain (by rw [List.all_cons, isPlainInCode_of hnone hc, hrest, Bool.and_self])

/-- A mark that is no brace is passed over. A slash that stands alone is, as no comment begins with
it and the character behind it. -/
theorem PassedOver.of_punctuator {n : Nat} (hn : punctuatorLength (c :: rest) = some n)
    (hdrop : rest.drop (n - 1) = []) (hopen : c :: rest ≠ ['\x7b']) (hclose : c :: rest ≠ ['\x7d'])
    (hslash : c :: rest = ['/'] → ∀ d ∈ behind.head?, d ≠ '/' ∧ d ≠ '*') :
    PassedOver (behind.headD '\n') (c :: rest) := by
  obtain ⟨hpos, hle⟩ := punctuatorLength_bounds hn
  have hlength := List.drop_eq_nil_iff.mp hdrop
  have hmem := take_punctuatorLength hn
  rw [List.take_of_length_le (by rw [List.length_cons]; omega)] at hmem
  obtain hp | hp | hp | hp | hp := plain_of_mem_punctuators _ hmem
  · exact absurd hp hopen
  · exact absurd hp hclose
  · have halone := hslash hp
    rw [hp]
    refine .plain (by decide) (fun _ => ?_) .nil
    cases behind with
    | nil => exact ⟨by decide, by decide⟩
    | cons d behind => exact halone d rfl
  · rw [hp]
    have hequals : ('=' : Char) ≠ '/' ∧ ('=' : Char) ≠ '*' := by decide
    exact .plain (by decide) (fun _ => hequals) (.of_plain (by decide))
  · exact .of_plain hp

end

/-- A token that is neither a brace nor a regular expression is passed over. -/
theorem Token.Formed.passedOver {t : Token} {behind : List Char} (ht : t.Formed)
    (hends : t.EndsBefore behind) (hopen : t.text.toList ≠ ['\x7b'])
    (hclose : t.text.toList ≠ ['\x7d']) (hregex : t.kind ≠ .regex) :
    PassedOver (behind.headD '\n') t.text.toList := by
  obtain ⟨c, rest, earlier, htext, -, hread⟩ := ht
  obtain ⟨hkind, hreads⟩ := tokenTail_eq_ok_iff.mp hread
  rw [Token.EndsBefore] at hends
  rw [htext] at hopen hclose hends ⊢
  generalize t.kind = kind at hkind hreads hends hregex
  cases kind with
  | word => exact .of_word hkind hreads
  | number => exact .of_number hkind hreads
  | string =>
    have hc : c = '"' ∨ c = '\'' := by
      unfold leadingKind at hkind
      split_ifs at hkind with _ _ hquote
      exact hquote
    have hwhole : PassedOver (behind.headD '\n') (c :: (rest ++ [])) := .string hc hreads .nil
    rwa [List.append_nil] at hwhole
  | template =>
    have hc : c = '\x60' := by
      unfold leadingKind at hkind
      split_ifs at hkind with _ _ _ htick
      exact htick
    have hwhole : PassedOver (behind.headD '\n') ('\x60' :: (rest ++ [])) := .template hreads .nil
    rwa [List.append_nil, ← hc] at hwhole
  | regex => exact absurd rfl hregex
  | punctuator =>
    obtain ⟨n, hn, hdrop⟩ := hreads
    exact .of_punctuator hn hdrop hopen hclose hends.2.2
  | finish => exact hreads.elim

/-- A token is passed over in front of some characters, and its brace is counted. -/
def Token.Skipped (t : Token) (behind : List Char) : Prop :=
  ∀ remaining braces outer,
    substitutionTail remaining (braces + (t.is "\x7d").toNat) outer (t.characters ++ behind) =
      substitutionTail remaining (braces + (t.is "\x7b").toNat) outer behind

/-- What stands in front of a token is passed over. -/
theorem substitutionTail_leading {t : Token} (h : Trivia t.leading.toList) (behind : List Char) :
    substitutionTail remaining braces outer (t.characters ++ behind) =
      substitutionTail remaining braces outer (t.text.toList ++ behind) := by
  rw [Token.characters, List.append_assoc]
  exact substitutionTail_congr (h.triviaTail_append _)

/-- A brace stands alone, and is a mark of the language. -/
theorem Token.Formed.kind_of_brace {t : Token} (ht : t.Formed)
    (htext : t.text.toList = ['\x7b'] ∨ t.text.toList = ['\x7d']) : t.kind = .punctuator := by
  obtain ⟨c, rest, earlier, hcs, -, hread⟩ := ht
  obtain ⟨hkind, -⟩ := tokenTail_eq_ok_iff.mp hread
  have hopen : isNameStart '\x7b' = false := by decide
  have hclose : isNameStart '\x7d' = false := by decide
  rw [hcs] at htext
  rcases htext with htext | htext <;> obtain ⟨rfl, rfl⟩ := List.cons.inj htext <;>
    simpa [leadingKind, hopen, hclose] using hkind.symm

/-- A token is passed over where it is read, unless it is a regular expression that is not. -/
theorem Token.Formed.skipped {t : Token} {behind : List Char} (ht : t.Formed)
    (hleading : Trivia t.leading.toList) (hends : t.EndsBefore behind)
    (hregex : t.kind = .regex → PassedOver (behind.headD '\n') t.text.toList) (w : List Char) :
    t.Skipped (behind ++ '\n' :: w) := by
  intro remaining braces outer
  rw [substitutionTail_leading hleading]
  by_cases hopen : t.text = "\x7b"
  · have hkind := ht.kind_of_brace (.inl (by rw [hopen]; rfl))
    have his : t.is "\x7b" = true ∧ t.is "\x7d" = false := by simp [Token.is, hkind, hopen]
    rw [his.1, his.2, hopen]
    exact substitutionTail_open _
  by_cases hclose : t.text = "\x7d"
  · have hkind := ht.kind_of_brace (.inr (by rw [hclose]; rfl))
    have his : t.is "\x7b" = false ∧ t.is "\x7d" = true := by simp [Token.is, hkind, hclose]
    rw [his.1, his.2, hclose]
    exact substitutionTail_close _
  have his : t.is "\x7b" = false ∧ t.is "\x7d" = false := by simp [Token.is, hopen, hclose]
  have hpassed : PassedOver (behind.headD '\n') t.text.toList := by
    by_cases hkind : t.kind = .regex
    · exact hregex hkind
    · exact ht.passedOver hends (fun h => hopen (String.toList_injective h))
        (fun h => hclose (String.toList_injective h)) hkind
  rw [his.1, his.2]
  cases behind with
  | nil => exact hpassed.substitutionTail_append _ _ _ _
  | cons d behind => exact hpassed.substitutionTail_append _ _ _ _

/-- The end of the source is passed over. -/
theorem Token.skipped_finish {t : Token} (hkind : t.kind = .finish) (htext : t.text = "")
    (hleading : triviaTail t.leading.toList = .ok []) (w : List Char) :
    t.Skipped ('\n' :: w) := by
  intro remaining braces outer
  have his : t.is "\x7b" = false ∧ t.is "\x7d" = false := by simp [Token.is, hkind]
  rw [his.1, his.2, Token.characters, htext]
  refine substitutionTail_congr ?_
  simp only [String.toList_empty, List.append_nil]
  rw [triviaTail_append_feed hleading, triviaTail_blank (by decide)]

variable {ts : List Token} {w : List Char}

/-- Balanced tokens that are passed over one by one are passed over, and leave the braces that are
open as they are. -/
theorem Balanced.substitutionTail_append (h : Balanced ts)
    (hskip : ∀ t behind, t :: behind <:+ ts → t.Skipped (charactersOf behind ++ w))
    (remaining braces : Nat) (outer : List TemplateLevel) :
    substitutionTail remaining braces outer (charactersOf ts ++ w) =
      substitutionTail remaining braces outer w := by
  induction h generalizing braces w with
  | nil => rfl
  | @other t ts hopen hclose _ ih =>
    have ht := hskip t ts List.suffix_rfl remaining braces outer
    rw [(Token.opens?_eq_none_iff.mp hopen).2.2, (Token.closes?_eq_none_iff.mp hclose).2.2] at ht
    have hts := ih (fun u behind hu => hskip u behind (hu.trans (List.suffix_cons t ts))) braces
    rw [charactersOf, List.flatMap_cons, List.append_assoc]
    exact ht.trans hts
  | @group first last inner ts shape hopen hclose _ _ ihInner ih =>
    have hbraces : first.is "\x7d" = false ∧ last.is "\x7b" = false ∧
        last.is "\x7d" = first.is "\x7b" := by
      simp only [Token.is_of_opens? hopen, Token.is_of_closes? hclose]
      cases shape <;> decide
    have hsplit : charactersOf (first :: (inner ++ last :: ts)) ++ w = first.characters ++
        (charactersOf inner ++ (last.characters ++ (charactersOf ts ++ w))) := by
      simp [charactersOf]
    have hlastSuffix : last :: ts <:+ first :: (inner ++ last :: ts) :=
      (List.suffix_append inner _).trans (List.suffix_cons first _)
    have hfirst := hskip first _ List.suffix_rfl remaining braces outer
    have hlast := hskip last ts hlastSuffix remaining braces outer
    have hinner := ihInner (w := last.characters ++ (charactersOf ts ++ w)) (fun t behind ht => ?_)
      (braces + (first.is "\x7b").toNat)
    have hts := ih (fun t behind ht =>
      hskip t behind (ht.trans ((List.suffix_cons last ts).trans hlastSuffix))) braces
    · rw [hbraces.1] at hfirst
      rw [hbraces.2.1, hbraces.2.2] at hlast
      calc
        _ = substitutionTail remaining (braces + (first.is "\x7b").toNat) outer
              (charactersOf inner ++ (last.characters ++ (charactersOf ts ++ w))) := by
            rw [hsplit]
            simpa [charactersOf] using hfirst
        _ = substitutionTail remaining (braces + (first.is "\x7b").toNat) outer
              (last.characters ++ (charactersOf ts ++ w)) := hinner
        _ = substitutionTail remaining braces outer (charactersOf ts ++ w) := hlast
        _ = _ := hts
    · obtain ⟨front, rfl⟩ := ht
      have hu := hskip t (behind ++ last :: ts) ⟨first :: front, by simp⟩
      simpa [charactersOf] using hu

/-! ## A source in a substitution -/

/-- The regular expressions among tokens can be passed over as code. -/
def RegexesPassedOver (ts : List Token) : Prop :=
  ∀ t behind, t :: behind <:+ ts → t.kind = .regex →
    PassedOver ((charactersOf behind).headD '\n') t.text.toList

theorem regexesPassedOver_nil : RegexesPassedOver [] := fun _ _ h => by simp at h

theorem regexesPassedOver_cons_iff {t : Token} : RegexesPassedOver (t :: ts) ↔
    (t.kind = .regex → PassedOver ((charactersOf ts).headD '\n') t.text.toList) ∧
      RegexesPassedOver ts := by
  constructor
  · intro h
    exact ⟨h t ts List.suffix_rfl, fun u behind hu => h u behind (hu.trans (List.suffix_cons t ts))⟩
  · rintro ⟨ht, hts⟩ u behind hu
    obtain heq | htail := List.suffix_cons_iff.mp hu
    · obtain ⟨rfl, rfl⟩ := List.cons.inj heq
      exact ht
    · exact hts u behind htail

/-- Tokens that are read one behind the other are passed over one by one. -/
theorem ReadsOn.skipped {earlier : List Token} {t : Token} (h : ReadsOn earlier (t :: ts))
    (hspaced : t.Spaced) (hregex : RegexesPassedOver (t :: ts)) (w : List Char) :
    ∀ u behind, u :: behind <:+ t :: ts → u.Skipped (charactersOf behind ++ '\n' :: w) := by
  generalize hall : t :: ts = all at h hregex
  induction h generalizing t ts with
  | @finish _ t hkind htext =>
    obtain ⟨rfl, rfl⟩ := List.cons.inj hall
    intro u behind hu
    obtain heq | hnil := List.suffix_cons_iff.mp hu
    · obtain ⟨rfl, rfl⟩ := List.cons.inj heq
      rw [Token.Spaced, if_pos hkind] at hspaced
      exact Token.skipped_finish hkind htext hspaced w
    · cases List.suffix_nil.mp hnil
  | @token _ t next ts hformed hends _ hnext _ ih =>
    obtain ⟨rfl, rfl⟩ := List.cons.inj hall
    intro u behind hu
    obtain heq | htail := List.suffix_cons_iff.mp hu
    · obtain ⟨rfl, rfl⟩ := List.cons.inj heq
      rw [Token.Spaced, if_neg hformed.kind_ne_finish] at hspaced
      exact hformed.skipped hspaced hends (regexesPassedOver_cons_iff.mp hregex).1 w
    · exact ih hnext rfl (regexesPassedOver_cons_iff.mp hregex).2 u behind htail

/-- In front of the first token of a source that begins with no `#!` stands what may stand in
front of any token. -/
theorem TokensOf.spaced {source : List Char} {t : Token} (h : TokensOf source t ts)
    (hmark : ¬ ['#', '!'] <+: source) : t.Spaced := by
  have hleading : ¬ ['#', '!'] <+: t.leading.toList := by
    intro hstart
    refine hmark (hstart.trans ?_)
    rw [← h.characters, charactersOf_cons]
    exact List.prefix_append _ _
  have hhead := h.head
  unfold Token.HeadSpaced at hhead
  unfold Token.Spaced
  split at hhead
  · rw [headTail_eq_triviaTail hleading] at hhead
    rwa [if_pos ‹_›]
  · rw [if_neg ‹_›]
    generalize t.leading.toList = leading at hhead hleading
    cases hhead with
    | plain hfront => exact hfront
    | line => exact absurd (List.prefix_append ['#', '!'] _) hleading

/-- A source is passed over in a substitution, if its regular expressions are. -/
theorem substitutionTail_source {source : String} {table : TokenTable}
    (h : tokenize source = .ok table) (hmark : ¬ ['#', '!'] <+: source.toList)
    (hregex : RegexesPassedOver table.tokens.toList) (remaining braces : Nat)
    (outer : List TemplateLevel) (w : List Char) :
    substitutionTail remaining braces outer (source.toList ++ '\n' :: w) =
      substitutionTail remaining braces outer ('\n' :: w) := by
  obtain ⟨hread, hbalanced⟩ := exists_tokenize_iff.mp ⟨table, h, rfl⟩
  obtain ⟨t, ts, heq, htokens⟩ := readTokens_eq_iff.mp hread
  rw [heq] at hbalanced hregex
  have hskip := htokens.reads.skipped (htokens.spaced hmark) hregex w
  rw [← htokens.characters]
  exact hbalanced.substitutionTail_append hskip remaining braces outer

/-- A template literal with a source in its only substitution. -/
def templateAround (source : String) : String := "\x60$\x7b" ++ source ++ "\n\x7d\x60"

theorem toList_templateAround (source : String) : (templateAround source).toList =
    '\x60' :: '$' :: '\x7b' :: (source.toList ++ '\n' :: '\x7d' :: ['\x60']) := by
  simp [templateAround]

/-- A template literal that is the whole source is its only token. -/
theorem tokenize_template {source : String} {body : List Char}
    (hsource : source.toList = '\x60' :: body)
    (hbody : templateTail (body.length + 1) [] body = .ok []) :
    tokenize source =
      .ok ⟨#[⟨.template, "", source, 0⟩, ⟨.finish, "", "", source.length⟩], #[none, none]⟩ := by
  have hread : tokenTail [] '\x60' (body ++ []) = .ok (.template, []) := by
    rw [List.append_nil]
    refine tokenTail_eq_ok_iff.mpr ⟨?_, hbody⟩
    have hstart : isNameStart '\x60' = false := by decide
    simp [leadingKind, hstart]
  have hhead : headTail source.toList = .ok ('\x60' :: body) := by
    rw [hsource, headTail, triviaTail_mark (by decide)]
    simp
  have hnext : triviaTail [] = .ok [] := by rw [triviaTail]
  have hfrom := @readFrom_token [] 0 .template [] body [] [] '\x60' hread hnext
  refine tokenize_eq_ok_iff.mpr ⟨?_, ⟨_, []⟩, ?_, rfl, rfl⟩
  · rw [List.nil_append, List.append_nil] at hfrom
    rw [readTokens, hhead, hsource]
    simp only [hfrom, readFrom_nil]
    simp [← hsource, String.length_toList]
  · simp [Pairing.takeAll, Pairing.take, Token.opens?, Token.closes?, Token.is]
    rfl

/-- A source whose regular expressions can be passed over as code makes one template literal when
it is put in a substitution. -/
theorem tokenize_templateAround {source : String} {table : TokenTable}
    (h : tokenize source = .ok table) (hmark : ¬ ['#', '!'] <+: source.toList)
    (hregex : RegexesPassedOver table.tokens.toList) :
    tokenize (templateAround source) =
      .ok ⟨#[⟨.template, "", templateAround source, 0⟩,
        ⟨.finish, "", "", (templateAround source).length⟩], #[none, none]⟩ := by
  refine tokenize_template (toList_templateAround source) ?_
  rw [templateTail, substitutionTail_source h hmark hregex,
    substitutionTail_congr (triviaTail_blank (by decide)),
    substitutionTail_eq (triviaTail_mark (by decide) _), if_neg (by decide), if_pos rfl,
    templateTail]

/-- A call with a regular expression that repeats a letter, and with a template literal. -/
theorem tokenize_templateAround_call :
    let call := "f(/a\x7b2\x7d/, \x60b\x60)"
    (∃ table, tokenize call = .ok table ∧ RegexesPassedOver table.tokens.toList) ∧
      ¬ ['#', '!'] <+: call.toList ∧
      templateAround call = "\x60$\x7bf(/a\x7b2\x7d/, \x60b\x60)\n\x7d\x60" ∧
      tokenize (templateAround call) =
        .ok ⟨#[⟨.template, "", templateAround call, 0⟩,
          ⟨.finish, "", "", (templateAround call).length⟩], #[none, none]⟩ := by
  intro call
  let table : TokenTable := ⟨#[⟨.word, "", "f", 0⟩, ⟨.punctuator, "", "(", 1⟩,
    ⟨.regex, "", "/a\x7b2\x7d/", 2⟩, ⟨.punctuator, "", ",", 8⟩, ⟨.template, " ", "\x60b\x60", 10⟩,
    ⟨.punctuator, "", ")", 13⟩, ⟨.finish, "", "", 14⟩],
    #[none, some 5, none, none, none, some 1, none]⟩
  have htable : tokenize call = .ok table := by decide +kernel
  have hmark : ¬ ['#', '!'] <+: call.toList := by decide +kernel
  have hpassed : PassedOver ',' "/a\x7b2\x7d/".toList := by
    have hslash : PassedOver ',' ['/'] := .plain (by decide) (by decide) .nil
    have hdigit : PassedOver '\x7d' ['2'] := .of_plain (by decide)
    exact .plain (by decide) (by decide) (.plain (by decide) (by decide) (.braces hdigit hslash))
  have hregex : RegexesPassedOver table.tokens.toList := by
    simp only [table, regexesPassedOver_cons_iff]
    exact ⟨nofun, nofun, fun _ => hpassed, nofun, nofun, nofun, nofun, regexesPassedOver_nil⟩
  exact ⟨⟨table, htable, hregex⟩, hmark, by decide +kernel,
    tokenize_templateAround htable hmark hregex⟩

/-- A quote in a regular expression opens a string when the regular expression stands in a
substitution. -/
theorem templateAround_quote_refused :
    (tokenize "/\"/").toOption.isSome = true ∧ ¬ ['#', '!'] <+: "/\"/".toList ∧
      tokenize "\x60$\x7b/\"/\n\x7d\x60" = .error ⟨.unterminatedString, 4⟩ := by
  decide +kernel

end Workflow.Script
