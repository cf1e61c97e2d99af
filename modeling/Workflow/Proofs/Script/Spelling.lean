import Workflow.Proofs.Script.Template

/-!
# How a token is spelled

Which scanner reads a token is decided by its first character, except that a point may
start a number and a slash may start a regular expression. What a scanner reads depends
on what follows in one way only: the characters behind the token may lengthen it. So a
token that is read as a whole when it stands alone is read as that token in front of
other characters exactly if these do not lengthen it.
-/

namespace Workflow.Script

variable {c : Char} {rest behind after : List Char} {earlier : List Token}

/-- The kind of the token that starts with the given characters. -/
def leadingKind (earlier : List Token) (c : Char) (rest : List Char) : TokenKind :=
  if isNameStart c then .word
  else if c.isDigit || (c == '.' && rest.head?.any Char.isDigit) then .number
  else if c = '"' ∨ c = '\'' then .string
  else if c = '\x60' then .template
  else if c = '/' && regexAllowed earlier then .regex
  else .punctuator

/-- Whether a number is written with hexadecimal digits. -/
def isHexadecimal : List Char → Bool
  | [] => false
  | c :: rest => c == '0' && rest.head?.any fun x => x == 'x' || x == 'X'

/-- Whether a character continues a number whose last character is given. -/
def continuesNumber (hexadecimal : Bool) (previous c : Char) : Bool :=
  c.isAlphanum || c == '_' || c == '.' ||
    ((c == '+' || c == '-') && (previous == 'e' || previous == 'E') && !hexadecimal)

/-- The characters of a token of a known kind, of which the first is given, up to
`after`. -/
def TokenKind.Reads (c : Char) (rest after : List Char) : TokenKind → Prop
  | .word => rest.dropWhile isNamePart = after
  | .number => numberTail (isHexadecimal (c :: rest)) c rest = after
  | .string => stringTail c rest = some after
  | .template => templateTail (rest.length + 1) [] rest = .ok after
  | .regex => regexTail false rest = some after
  | .punctuator => ∃ n, punctuatorLength (c :: rest) = some n ∧ rest.drop (n - 1) = after
  | .finish => False

/-- A token is read by the scanner that its first character selects. -/
theorem tokenTail_eq_ok_iff {kind : TokenKind} : tokenTail earlier c rest = .ok (kind, after) ↔
    leadingKind earlier c rest = kind ∧ kind.Reads c rest after := by
  have hsplit : ∀ {selected : TokenKind},
      (selected = kind ∧ kind.Reads c rest after) ↔
        (selected = kind ∧ selected.Reads c rest after) :=
    fun {_} => and_congr_right fun h => by rw [h]
  rw [hsplit]
  unfold tokenTail leadingKind
  split
  · simp [TokenKind.Reads]
  · split
    · simp [TokenKind.Reads, isHexadecimal]
    · split
      · cases hs : stringTail c rest <;> simp [TokenKind.Reads, hs]
      · split
        · cases ht : templateTail (rest.length + 1) [] rest <;>
            simp [TokenKind.Reads, ht, Except.map]
        · split
          · cases hr : regexTail false rest <;> simp [TokenKind.Reads, hr]
          · cases hp : punctuatorLength (c :: rest) <;> simp [TokenKind.Reads, hp]

/-- Which scanner reads a token depends on what follows only behind a point, and on what
stands before it only for a slash. -/
theorem leadingKind_append_iff {kind : TokenKind} {before : List Token}
    (h : leadingKind before c rest = kind) :
    leadingKind earlier c (rest ++ behind) = kind ↔
      (c = '.' → rest = [] → ∀ d ∈ behind.head?, d.isDigit = false) ∧
      (c = '/' → (regexAllowed earlier = true ↔ kind = .regex)) := by
  by_cases hpoint : c = '.'
  · subst hpoint
    have hstart : isNameStart '.' = false := by decide
    have hdigit : Char.isDigit '.' = false := by decide
    cases rest with
    | nil =>
      cases behind with
      | nil => simp_all [leadingKind]
      | cons d behind =>
        subst h
        by_cases hd : d.isDigit = true <;> simp [leadingKind, hstart, hdigit, hd]
    | cons d rest => simp_all [leadingKind]
  · by_cases hslash : c = '/'
    · subst hslash
      have hstart : isNameStart '/' = false := by decide
      have hdigit : Char.isDigit '/' = false := by decide
      subst h
      cases hearlier : regexAllowed earlier <;> cases hbefore : regexAllowed before <;>
        simp [leadingKind, hstart, hdigit, hearlier, hbefore]
    · subst h
      simp [leadingKind, hpoint, hslash]

theorem continuesNumber_of_isAlphanum {hexadecimal : Bool} {previous : Char}
    (h : c.isAlphanum = true) : continuesNumber hexadecimal previous c = true := by
  simp [continuesNumber, h]

theorem numberTail_cons {hexadecimal : Bool} {previous : Char} (c : Char) (rest : List Char) :
    numberTail hexadecimal previous (c :: rest) =
      if continuesNumber hexadecimal previous c then numberTail hexadecimal c rest
      else c :: rest := by
  rw [numberTail, continuesNumber]

/-- A number ends before the first character that does not continue it. -/
theorem numberTail_eq_self_iff {hexadecimal : Bool} {previous : Char} {cs : List Char} :
    numberTail hexadecimal previous cs = cs ↔
      ∀ c ∈ cs.head?, continuesNumber hexadecimal previous c = false := by
  cases cs with
  | nil => simp [numberTail]
  | cons c cs =>
    have hlength := length_numberTail_le hexadecimal c cs
    rw [numberTail_cons]
    split
    · rename_i hc
      have hne : numberTail hexadecimal c cs ≠ c :: cs := fun heq => by
        rw [heq, List.length_cons] at hlength
        omega
      simp [hne, hc]
    · rename_i hc
      simpa using hc

theorem dropWhile_eq_self_iff_head? {p : Char → Bool} {cs : List Char} :
    cs.dropWhile p = cs ↔ ∀ c ∈ cs.head?, p c = false := by
  cases cs with
  | nil => simp
  | cons c cs => simp [List.dropWhile_eq_self_iff]

/-- A punctuator holds at least one character and no more than there are. -/
theorem punctuatorLength_bounds {cs : List Char} {n : Nat} (h : punctuatorLength cs = some n) :
    1 ≤ n ∧ n ≤ cs.length := by
  have hlisted : ∀ {cs : List Char} {n : Nat},
      (punctuators.find? (·.isPrefixOf cs)).map List.length = some n → 1 ≤ n ∧ n ≤ cs.length := by
    intro cs n h
    obtain ⟨p, hp, rfl⟩ := Option.map_eq_some_iff.mp h
    have hmem := List.mem_of_find?_eq_some hp
    have hpos : ∀ q ∈ punctuators, 1 ≤ q.length := by decide
    refine ⟨hpos p hmem, ?_⟩
    have hprefix : p.isPrefixOf cs = true := by simpa using List.find?_some hp
    exact (List.isPrefixOf_iff_prefix.mp hprefix).length_le
  unfold punctuatorLength at h
  split at h
  · split at h
    · cases h
      simp
    · exact hlisted h
  · exact hlisted h

/-- What is read as a punctuator is listed. -/
theorem take_punctuatorLength {cs : List Char} {n : Nat} (h : punctuatorLength cs = some n) :
    cs.take n ∈ punctuators := by
  have hlisted : ∀ {cs : List Char} {n : Nat},
      (punctuators.find? (·.isPrefixOf cs)).map List.length = some n → cs.take n ∈ punctuators := by
    intro cs n h
    obtain ⟨p, hp, rfl⟩ := Option.map_eq_some_iff.mp h
    have hprefix : p.isPrefixOf cs = true := by simpa using List.find?_some hp
    rw [← List.prefix_iff_eq_take.mp (List.isPrefixOf_iff_prefix.mp hprefix)]
    exact List.mem_of_find?_eq_some hp
  unfold punctuatorLength at h
  split at h
  · split at h
    · cases h
      simp [punctuators]
    · exact hlisted h
  · exact hlisted h

/-- A listed punctuator is read as a whole when it stands alone. -/
theorem punctuatorLength_of_mem : ∀ p ∈ punctuators, punctuatorLength p = some p.length := by
  decide

/-- The characters behind a token of a known kind do not lengthen it, nor do they turn a
point into a number or a slash into a comment. -/
def TokenKind.Ends (text behind : List Char) : TokenKind → Prop
  | .word | .regex => ∀ c ∈ behind.head?, isNamePart c = false
  | .number => ∀ c ∈ behind.head?,
      continuesNumber (isHexadecimal text) (text.getLastD ' ') c = false
  | .punctuator => punctuatorLength (text ++ behind) = some text.length ∧
      (text = ['.'] → ∀ c ∈ behind.head?, c.isDigit = false) ∧
      (text = ['/'] → ∀ c ∈ behind.head?, c ≠ '/' ∧ c ≠ '*')
  | .string | .template | .finish => True

theorem isHexadecimal_append (c d : Char) (rest behind : List Char) :
    isHexadecimal (c :: d :: (rest ++ behind)) = isHexadecimal (c :: d :: rest) := rfl

/-- A number that is read as a whole when it stands alone is read in front of other
characters exactly if none continues it. -/
theorem numberTail_append_eq_iff (h : numberTail (isHexadecimal (c :: rest)) c rest = []) :
    numberTail (isHexadecimal (c :: (rest ++ behind))) c (rest ++ behind) = behind ↔
      ∀ d ∈ behind.head?,
        continuesNumber (isHexadecimal (c :: rest)) ((c :: rest).getLastD ' ') d = false := by
  cases rest with
  | nil =>
    rw [List.nil_append, numberTail_eq_self_iff]
    cases behind with
    | nil => simp
    | cons d behind =>
      cases hflag : isHexadecimal (c :: d :: behind) with
      | false => simp [isHexadecimal]
      | true =>
        have hletter : d = 'x' ∨ d = 'X' := by
          simp only [isHexadecimal, List.head?_cons, Option.any_some, Bool.and_eq_true,
            Bool.or_eq_true, beq_iff_eq] at hflag
          exact hflag.2
        have hd : d.isAlphanum = true := by
          rcases hletter with rfl | rfl <;> decide
        simp [continuesNumber_of_isAlphanum hd]
  | cons d rest =>
    rw [List.cons_append, isHexadecimal_append, ← List.cons_append, numberTail_append h,
      numberTail_eq_self_iff]
    simp only [List.getLastD_cons]

/-- A punctuator is read in front of other characters exactly if none makes it longer. -/
theorem drop_punctuatorLength_iff :
    (∃ n, punctuatorLength (c :: (rest ++ behind)) = some n ∧
      (rest ++ behind).drop (n - 1) = behind) ↔
      punctuatorLength (c :: (rest ++ behind)) = some (rest.length + 1) := by
  constructor
  · rintro ⟨n, hn, hdrop⟩
    obtain ⟨hpos, hle⟩ := punctuatorLength_bounds hn
    have hlength := congrArg List.length hdrop
    simp only [List.length_drop, List.length_append, List.length_cons] at hlength hle
    obtain rfl : n = rest.length + 1 := by omega
    exact hn
  · intro hn
    exact ⟨rest.length + 1, hn, List.drop_left⟩

/-- A text of a token is read as a whole when it stands alone, and begins with no white
space and no comment. -/
def Token.Formed (t : Token) : Prop := ∃ c rest earlier, t.text.toList = c :: rest ∧
  triviaTail (c :: rest) = .ok (c :: rest) ∧ tokenTail earlier c rest = .ok (t.kind, [])

/-- The characters behind a token do not change where it ends. -/
def Token.EndsBefore (t : Token) (behind : List Char) : Prop := t.kind.Ends t.text.toList behind

/-- A slash starts a regular expression exactly where the tokens before it allow one. -/
def Token.FitsBehind (t : Token) (earlier : List Token) : Prop :=
  t.text.toList.head? = some '/' → (regexAllowed earlier = true ↔ t.kind = .regex)

/-- A text goes on beginning with no comment if a lone slash at its end is not made one. -/
theorem triviaTail_append_eq_self_iff (h : triviaTail (c :: rest) = .ok (c :: rest)) :
    triviaTail (c :: (rest ++ behind)) = .ok (c :: (rest ++ behind)) ↔
      (c = '/' → rest = [] → ∀ d ∈ behind.head?, d ≠ '/' ∧ d ≠ '*') := by
  rw [triviaTail_eq_self_iff] at h ⊢
  obtain ⟨hblank, hcomment⟩ := h
  cases rest with
  | nil =>
    cases behind with
    | nil => simp [hblank]
    | cons d behind => simp [hblank]
  | cons d rest => simpa [hblank] using hcomment

/-- A token that is read as a whole when it stands alone is read in front of other
characters exactly if these neither lengthen it nor give its first character another
meaning. -/
private theorem TokenKind.reads_append_iff {kind : TokenKind} (h : kind.Reads c rest [])
    (hquote : kind = .string → c ≠ '\\')
    (hlone : c = '.' ∨ c = '/' → rest = [] → kind = .punctuator) :
    (kind.Reads c (rest ++ behind) behind ∧
        (c = '.' → rest = [] → ∀ d ∈ behind.head?, d.isDigit = false) ∧
        (c = '/' → rest = [] → ∀ d ∈ behind.head?, d ≠ '/' ∧ d ≠ '*')) ↔
      kind.Ends (c :: rest) behind := by
  have hother : kind ≠ .punctuator →
      ((c = '.' → rest = [] → ∀ d ∈ behind.head?, d.isDigit = false) ∧
        (c = '/' → rest = [] → ∀ d ∈ behind.head?, d ≠ '/' ∧ d ≠ '*')) := fun hne =>
    ⟨fun hc hrest => absurd (hlone (.inl hc) hrest) hne,
      fun hc hrest => absurd (hlone (.inr hc) hrest) hne⟩
  cases kind with
  | word =>
    rw [and_iff_left (hother (by decide))]
    simp only [Reads, Ends] at h ⊢
    rw [List.dropWhile_append_of_pos (List.dropWhile_eq_nil_iff.mp h), dropWhile_eq_self_iff_head?]
  | number =>
    rw [and_iff_left (hother (by decide))]
    exact numberTail_append_eq_iff h
  | string =>
    rw [and_iff_left (hother (by decide))]
    simp only [Reads, Ends] at h ⊢
    simp [stringTail_append (hquote rfl) h]
  | template =>
    rw [and_iff_left (hother (by decide))]
    simp only [Reads, Ends] at h ⊢
    simp [templateTail_append h]
  | regex =>
    rw [and_iff_left (hother (by decide))]
    simp only [Reads, Ends] at h ⊢
    rw [regexTail_append h, Option.some.injEq, dropWhile_eq_self_iff_head?]
  | punctuator =>
    simp only [Reads, Ends]
    rw [drop_punctuatorLength_iff]
    simp
  | finish => exact h.elim

/-- A well-formed token is read at a place of the source exactly if it ends before what
stands behind it and fits behind what stands before it. -/
theorem Token.Formed.reads_iff {t : Token} (ht : t.Formed) (htext : t.text.toList = c :: rest) :
    (tokenTail earlier c (rest ++ behind) = .ok (t.kind, behind) ∧
        triviaTail (c :: (rest ++ behind)) = .ok (c :: (rest ++ behind))) ↔
      t.EndsBefore behind ∧ t.FitsBehind earlier := by
  obtain ⟨c', rest', before, htext', hself, hread⟩ := ht
  rw [htext] at htext'
  obtain ⟨rfl, rfl⟩ := List.cons.inj htext'
  obtain ⟨hkind, hreads⟩ := tokenTail_eq_ok_iff.mp hread
  have hquote : t.kind = .string → c ≠ '\\' := by
    rintro hstring rfl
    have hstart : isNameStart '\\' = false := by decide
    have hdigit : Char.isDigit '\\' = false := by decide
    simp [leadingKind, hstart, hdigit, hstring] at hkind
  have hlone : c = '.' ∨ c = '/' → rest = [] → t.kind = .punctuator := by
    rintro (rfl | rfl) rfl
    · have hstart : isNameStart '.' = false := by decide
      have hdigit : Char.isDigit '.' = false := by decide
      simpa [leadingKind, hstart, hdigit] using hkind.symm
    · have hstart : isNameStart '/' = false := by decide
      have hdigit : Char.isDigit '/' = false := by decide
      cases hallowed : regexAllowed before with
      | false => simpa [leadingKind, hstart, hdigit, hallowed] using hkind.symm
      | true =>
        have hregex : t.kind = .regex := by
          simpa [leadingKind, hstart, hdigit, hallowed] using hkind.symm
        rw [hregex] at hreads
        cases hreads
  rw [tokenTail_eq_ok_iff, leadingKind_append_iff hkind, triviaTail_append_eq_self_iff hself,
    Token.EndsBefore, htext, ← TokenKind.reads_append_iff hreads hquote hlone, Token.FitsBehind,
    htext]
  simp only [List.head?_cons, Option.some.injEq]
  constructor
  · rintro ⟨⟨⟨hpoint, hslash⟩, hbehind⟩, hcomment⟩
    exact ⟨⟨hbehind, hpoint, hcomment⟩, hslash⟩
  · rintro ⟨⟨hbehind, hpoint, hcomment⟩, hslash⟩
    exact ⟨⟨⟨hpoint, hslash⟩, hbehind⟩, hcomment⟩

/-- What is read of a token is a token of its kind by itself. -/
private theorem TokenKind.Reads.exists_body {kind : TokenKind} (h : kind.Reads c rest after)
    (hquote : kind = .string → c ≠ '\\') :
    ∃ body, rest = body ++ after ∧ kind.Reads c body [] := by
  cases kind with
  | word =>
    refine ⟨rest.takeWhile isNamePart, ?_, ?_⟩
    · rw [← show rest.dropWhile isNamePart = after from h, List.takeWhile_append_dropWhile]
    · exact List.dropWhile_eq_nil_iff.mpr fun _ hx => List.mem_takeWhile_imp hx
  | number =>
    simp only [Reads] at h ⊢
    obtain ⟨body, heq, hbody⟩ := exists_body_of_numberTail (isHexadecimal (c :: rest)) c rest
    rw [h] at heq
    subst heq
    refine ⟨body, rfl, ?_⟩
    cases body with
    | nil => rfl
    | cons d body => exact hbody
  | string =>
    obtain ⟨body, heq, hbody⟩ := exists_body_of_stringTail (hquote rfl) h
    exact ⟨body, heq, by simpa [Reads] using hbody []⟩
  | template =>
    obtain ⟨body, heq, hbody⟩ := exists_body_of_templateTail h
    exact ⟨body, heq, by simpa [Reads] using hbody (body.length + 1) [] [] rfl⟩
  | regex =>
    obtain ⟨body, heq, hbody⟩ := exists_body_of_regexTail h
    exact ⟨body, heq, by simpa [Reads] using hbody []⟩
  | punctuator =>
    obtain ⟨n, hn, hdrop⟩ := h
    obtain ⟨hpos, hle⟩ := punctuatorLength_bounds hn
    have htake : (c :: rest).take n = c :: rest.take (n - 1) := by
      obtain ⟨m, rfl⟩ := Nat.exists_eq_add_of_le' hpos
      rfl
    refine ⟨rest.take (n - 1), ?_, n, ?_, ?_⟩
    · rw [← hdrop, List.take_append_drop]
    · rw [← htake, punctuatorLength_of_mem _ (take_punctuatorLength hn), List.length_take,
        Nat.min_eq_left hle]
    · rw [List.drop_take_self]
  | finish => exact h.elim

/-- What is read at a place of the source is the text of a well-formed token. -/
theorem exists_formed_of_tokenTail {kind : TokenKind}
    (hself : triviaTail (c :: rest) = .ok (c :: rest))
    (h : tokenTail earlier c rest = .ok (kind, after)) :
    ∃ body, rest = body ++ after ∧ ∀ t : Token, t.kind = kind → t.text.toList = c :: body →
      t.Formed := by
  obtain ⟨hkind, hreads⟩ := tokenTail_eq_ok_iff.mp h
  have hquote : kind = .string → c ≠ '\\' := by
    rintro hstring rfl
    have hstart : isNameStart '\\' = false := by decide
    have hdigit : Char.isDigit '\\' = false := by decide
    simp [leadingKind, hstart, hdigit, hstring] at hkind
  obtain ⟨body, rfl, hbody⟩ := hreads.exists_body hquote
  refine ⟨body, rfl, fun t ht htext => ⟨c, body, earlier, htext, ?_, ?_⟩⟩
  · rw [triviaTail_eq_self_iff] at hself ⊢
    obtain ⟨hblank, hcomment⟩ := hself
    cases body with
    | nil => simp [hblank]
    | cons d body => simpa [hblank] using hcomment
  · rw [tokenTail_eq_ok_iff, ht]
    refine ⟨?_, hbody⟩
    cases body with
    | cons d body => exact hkind
    | nil =>
      rw [List.nil_append] at hkind hreads
      have hdigit : (c == '.' && after.head?.any Char.isDigit) = false := by
        cases after with
        | nil => simp
        | cons d tail =>
          refine Bool.eq_false_iff.mpr fun hpoint => ?_
          obtain ⟨rfl, hd⟩ : c = '.' ∧ d.isDigit = true := by simpa using hpoint
          have hnumber : kind = .number := by
            rw [← hkind, leadingKind, if_neg (by decide), if_pos (by simp [hd])]
          rw [hnumber] at hreads
          have hstop := numberTail_eq_self_iff.mp hreads d rfl
          rw [continuesNumber_of_isAlphanum (by simp [Char.isAlphanum, hd])] at hstop
          cases hstop
      rw [leadingKind, hdigit] at hkind
      simpa [leadingKind] using hkind

end Workflow.Script
