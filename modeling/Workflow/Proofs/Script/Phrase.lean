import Workflow.Proofs.Script.Lexeme
import Workflow.Proofs.Script.Lookahead

/-!
# Names, literals, operators and lists as they are read

The parts that types, expressions and declarations are written with. Each part is read as
tokens of its sort, and a text stands at its end or behind a space.
-/

namespace Workflow.Script

/-- The characters that a type or an expression may be followed by. -/
def delimiters : List Char := [' ', ',', ')', ']', '\x7d', ';', '<', '>', '[', '(', ':', '?', '!']

def Delimits (c : Char) : Prop := c ∈ delimiters

/-- With and without a space in front, a text is read as tokens of the given sort. -/
def Phrase (text : String) (stops : Char → Prop) (P : List Token → Prop) : Prop :=
  ∀ lead, lead = "" ∨ lead = " " → Lexes (lead ++ text) stops P

variable {text front back : String} {stops stops' : Char → Prop} {P Q R : List Token → Prop}

/-- Texts that may stand one behind the other are read one behind the other. -/
theorem Lexes.join (h : Lexes front stops P) (h' : Lexes back stops' Q)
    (hjoin : ∀ c ∈ back.toList.head?, stops c) (hR : ∀ us vs, P us → Q vs → R (us ++ vs)) :
    Lexes (front ++ back) stops' R := by
  refine (h.append h' hjoin).mono ?_
  rintro _ ⟨us, vs, rfl, hus, hvs⟩
  exact hR us vs hus hvs

namespace Phrase

theorem plain (h : Phrase text stops P) : Lexes text stops P := by
  simpa using h "" (.inl rfl)

/-- A phrase is read behind a blank. -/
theorem spaced (h : Phrase text stops P) : Lexes (" " ++ text) stops P := h " " (.inr rfl)

/-- A phrase may be followed by a text that it stops at. -/
theorem join (h : Phrase front stops P) (h' : Lexes back stops' Q)
    (hjoin : ∀ c ∈ back.toList.head?, stops c) (hR : ∀ us vs, P us → Q vs → R (us ++ vs)) :
    Phrase (front ++ back) stops' R := by
  intro lead hlead
  rw [← String.append_assoc]
  exact (h lead hlead).join h' hjoin hR

/-- A phrase that is known less of stops at fewer characters. -/
theorem mono (h : Phrase text stops P) (hstops : ∀ c, stops' c → stops c)
    (hP : ∀ ts, P ts → Q ts) : Phrase text stops' Q :=
  fun lead hlead => ((h lead hlead).mono hP).stops_mono hstops

end Phrase

/-- A single operator or bracket. -/
def IsMarkToken (text : String) (ts : List Token) : Prop :=
  ∃ t, ts = [t] ∧ t.IsMark text ∧ t.startsLine = false

/-- A mark of the language is read in front of what does not go on with it. -/
theorem phrase_punctuator (text : String) (hmem : text.toList ∈ punctuators)
    (hslash : text.toList.head? ≠ some '/') (hpoint : text ≠ "?.") :
    Phrase text (StopsAt .punctuator text) (IsMarkToken text) := by
  intro lead hlead
  refine (lexes_punctuator hlead hmem hslash hpoint).mono ?_
  rintro _ ⟨t, rfl, hkind, htext, hline⟩
  exact ⟨t, rfl, ⟨hkind, htext⟩, hline⟩

/-- The punctuators that no longer one starts with. -/
def brackets : List String := ["(", ")", "[", "]", "\x7b", "\x7d", ",", ";", ":", ">"]

/-- A bracket is a mark, and goes on with nothing. -/
theorem listed_of_mem_brackets (h : text ∈ brackets) : text.toList ∈ punctuators ∧
    text.toList.head? ≠ some '/' ∧ text ≠ "?." ∧ ∀ c, StopsAt .punctuator text c := by
  have hlisted : ∀ text ∈ brackets, text.toList ∈ punctuators ∧
      text.toList.head? ≠ some '/' ∧ text ≠ "?." ∧ text ≠ "." ∧ continuations text.toList = [] := by
    decide
  obtain ⟨hmem, hslash, hquestion, hpoint, hnone⟩ := hlisted text h
  refine ⟨hmem, hslash, hquestion, fun c => ⟨?_, fun hdot => absurd hdot hpoint⟩⟩
  simp [hnone]

/-- A bracket is read whatever stands behind it. -/
theorem phrase_bracket (text : String) (h : text ∈ brackets) :
    Phrase text (fun _ => True) (IsMarkToken text) := by
  obtain ⟨hmem, hslash, hquestion, hstops⟩ := listed_of_mem_brackets h
  exact (phrase_punctuator text hmem hslash hquestion).mono (fun c _ => hstops c) fun _ => id

/-- The punctuators that stand in front of a space. -/
def operators : List String := [
  "|", "&", "=>", "=", "?", ":", "+", "-", "*", "&&", "||", "??", "==="]

/-- A punctuator that is read as a whole in front of a space. -/
theorem phrase_infix (text : String) (hmem : text.toList ∈ punctuators)
    (hhead : text.toList.head? ≠ some '/' ∧ text ≠ "?." ∧ text ≠ ".")
    (hspace : ' ' ∉ continuations text.toList) : Phrase text (· = ' ') (IsMarkToken text) := by
  obtain ⟨hslash, hquestion, hpoint⟩ := hhead
  refine (phrase_punctuator text hmem hslash hquestion).mono ?_ fun _ => id
  rintro c rfl
  exact ⟨hspace, fun hdot => absurd hdot hpoint⟩

/-- An operator is read in front of a blank. -/
theorem phrase_operator (text : String) (h : text ∈ operators) :
    Phrase text (· = ' ') (IsMarkToken text) := by
  have hlisted : ∀ text ∈ operators, text.toList ∈ punctuators ∧
      (text.toList.head? ≠ some '/' ∧ text ≠ "?." ∧ text ≠ ".") ∧
      ' ' ∉ continuations text.toList := by
    decide
  obtain ⟨hmem, hhead, hspace⟩ := hlisted text h
  exact phrase_infix text hmem hhead hspace

/-- No delimiter is part of a name. -/
theorem delimits_name {c : Char} (h : Delimits c ∨ c = '.') : isNamePart c = false := by
  rcases h with h | rfl
  · have hall : ∀ c ∈ delimiters, (!isNamePart c) = true := List.all_eq_true.mp (by decide)
    simpa using hall c h
  · decide

/-- No delimiter is part of a number. -/
theorem delimits_number {c : Char} (h : Delimits c) : StopsAt .number text c := by
  have hall : ∀ c ∈ delimiters,
      (!(c.isAlphanum || c == '_' || c == '.' || c == '+' || c == '-')) = true :=
    List.all_eq_true.mp (by decide)
  exact (Bool.not_eq_true' _).mp (hall c h)

theorem isDigit_of_isLetter {c : Char} (h : isLetter c = true) : c.isDigit = false := by
  refine Bool.eq_false_iff.mpr fun hdigit => ?_
  have hstart := isNameStart_of_isLetter h
  rw [isNameStart_of_isDigit hdigit] at hstart
  cases hstart

/-- A word is read up to what belongs to no name. -/
theorem phrase_letters {c : Char} {rest : List Char} (htext : text.toList = c :: rest)
    (hfirst : isLetter c = true) (hrest : ∀ d ∈ rest, isNamePart d = true) :
    Phrase text (fun d => isNamePart d = false) fun ts => ∃ t, ts = [t] ∧ t.IsWord text := by
  refine Phrase.mono (fun _ hlead => lexes_word hlead htext hfirst hrest) (fun _ => id) ?_
  rintro _ ⟨t, rfl, hkind, heq, -⟩
  exact ⟨t, rfl, hkind, heq⟩

/-- The reserved words that stand in front of a space. -/
def phraseWords : List String := [
  "keyof", "readonly", "typeof", "let", "const", "function", "return", "as", "class", "extends",
  "implements", "public", "private", "protected", "static"]

/-- A word of the language is read in front of a blank. -/
theorem phrase_word (text : String) (h : text ∈ phraseWords) :
    Phrase text (· = ' ') fun ts => ∃ t, ts = [t] ∧ t.IsWord text := by
  have hletters : ∀ text ∈ phraseWords, ∃ c rest, text.toList = c :: rest ∧ isLetter c = true ∧
      ∀ d ∈ rest, isNamePart d = true := by
    simp only [phraseWords, List.mem_cons, List.not_mem_nil, or_false]
    rintro _ (rfl | rfl | rfl | rfl | rfl | rfl | rfl | rfl | rfl | rfl | rfl | rfl | rfl |
      rfl | rfl)
    all_goals exact ⟨_, _, rfl, by decide, List.all_eq_true.mp (by decide)⟩
  obtain ⟨c, rest, htext, hfirst, hrest⟩ := hletters text h
  exact (phrase_letters htext hfirst hrest).mono (by rintro _ rfl; decide) fun _ => id

/-- A point stands in front of a name. -/
theorem phrase_point : Phrase "." (fun c => isLetter c = true) (IsMarkToken ".") := by
  refine (phrase_punctuator "." (by decide) (by decide) (by decide)).mono (fun c hc => ⟨?_, ?_⟩)
    fun _ => id
  · rw [show continuations ".".toList = ['.'] by decide, List.mem_singleton]
    rintro rfl
    cases hc
  · exact fun _ => isDigit_of_isLetter hc

/-- A plain name is read with its text. -/
theorem phrase_plainName (x : PlainName) : Phrase x.text (fun c => Delimits c ∨ c = '.')
    fun ts => ∃ t, ts = [t] ∧ t.IsName ∧ t.text = x.text := by
  refine Phrase.mono (fun _ hlead => PlainName.lexes hlead x) (fun _ hc => delimits_name hc) ?_
  rintro _ ⟨t, rfl, hkind, htext, -⟩
  exact ⟨t, rfl, ⟨hkind, x, htext⟩, htext⟩

/-- A name is read in front of a delimiter, or of the point of a member. -/
theorem phrase_name (x : PlainName) : Phrase x.text (fun c => Delimits c ∨ c = '.')
    fun ts => ∃ t, ts = [t] ∧ t.IsName := by
  refine (phrase_plainName x).mono (fun _ => id) ?_
  rintro _ ⟨t, rfl, ht, -⟩
  exact ⟨t, rfl, ht⟩

/-- A member is read as a point and a name. -/
theorem lexes_member (x : PlainName) : Lexes ("." ++ x.text) (fun c => Delimits c ∨ c = '.')
    fun ts => ∃ point name, ts = [point, name] ∧ point.IsMark "." ∧ name.IsName := by
  refine phrase_point.plain.join (phrase_name x).plain ?_ ?_
  · intro c hc
    rw [x.text_eq, List.head?_cons, Option.mem_some_iff] at hc
    exact hc ▸ x.first_isLetter
  · rintro _ _ ⟨point, rfl, hpoint, -⟩ ⟨name, rfl, hname⟩
    exact ⟨point, name, rfl, hpoint, hname⟩

/-- The tokens of a text, and behind them those of the members. -/
def WithMembers (P : List Token → Prop) (members : List PlainName) (ts : List Token) : Prop :=
  ∃ us vs, ts = us ++ vs ∧ P us ∧ Members vs ∧ (vs = [] ↔ members = [])

/-- A text in front of members. -/
theorem Phrase.members (h : Phrase text (fun c => Delimits c ∨ c = '.') P)
    (members : List PlainName) :
    Phrase (text ++ dotted members) Delimits (WithMembers P members) := by
  induction members generalizing text P with
  | nil =>
    rw [dotted, String.append_empty]
    exact h.mono (fun _ hc => .inl hc) fun ts hts => ⟨ts, [], by simp, hts, .nil, by simp⟩
  | cons x members ih =>
    have hjoined : Phrase (text ++ ("." ++ x.text)) (fun c => Delimits c ∨ c = '.') fun ts =>
        ∃ us point name, ts = us ++ [point, name] ∧ P us ∧ point.IsMark "." ∧ name.IsName := by
      refine h.join (lexes_member x) (by simp) ?_
      rintro us _ hus ⟨point, name, rfl, hpoint, hname⟩
      exact ⟨us, point, name, rfl, hus, hpoint, hname⟩
    rw [dotted, ← String.append_assoc]
    refine (ih hjoined).mono (fun _ => id) ?_
    rintro _ ⟨_, vs, rfl, ⟨us, point, name, rfl, hus, hpoint, hname⟩, hvs, -⟩
    exact ⟨us, point :: name :: vs, by simp, hus, .cons hpoint hname hvs, by simp⟩

/-- Texts, with a separator in front of each. -/
def following (separator : String) : List String → String
  | [] => ""
  | x :: xs => separator ++ x ++ following separator xs

/-- A list of texts is the first one and what follows it. -/
theorem intercalate_cons (separator x : String) (xs : List String) :
    separator.intercalate (x :: xs) = x ++ following separator xs := by
  induction xs generalizing x with
  | nil => simp [following]
  | cons y xs ih =>
    rw [String.intercalate_cons_cons, ih, following, String.append_assoc, String.append_assoc]

/-- The marks that close a list. -/
def closers : List String := [")", "]", "\x7d", ">", ";"]

/-- Tokens of the given sort with a closing bracket behind them. -/
def IsClosed (Q : List Token → Prop) (close : String) (ts : List Token) : Prop :=
  ∃ inner last, ts = inner ++ [last] ∧ Q inner ∧ last.IsMark close

section

variable {items : List String}

theorem phrase_close (close : String) (hclose : close ∈ closers) :
    Phrase close (fun _ => True) (IsMarkToken close) :=
  phrase_bracket close ((show ∀ text ∈ closers, text ∈ brackets by decide) close hclose)

/-- What closes a list is a delimiter. -/
theorem delimits_close (close : String) (hclose : close ∈ closers) :
    ∀ c ∈ close.toList.head?, Delimits c := by
  have hall : ∀ close ∈ closers,
      (close.toList.head?.all fun c => delimiters.contains c) = true := by
    decide
  intro c hc
  have h := hall close hclose
  rw [Option.mem_def.mp hc] at h
  exact List.contains_iff_mem.mp h

/-- Whatever follows an item begins with a delimiter. -/
theorem delimits_following (separator close : String) (hseparator : separator ∈ [",", ";"])
    (hclose : close ∈ closers) :
    ∀ c ∈ (following (separator ++ " ") items ++ close).toList.head?, Delimits c := by
  cases items with
  | nil => simpa [following] using delimits_close close hclose
  | cons x items =>
    simp only [List.mem_cons, List.not_mem_nil, or_false] at hseparator
    rcases hseparator with rfl | rfl
    all_goals
      simp [following, Delimits, delimiters]

/-- The rest of a list up to the bracket that closes it. -/
theorem lexes_following (separator close : String) (hseparator : separator ∈ [",", ";"])
    (hclose : close ∈ closers)
    (hitems : ∀ x ∈ items, Phrase x Delimits P) (hnil : Q [])
    (hcons : ∀ t us vs, t.IsMark separator → P us → Q vs → Q (t :: (us ++ vs))) :
    Lexes (following (separator ++ " ") items ++ close) (fun _ => True) (IsClosed Q close) := by
  induction items with
  | nil =>
    rw [following, String.empty_append]
    refine (phrase_close close hclose).plain.mono ?_
    rintro _ ⟨t, rfl, ht, -⟩
    exact ⟨[], t, rfl, hnil, ht⟩
  | cons x items ih =>
    have hrest := ih fun y hy => hitems y (List.mem_cons_of_mem _ hy)
    have hitem := (hitems x List.mem_cons_self).spaced
    have hmark : Phrase separator (fun _ => True) (IsMarkToken separator) :=
      phrase_bracket separator
        ((show ∀ text ∈ [",", ";"], text ∈ brackets by decide) separator hseparator)
    rw [following, show separator ++ " " ++ x ++ following (separator ++ " ") items ++ close =
      separator ++ (" " ++ x ++ (following (separator ++ " ") items ++ close)) by
        simp only [String.append_assoc]]
    have hbehind := hitem.append hrest (delimits_following separator close hseparator hclose)
    refine hmark.plain.join hbehind (by simp) ?_
    rintro _ _ ⟨t, rfl, ht, -⟩ ⟨us, vs, rfl, hus, inner, last, rfl, hinner, hlast⟩
    exact ⟨t :: (us ++ inner), last, by simp, hcons t us inner ht hus hinner, hlast⟩

/-- A list up to the bracket that closes it. -/
theorem lexes_intercalate (separator close : String) (hseparator : separator ∈ [",", ";"])
    (hclose : close ∈ closers) (hitems : ∀ x ∈ items, Phrase x Delimits P) (hempty : R [])
    (hnil : Q []) (hcons : ∀ t us vs, t.IsMark separator → P us → Q vs → Q (t :: (us ++ vs)))
    (happend : ∀ us vs, P us → Q vs → R (us ++ vs)) :
    Lexes ((separator ++ " ").intercalate items ++ close) (fun _ => True) (IsClosed R close) := by
  cases items with
  | nil =>
    refine (phrase_close close hclose).plain.mono ?_
    rintro _ ⟨last, rfl, hlast, -⟩
    exact ⟨[], last, rfl, hempty, hlast⟩
  | cons x items =>
    have hrest := lexes_following separator close hseparator hclose
      (fun y hy => hitems y (List.mem_cons_of_mem _ hy)) hnil hcons
    rw [intercalate_cons, String.append_assoc]
    refine (hitems x List.mem_cons_self).plain.join hrest
      (delimits_following separator close hseparator hclose) ?_
    rintro us _ hus ⟨inner, last, rfl, hinner, hlast⟩
    exact ⟨us ++ inner, last, by simp, happend us inner hus hinner, hlast⟩

end

/-- A mark with spaces around it, and what stands behind it. -/
theorem lexes_infixOperator (hmark : Phrase text (· = ' ') (IsMarkToken text))
    (h : Phrase back stops P) :
    Lexes (" " ++ text ++ " " ++ back) stops
      fun ts => ∃ t us, ts = t :: us ∧ t.IsMark text ∧ P us := by
  rw [String.append_assoc]
  refine hmark.spaced.join h.spaced (by simp) ?_
  rintro _ us ⟨t, rfl, ht, -⟩ hus
  exact ⟨t, us, rfl, ht, hus⟩

/-- An operator with blanks around it is read in front of its right side. -/
theorem lexes_operator (text : String) (hmem : text ∈ operators) (h : Phrase back stops P) :
    Lexes (" " ++ text ++ " " ++ back) stops
      fun ts => ∃ t us, ts = t :: us ∧ t.IsMark text ∧ P us :=
  lexes_infixOperator (phrase_operator text hmem) h

/-- A name with a colon, and what stands behind it. -/
theorem phrase_entry (x : PlainName) (h : Phrase text stops P) :
    Phrase (x.text ++ ": " ++ text) stops fun ts => ∃ name colon us,
      ts = name :: colon :: us ∧ name.IsName ∧ colon.IsMark ":" ∧ P us := by
  have hcolon : Lexes (":" ++ (" " ++ text)) stops
      fun ts => ∃ colon us, ts = colon :: us ∧ colon.IsMark ":" ∧ P us := by
    refine (phrase_bracket ":" (by decide)).plain.join h.spaced (by simp) ?_
    rintro _ us ⟨colon, rfl, hcolon, -⟩ hus
    exact ⟨colon, us, rfl, hcolon, hus⟩
  rw [show x.text ++ ": " ++ text = x.text ++ (":" ++ (" " ++ text)) by
    rw [show ": " = ":" ++ " " from rfl]
    simp only [String.append_assoc]]
  refine (phrase_name x).join hcolon (by simp [Delimits, delimiters]) ?_
  rintro _ _ ⟨name, rfl, hname⟩ ⟨colon, us, rfl, hcolon, hus⟩
  exact ⟨name, colon, us, rfl, hname, hcolon, hus⟩

/-- What stands between two brackets is put between their tokens. -/
theorem phrase_between (opening close : String) (hopening : opening ∈ brackets)
    (h : Lexes (text ++ close) (fun _ => True) (IsClosed Q close)) :
    Phrase (opening ++ text ++ close) (fun _ => True) fun ts => ∃ first inner last,
      ts = first :: (inner ++ [last]) ∧ first.IsMark opening ∧ first.startsLine = false ∧ Q inner ∧
        last.IsMark close := by
  rw [String.append_assoc]
  refine (phrase_bracket opening hopening).join h (by simp) ?_
  rintro _ _ ⟨first, rfl, hfirst, hline⟩ ⟨inner, last, rfl, hinner, hlast⟩
  exact ⟨first, inner, last, rfl, hfirst, hline, hinner, hlast⟩

/-- What may be followed by a closing bracket is read in front of it. -/
theorem lexes_closed (close : String) (hclose : close ∈ closers) (h : Phrase text Delimits Q) :
    Lexes (text ++ close) (fun _ => True) (IsClosed Q close) := by
  refine h.plain.join (phrase_close close hclose).plain (delimits_close close hclose) ?_
  rintro us _ hus ⟨last, rfl, hlast, -⟩
  exact ⟨us, last, rfl, hus, hlast⟩

/-- A number is read in front of a delimiter. -/
theorem phrase_number (n : NumberLiteral) : Phrase n.text Delimits (IsToken .number n.text) :=
  Phrase.mono (fun _ hlead => lexes_number hlead String.toList_ofList n.first_isDigit
    n.numberTail_eq_nil) (fun _ hc => delimits_number hc) fun _ => id

/-- A string is read whatever stands behind it. -/
theorem phrase_string (s : StringLiteral) :
    Phrase s.text (fun _ => True) (IsToken .string s.text) :=
  fun _ hlead => lexes_string hlead s

end Workflow.Script
