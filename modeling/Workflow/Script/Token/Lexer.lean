import Workflow.Script.Fault
import Workflow.Script.Token
import Workflow.Text.Blank
import Workflow.Text.Letter
import Workflow.Text.Numeral

/-!
# Reading tokens

Each scanner takes the characters from a place on and answers with what is left
behind the literal, comment or name it reads; the lexer cuts the text of a token
out as the part in between. Every scanner leaves a proper tail of what it was
given, so reading ends, and a source is the concatenation of its tokens.

A slash starts a regular expression unless the tokens before it end an operand.
-/

namespace Workflow.Script

/-- A fault met while reading characters. -/
structure LexicalFault where
  /-- Why the source is refused. -/
  cause : Cause
  /-- The number of characters from the fault to the end of the source. -/
  remaining : Nat
  deriving DecidableEq, Repr

/-- Whether a character may start a name. -/
def isNameStart (c : Char) : Bool :=
  Text.isAlphabetic c || c == '_' || c == '$' || c == '#'

/-- Whether a character may continue a name. -/
def isNamePart (c : Char) : Bool :=
  Text.isAlphabetic c || Text.isNumeral c || c == '_' || c == '$'

/-- What follows the current line, its line feed included. -/
def lineTail (cs : List Char) : List Char := cs.dropWhile (· != '\n')

/-- What follows a block comment whose opening has been read. -/
def commentTail : List Char → Option (List Char)
  | [] => none
  | c :: rest =>
    match c, rest with
    | '*', '/' :: after => some after
    | _, _ => commentTail rest

/-- What follows a string literal whose opening quote has been read. -/
def stringTail (quote : Char) : List Char → Option (List Char)
  | [] => none
  | '\n' :: _ => none
  | '\\' :: '\r' :: '\n' :: rest => stringTail quote rest
  | '\\' :: _ :: rest => stringTail quote rest
  | c :: rest => if c = quote then some rest else stringTail quote rest

/-- What follows a regular expression whose opening slash has been read; `inClass`
tells whether a character class is open, in which a slash is an ordinary character. -/
def regexTail : Bool → List Char → Option (List Char)
  | _, [] => none
  | _, '\n' :: _ => none
  | inClass, '\\' :: _ :: rest => regexTail inClass rest
  | inClass, c :: rest =>
    if c = '[' then regexTail true rest
    else if c = ']' then regexTail false rest
    else if c = '/' ∧ inClass = false then some (rest.dropWhile isNamePart)
    else regexTail inClass rest

/-- What follows a number; a sign belongs to it directly behind an exponent letter,
unless the number is hexadecimal. -/
def numberTail (hexadecimal : Bool) (previous : Char) : List Char → List Char
  | [] => []
  | c :: rest =>
    let exponentSign :=
      (c == '+' || c == '-') && (previous == 'e' || previous == 'E') && !hexadecimal
    if c.isAlphanum || c == '_' || c == '.' || exponentSign then numberTail hexadecimal c rest
    else c :: rest

/-- A line comment leaves no more characters than it was given. -/
theorem length_lineTail_le (cs : List Char) : (lineTail cs).length ≤ cs.length :=
  (List.dropWhile_suffix _).length_le

/-- A block comment leaves fewer characters than it was given. -/
theorem length_commentTail_lt {cs rest : List Char} (h : commentTail cs = some rest) :
    rest.length < cs.length := by
  fun_induction commentTail cs with
  | case1 => simp at h
  | case2 after => cases h; simp only [List.length_cons]; omega
  | case3 c tail _ ih => have := ih h; simp only [List.length_cons]; omega

/-- A string literal leaves fewer characters than it was given. -/
theorem length_stringTail_lt {quote : Char} {cs rest : List Char}
    (h : stringTail quote cs = some rest) : rest.length < cs.length := by
  fun_induction stringTail quote cs with
  | case1 => simp at h
  | case2 => simp at h
  | case3 tail ih => have := ih h; simp only [List.length_cons]; omega
  | case4 c tail _ ih => have := ih h; simp only [List.length_cons]; omega
  | case5 tail _ => cases h; simp
  | case6 c tail _ _ _ _ ih => have := ih h; simp only [List.length_cons]; omega

/-- What follows the white space and the comments at the front. -/
def triviaTail (cs : List Char) : Except LexicalFault (List Char) :=
  match cs with
  | [] => .ok []
  | '/' :: '/' :: rest => triviaTail (lineTail rest)
  | '/' :: '*' :: rest =>
    match h : commentTail rest with
    | some after => triviaTail after
    | none => .error ⟨.unterminatedComment, rest.length + 2⟩
  | c :: rest => if Text.isBlank c then triviaTail rest else .ok (c :: rest)
termination_by cs.length
decreasing_by
  · have := length_lineTail_le rest
    simp only [List.length_cons]
    omega
  · have := length_commentTail_lt h
    simp only [List.length_cons]
    omega
  · simp

/-- White space and comments in front leave no more characters than were given. -/
theorem length_triviaTail_le {cs rest : List Char} (h : triviaTail cs = .ok rest) :
    rest.length ≤ cs.length := by
  fun_induction triviaTail cs with
  | case1 => cases h; simp
  | case2 tail ih =>
    have := ih h
    have := length_lineTail_le tail
    simp only [List.length_cons]
    omega
  | case3 tail after hc ih =>
    have := ih h
    have := length_commentTail_lt hc
    simp only [List.length_cons]
    omega
  | case4 => simp at h
  | case5 c tail _ _ _ ih => have := ih h; simp only [List.length_cons]; omega
  | case6 => cases h; simp

/-- A template literal around the one being read. -/
structure TemplateLevel where
  /-- The number of characters from the opening backtick to the end of the source. -/
  remaining : Nat
  /-- The braces open in the substitution being read, its own brace not counted. -/
  braces : Nat
  deriving DecidableEq, Repr

mutual

/-- What follows a template literal whose opening backtick has been read. A
substitution may hold further literals, whose enclosing ones wait in `outer`. -/
def templateTail (remaining : Nat) (outer : List TemplateLevel) (cs : List Char) :
    Except LexicalFault (List Char) :=
  match cs with
  | [] => .error ⟨.unterminatedTemplate, remaining⟩
  | '\\' :: _ :: rest => templateTail remaining outer rest
  | '\x60' :: rest =>
    match outer with
    | [] => .ok rest
    | level :: levels => substitutionTail level.remaining level.braces levels rest
  | '$' :: '\x7b' :: rest => substitutionTail remaining 0 outer rest
  | _ :: rest => templateTail remaining outer rest
termination_by 2 * cs.length
decreasing_by all_goals (simp only [List.length_cons]; omega)

/-- What follows the template literal in one of whose substitutions the reading
stands. Strings, comments and further templates are read whole; every other
character counts by itself. -/
def substitutionTail (remaining braces : Nat) (outer : List TemplateLevel) (cs : List Char) :
    Except LexicalFault (List Char) :=
  match h : triviaTail cs with
  | .error fault => .error fault
  | .ok [] => .error ⟨.unterminatedTemplate, remaining⟩
  | .ok (c :: rest) =>
    if c = '\x7b' then substitutionTail remaining (braces + 1) outer rest
    else if c = '\x7d' then
      match braces with
      | 0 => templateTail remaining outer rest
      | inner + 1 => substitutionTail remaining inner outer rest
    else if c = '"' ∨ c = '\'' then
      match h' : stringTail c rest with
      | some after => substitutionTail remaining braces outer after
      | none => .error ⟨.unterminatedString, rest.length + 1⟩
    else if c = '\x60' then templateTail (rest.length + 1) (⟨remaining, braces⟩ :: outer) rest
    else substitutionTail remaining braces outer rest
termination_by 2 * cs.length + 1
decreasing_by
  all_goals
    have h₁ := length_triviaTail_le h
    simp only [List.length_cons] at h₁
    try have h₂ := length_stringTail_lt h'
    omega

end

private theorem length_template_lt (n : Nat) :
    (∀ remaining outer cs rest, cs.length ≤ n →
      templateTail remaining outer cs = .ok rest → rest.length < cs.length) ∧
    (∀ remaining braces outer cs rest, cs.length ≤ n →
      substitutionTail remaining braces outer cs = .ok rest → rest.length < cs.length) := by
  induction n with
  | zero =>
    refine ⟨fun remaining outer cs rest hn h => ?_, fun remaining braces outer cs rest hn h => ?_⟩
    all_goals obtain rfl : cs = [] := List.eq_nil_of_length_eq_zero (by omega)
    · rw [templateTail.eq_def] at h
      simp at h
    · rw [substitutionTail.eq_def] at h
      split at h <;> simp_all [triviaTail]
  | succ n ih =>
    obtain ⟨ihText, ihSub⟩ := ih
    refine ⟨fun remaining outer cs rest hn h => ?_, fun remaining braces outer cs rest hn h => ?_⟩
    · rw [templateTail.eq_def] at h
      split at h
      · simp at h
      · rename_i tail
        simp only [List.length_cons] at hn ⊢
        have := ihText _ _ _ _ (by omega) h
        omega
      · simp only [List.length_cons] at hn ⊢
        split at h
        · cases h; omega
        · have := ihSub _ _ _ _ _ (by omega) h
          omega
      · simp only [List.length_cons] at hn ⊢
        have := ihSub _ _ _ _ _ (by omega) h
        omega
      · simp only [List.length_cons] at hn ⊢
        have := ihText _ _ _ _ (by omega) h
        omega
    · rw [substitutionTail.eq_def] at h
      split at h
      · simp at h
      · simp at h
      · rename_i c tail ht
        have hl := length_triviaTail_le ht
        simp only [List.length_cons] at hl
        split at h
        · have := ihSub _ _ _ _ _ (by omega) h
          omega
        · split at h
          · split at h
            · have := ihText _ _ _ _ (by omega) h
              omega
            · have := ihSub _ _ _ _ _ (by omega) h
              omega
          · split at h
            · split at h
              · rename_i hs
                have := length_stringTail_lt hs
                have := ihSub _ _ _ _ _ (by omega) h
                omega
              · simp at h
            · split at h
              · have := ihText _ _ _ _ (by omega) h
                omega
              · have := ihSub _ _ _ _ _ (by omega) h
                omega

/-- A template literal leaves fewer characters than it was given. -/
theorem length_templateTail_lt {remaining : Nat} {outer : List TemplateLevel}
    {cs rest : List Char} (h : templateTail remaining outer cs = .ok rest) :
    rest.length < cs.length :=
  (length_template_lt cs.length).1 _ _ _ _ (Nat.le_refl _) h

/-- A regular expression leaves fewer characters than it was given. -/
theorem length_regexTail_lt {inClass : Bool} {cs rest : List Char}
    (h : regexTail inClass cs = some rest) : rest.length < cs.length := by
  fun_induction regexTail inClass cs with
  | case1 => simp at h
  | case2 => simp at h
  | case3 _ c tail ih => have := ih h; simp only [List.length_cons]; omega
  | case4 _ tail _ _ ih => have := ih h; simp only [List.length_cons]; omega
  | case5 _ tail _ _ _ ih => have := ih h; simp only [List.length_cons]; omega
  | case6 _ c tail _ _ _ _ =>
    cases h
    have := (List.dropWhile_suffix isNamePart (l := tail)).length_le
    simp only [List.length_cons]
    omega
  | case7 _ c tail _ _ _ _ _ ih => have := ih h; simp only [List.length_cons]; omega

theorem length_numberTail_le (hexadecimal : Bool) (previous : Char) (cs : List Char) :
    (numberTail hexadecimal previous cs).length ≤ cs.length := by
  induction cs generalizing previous with
  | nil => simp [numberTail]
  | cons c rest ih =>
    rw [numberTail]
    have := ih c
    simp only [List.length_cons]
    split
    · omega
    · simp

/-- The operators and brackets, longer ones first where one starts another. A `>` is
always a token of its own, so nested type lists close one level at a time. -/
def punctuators : List (List Char) := [
  ['.', '.', '.'], ['=', '=', '='], ['!', '=', '='], ['*', '*', '='], ['<', '<', '='],
  ['&', '&', '='], ['|', '|', '='], ['?', '?', '='], ['=', '>'], ['=', '='], ['!', '='],
  ['<', '='], ['&', '&'], ['|', '|'], ['?', '?'], ['?', '.'], ['+', '+'], ['-', '-'],
  ['+', '='], ['-', '='], ['*', '='], ['/', '='], ['%', '='], ['&', '='], ['|', '='],
  ['^', '='], ['*', '*'], ['<', '<'], ['\x7b'], ['\x7d'], ['('], [')'], ['['], [']'],
  [';'], [','], ['<'], ['>'], ['+'], ['-'], ['*'], ['/'], ['%'], ['&'], ['|'], ['^'],
  ['!'], ['~'], ['?'], [':'], ['='], ['.']]

/-- The number of characters of the punctuator at the front. A question mark before a
point and a digit stands alone, because the point belongs to the number. -/
def punctuatorLength (cs : List Char) : Option Nat :=
  match cs with
  | '?' :: '.' :: d :: _ =>
    if d.isDigit then some 1
    else (punctuators.find? (·.isPrefixOf cs)).map List.length
  | _ => (punctuators.find? (·.isPrefixOf cs)).map List.length

/-- The words after which a slash starts a regular expression. -/
def wordsBeforeRegex : List String := [
  "return", "typeof", "instanceof", "in", "of", "new", "delete", "void", "throw", "case", "do",
  "else", "yield", "await"]

/-- Whether an operator behind the token applies to a finished operand. -/
def Token.endsOperand (t : Token) : Bool :=
  match t.kind with
  | .word => !wordsBeforeRegex.contains t.text
  | .number | .string | .template | .regex => true
  | .punctuator => t.text == ")" || t.text == "]"
  | .finish => false

/-- Whether a slash starts a regular expression, given the tokens before it, nearest
first. Behind a postfix `++` or `--` it divides. -/
def regexAllowed : List Token → Bool
  | [] => true
  | t :: earlier =>
    match t.kind with
    | .punctuator =>
      if t.text == "++" || t.text == "--" then !(earlier.head?.any Token.endsOperand)
      else !(t.text == ")" || t.text == "]" || t.text == "\x7d")
    | .word => wordsBeforeRegex.contains t.text
    | _ => false

/-- What follows the token whose first character is given, and what the token is. -/
def tokenTail (earlier : List Token) (c : Char) (rest : List Char) :
    Except LexicalFault (TokenKind × List Char) :=
  if isNameStart c then .ok (.word, rest.dropWhile isNamePart)
  else if c.isDigit || (c == '.' && rest.head?.any Char.isDigit) then
    let hexadecimal := c == '0' && rest.head?.any fun x => x == 'x' || x == 'X'
    .ok (.number, numberTail hexadecimal c rest)
  else if c = '"' ∨ c = '\'' then
    match stringTail c rest with
    | some after => .ok (.string, after)
    | none => .error ⟨.unterminatedString, rest.length + 1⟩
  else if c = '\x60' then
    (templateTail (rest.length + 1) [] rest).map fun after => (.template, after)
  else if c = '/' && regexAllowed earlier then
    match regexTail false rest with
    | some after => .ok (.regex, after)
    | none => .error ⟨.unterminatedRegex, rest.length + 1⟩
  else
    match punctuatorLength (c :: rest) with
    | some n => .ok (.punctuator, rest.drop (n - 1))
    | none => .error ⟨.invalidCharacter c, rest.length + 1⟩

/-- Every token holds at least its first character. -/
theorem length_tokenTail_le {earlier : List Token} {c : Char} {rest after : List Char}
    {kind : TokenKind} (h : tokenTail earlier c rest = .ok (kind, after)) :
    after.length ≤ rest.length := by
  unfold tokenTail at h
  split at h
  · cases h; exact (List.dropWhile_suffix _).length_le
  · split at h
    · cases h; exact length_numberTail_le _ _ _
    · split at h
      · split at h
        · rename_i hs
          cases h
          exact Nat.le_of_lt (length_stringTail_lt hs)
        · simp at h
      · split at h
        · cases ht : templateTail (rest.length + 1) [] rest with
          | error e => simp [ht, Except.map] at h
          | ok r =>
            simp only [ht, Except.map, Except.ok.injEq, Prod.mk.injEq] at h
            rw [← h.2]
            exact Nat.le_of_lt (length_templateTail_lt ht)
        · split at h
          · split at h
            · rename_i hr
              cases h
              exact Nat.le_of_lt (length_regexTail_lt hr)
            · simp at h
          · split at h
            · cases h; simp
            · simp at h

/-- What follows white space and comments at the very start of a source, where a
line that begins with `#!` is skipped first. -/
def headTail (cs : List Char) : Except LexicalFault (List Char) :=
  match cs with
  | '#' :: '!' :: rest => triviaTail (lineTail rest)
  | _ => triviaTail cs

/-- The tokens read up to the end of a source or up to the first lexical fault. -/
structure Reading where
  /-- The tokens in order; the last one is the end of the source unless there is a fault. -/
  tokens : List Token
  /-- The fault that stopped the reading. -/
  fault : Option LexicalFault
  deriving DecidableEq, Repr

/-- Reads tokens from `tail` on, where `tail` is what follows the trivia at the front of
`cs`; `earlier` holds the tokens read so far, nearest first, and `before` the number of
characters in front of `cs`. -/
def readFrom (earlier : List Token) (before : Nat) (cs tail : List Char) : Reading :=
  let leading := cs.take (cs.length - tail.length)
  let start := before + leading.length
  match tail with
  | [] => ⟨(⟨.finish, String.ofList leading, "", start⟩ :: earlier).reverse, none⟩
  | c :: rest =>
    match h : tokenTail earlier c rest with
    | .error fault => ⟨earlier.reverse, some fault⟩
    | .ok (kind, after) =>
      have := length_tokenTail_le h
      let text := c :: rest.take (rest.length - after.length)
      let token : Token := ⟨kind, String.ofList leading, String.ofList text, start⟩
      match h' : triviaTail after with
      | .error fault => ⟨(token :: earlier).reverse, some fault⟩
      | .ok next =>
        have := length_triviaTail_le h'
        readFrom (token :: earlier) (start + text.length) after next
termination_by tail.length
decreasing_by
  simp only [List.length_cons]
  omega

/-- The tokens of a source. -/
def readTokens (source : String) : Reading :=
  match headTail source.toList with
  | .error fault => ⟨[], some fault⟩
  | .ok tail => readFrom [] 0 source.toList tail

end Workflow.Script
