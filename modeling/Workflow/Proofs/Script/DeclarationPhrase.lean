import Workflow.Proofs.Script.TypeOnly
import Workflow.Proofs.Script.TypePhrase

/-!
# Declarations of types as they are read

An interface has each of its fields on a line of its own; an alias and an ambient function stand
on one line. Each is read as the tokens of a declaration, whatever stands in front of it.
-/

namespace Workflow.Script

variable {lead text key type params result : String} {stops : Char → Prop}
  {P Q : List Token → Prop}

/-- A text that is a word is read as one on any line. -/
theorem lexesLines_word {c : Char} {rest : List Char} (hlead : Trivia lead.toList)
    (htext : text.toList = c :: rest) (hc : isLetter c = true)
    (hrest : ∀ d ∈ rest, isNamePart d = true) :
    LexesLines (lead ++ text) (fun d => isNamePart d = false)
      fun ts => ∃ t, ts = [t] ∧ t.IsWord text :=
  fun _ => ⟨_, lexed_word hlead htext hc hrest, _, rfl, rfl, rfl⟩

/-- The words that declarations of types begin with, in front of a space. -/
theorem lexesLines_keyword (hlead : Trivia lead.toList)
    (htext : text ∈ ["interface", "type", "declare"]) :
    LexesLines (lead ++ text) (· = ' ') fun ts => ∃ t, ts = [t] ∧ t.IsWord text := by
  have hletters : ∃ c rest, text.toList = c :: rest ∧ isLetter c = true ∧
      ∀ d ∈ rest, isNamePart d = true := by
    simp only [List.mem_cons, List.not_mem_nil, or_false] at htext
    rcases htext with rfl | rfl | rfl
    all_goals exact ⟨_, _, rfl, by decide, List.all_eq_true.mp (by decide)⟩
  obtain ⟨c, rest, heq, hfirst, hrest⟩ := hletters
  refine (lexesLines_word hlead heq hfirst hrest).mono ?_ fun _ => id
  rintro _ rfl
  decide

/-- A bracket is read on any line. -/
theorem lexesLines_bracket (hlead : Trivia lead.toList) (htext : text ∈ brackets) :
    LexesLines (lead ++ text) (fun _ => True) fun ts => ∃ t, ts = [t] ∧ t.IsMark text := by
  obtain ⟨hmem, hslash, hquestion, hstops⟩ := listed_of_mem_brackets htext
  intro start
  exact ⟨_, (lexed_punctuator hlead hmem hslash hquestion).stops_mono fun c _ => hstops c, _, rfl,
    rfl, rfl⟩

/-- A colon with what stands behind it up to a semicolon. -/
theorem lexes_annotation (h : Phrase text Delimits P) :
    Lexes (":" ++ (" " ++ text ++ ";")) (fun _ => True) fun ts => ∃ colon us semicolon,
      ts = colon :: (us ++ [semicolon]) ∧ colon.IsMark ":" ∧ P us ∧ semicolon.IsMark ";" := by
  have hend := h.spaced.append (phrase_bracket ";" (by decide)).plain
    (by simp [Delimits, delimiters])
  refine (phrase_bracket ":" (by decide)).plain.join hend (by simp) ?_
  rintro _ _ ⟨colon, rfl, hcolon, -⟩ ⟨us, _, rfl, hus, semicolon, rfl, hsemicolon, -⟩
  exact ⟨colon, us, semicolon, rfl, hcolon, hus, hsemicolon⟩

/-- A declaration with the text that it is written as. -/
structure WrittenDeclaration where
  declared : TypeDeclaration
  text : String

/-- On any line the text is read as that of the declaration. -/
def WrittenDeclaration.Reads (w : WrittenDeclaration) : Prop := ∀ lead : String,
  Trivia lead.toList → LexesLines (lead ++ w.text) (fun _ => True) (DeclarationTokens w.declared)

/-! ## Aliases and functions -/

/-- A name for a type, on its line. -/
def writtenAlias (name type : String) : WrittenDeclaration :=
  ⟨.typeAlias name, "type " ++ name ++ " = " ++ type ++ ";"⟩

theorem reads_writtenAlias {grouped : Bool} (x : PlainName)
    (htype : Phrase type Delimits (TypeTokens grouped)) : (writtenAlias x.text type).Reads := by
  intro lead hlead
  have hvalue := lexes_operator "=" (by decide) htype
  have hsemicolon : Lexes (" " ++ "=" ++ " " ++ type ++ ";") (fun _ => True) fun ts =>
      ∃ equals us semicolon, ts = equals :: (us ++ [semicolon]) ∧ equals.IsMark "=" ∧
        TypeTokens grouped us ∧ semicolon.IsMark ";" := by
    refine hvalue.join (phrase_bracket ";" (by decide)).plain (by simp [Delimits, delimiters]) ?_
    rintro _ _ ⟨equals, us, rfl, hequals, hus⟩ ⟨semicolon, rfl, hsemicolon, -⟩
    exact ⟨equals, us, semicolon, rfl, hequals, hus, hsemicolon⟩
  have hnamed := (phrase_plainName x).spaced.append hsemicolon (by simp [Delimits, delimiters])
  have hsplit : lead ++ (writtenAlias x.text type).text =
      lead ++ "type" ++ (" " ++ x.text ++ (" " ++ "=" ++ " " ++ type ++ ";")) := by
    rw [writtenAlias, show "type " = "type" ++ " " from rfl,
      show " = " = " " ++ "=" ++ " " from rfl]
    simp only [String.append_assoc]
  rw [hsplit]
  refine (lexesLines_keyword hlead (by decide)).join hnamed.lines (by simp) ?_
  rintro _ _ ⟨word, rfl, hword⟩
    ⟨_, _, rfl, ⟨name, rfl, hname, htext⟩, equals, us, semicolon, rfl, hequals, hus, hsemicolon⟩
  rw [writtenAlias, ← htext]
  exact .typeAlias hword hname hequals hus hsemicolon

/-- A function without its body, on its line. -/
def writtenAmbient (name params result : String) : WrittenDeclaration :=
  ⟨.ambient name, "declare function " ++ name ++ "(" ++ params ++ "): " ++ result ++ ";"⟩

theorem reads_writtenAmbient (x : PlainName)
    (hparams : Lexes (params ++ ")") (fun _ => True) (IsClosed Balanced ")"))
    (hresult : Phrase result Delimits ResultTokens) :
    (writtenAmbient x.text params result).Reads := by
  intro lead hlead
  have hlist := phrase_between "(" ")" (by decide) hparams
  have hcolon := lexes_annotation hresult
  have hsignature := ((phrase_plainName x).spaced.append hlist.plain
    (by simp [Delimits, delimiters])).append hcolon (by simp)
  have hfunction := (phrase_word "function" (by decide)).spaced.append hsignature (by simp)
  have hsplit : lead ++ (writtenAmbient x.text params result).text =
      lead ++ "declare" ++ (" " ++ "function" ++ (" " ++ x.text ++ ("(" ++ params ++ ")") ++
        (":" ++ (" " ++ result ++ ";")))) := by
    rw [writtenAmbient, show "declare function " = "declare" ++ " " ++ "function" ++ " " from rfl,
      show "): " = ")" ++ ":" ++ " " from rfl]
    simp only [String.append_assoc]
  rw [hsplit]
  refine (lexesLines_keyword hlead (by decide)).join hfunction.lines (by simp) ?_
  rintro _ _ ⟨word, rfl, hword⟩ ⟨_, _, rfl, ⟨keyword, rfl, hkeyword⟩, _, _, rfl,
    ⟨_, _, rfl, ⟨name, rfl, hname, htext⟩, first, inner, last, rfl, hfirst, -, hinner, hlast⟩,
    colon, us, semicolon, rfl, hcolon, hus, hsemicolon⟩
  rw [writtenAmbient, ← htext]
  have htokens := DeclarationTokens.ambient hword hkeyword hname hfirst hinner hlast hcolon hus
    hsemicolon
  simpa using htokens

/-! ## Interfaces -/

/-- The key of a field is read as one token at the start of a line. -/
def ReadsKey (key : String) : Prop := ∀ lead : String, Trivia lead.toList →
  LexesLines (lead ++ key) (fun c => c = '?' ∨ c = ':')
    fun ts => ∃ t, ts = [t] ∧ t.IsNoBracket ∧ t.text = key

/-- Plain letters and digits are read as the key of a field, even if they are a reserved word. -/
theorem readsKey_word {c : Char} {rest : List Char} (htext : text.toList = c :: rest)
    (hc : isLetter c = true) (hrest : ∀ d ∈ rest, isNamePart d = true) : ReadsKey text := by
  intro lead hlead
  refine (lexesLines_word hlead htext hc hrest).mono ?_ ?_
  · rintro _ (rfl | rfl) <;> decide
  · rintro _ ⟨t, rfl, ht⟩
    refine ⟨t, rfl, ht.isNoBracket fun hmem => ?_, ht.2⟩
    have hnone : ∀ text ∈ ["(", "[", "\x7b", ")", "]", "\x7d"],
        (text.toList.head?.any isLetter) = false := by decide
    have hbracket := hnone text hmem
    rw [htext, List.head?_cons, Option.any_some, hc] at hbracket
    cases hbracket

theorem readsKey_string (s : StringLiteral) : ReadsKey s.text := by
  intro lead hlead start
  refine ⟨_, (lexed_string hlead s).stops_mono fun _ _ => trivial, _, rfl, ?_, rfl⟩
  exact Token.isNoBracket_of_literal (.inl rfl)

/-- A field of an interface, with the text of its type. -/
structure WrittenField where
  key : String
  optional : Bool
  type : String

/-- The line of a field, with the line feed in front. -/
def WrittenField.line (f : WrittenField) : String :=
  "\n  " ++ f.key ++ (if f.optional then "?" else "") ++ ": " ++ f.type ++ ";"

/-- The key and the type of a field are read as such. -/
structure WrittenField.Reads (f : WrittenField) : Prop where
  key : ReadsKey f.key
  type : Phrase f.type Delimits Balanced

/-- The key of a field stands in front of a colon, and its type in front of a semicolon. -/
theorem WrittenField.Reads.lexesLines {f : WrittenField} (h : f.Reads) :
    LexesLines f.line (fun _ => True) fun ts => ∃ (key colon semicolon : Token)
      (mark us : List Token), ts = key :: (mark ++ colon :: (us ++ [semicolon])) ∧
        key.text = f.key ∧ key.IsNoBracket ∧ (mark = [] ∨ ∃ t, mark = [t] ∧ t.IsMark "?") ∧
        colon.IsMark ":" ∧ Balanced us ∧ semicolon.IsMark ";" := by
  obtain ⟨key, optional, type⟩ := f
  have hfeed : Trivia "\n  ".toList :=
    .blank (by decide) (.blank (by decide) (.blank (by decide) .none))
  have hend := lexes_annotation h.type
  have hmark : Lexes ((if optional then "?" else "") ++ (":" ++ (" " ++ type ++ ";")))
      (fun _ => True) fun ts => ∃ mark us, ts = mark ++ us ∧
        (mark = [] ∨ ∃ t, mark = [t] ∧ t.IsMark "?") ∧ ∃ colon vs semicolon,
          us = colon :: (vs ++ [semicolon]) ∧ colon.IsMark ":" ∧ Balanced vs ∧
            semicolon.IsMark ";" := by
    cases optional with
    | false =>
      rw [if_neg Bool.false_ne_true, String.empty_append]
      exact hend.mono fun ts hts => ⟨[], ts, rfl, .inl rfl, hts⟩
    | true =>
      have hquestion := phrase_punctuator "?" (by decide) (by decide) (by decide)
      refine hquestion.plain.join hend ?_ ?_
      · simp only [String.toList_append]
        rintro _ ⟨⟩
        exact ⟨by decide, fun hpoint => absurd hpoint (by decide)⟩
      · rintro _ vs ⟨question, rfl, hquestion, -⟩ hvs
        exact ⟨[question], vs, rfl, .inr ⟨question, rfl, hquestion⟩, hvs⟩
  have hsplit : (WrittenField.mk key optional type).line =
      "\n  " ++ key ++ ((if optional then "?" else "") ++ (":" ++ (" " ++ type ++ ";"))) := by
    rw [line, show ": " = ":" ++ " " from rfl]
    simp only [String.append_assoc]
  rw [hsplit]
  refine (h.key _ hfeed).join hmark.lines ?_ ?_
  · cases optional <;> simp
  · rintro _ _ ⟨t, rfl, ht, htext⟩
      ⟨mark, _, rfl, hmark, colon, us, semicolon, rfl, hcolon, hus, hsemicolon⟩
    exact ⟨t, colon, semicolon, mark, us, by simp, htext, ht, hmark, hcolon, hus, hsemicolon⟩

/-- The lines of the fields, and the bracket that closes them on a line of its own. -/
theorem lexesLines_body {fields : List WrittenField} (hfields : ∀ f ∈ fields, f.Reads) :
    LexesLines (String.join (fields.map WrittenField.line) ++ "\n\x7d") (fun _ => True)
      (IsClosed (FieldsTokens (fields.map WrittenField.key)) "\x7d") := by
  induction fields with
  | nil =>
    have hfeed : Trivia "\n".toList := .blank (by decide) .none
    refine (lexesLines_bracket hfeed (show "\x7d" ∈ brackets by decide)).mono (fun _ => id) ?_
    rintro _ ⟨last, rfl, hlast⟩
    exact ⟨[], last, rfl, .nil, hlast⟩
  | cons f fields ih =>
    have hrest := ih fun g hg => hfields g (List.mem_cons_of_mem _ hg)
    rw [List.map_cons, String.join_cons, String.append_assoc]
    refine (hfields f List.mem_cons_self).lexesLines.join hrest (by simp) ?_
    rintro _ _ ⟨key, colon, semicolon, mark, us, rfl, htext, hkey, hmark, hcolon, hus, hsemicolon⟩
      ⟨inner, last, rfl, hinner, hlast⟩
    refine ⟨key :: (mark ++ colon :: (us ++ semicolon :: inner)), last, by simp, ?_, hlast⟩
    rw [List.map_cons, ← htext]
    exact .cons hkey hmark hcolon hus hsemicolon hinner

/-- An interface with its fields on lines of their own. -/
def writtenInterface (name : String) (fields : List WrittenField) : WrittenDeclaration :=
  ⟨.interface name (fields.map WrittenField.key),
    "interface " ++ name ++ " \x7b" ++ String.join (fields.map WrittenField.line) ++ "\n\x7d"⟩

theorem reads_writtenInterface {fields : List WrittenField} (x : PlainName)
    (hfields : ∀ f ∈ fields, f.Reads) : (writtenInterface x.text fields).Reads := by
  intro lead hlead
  have hopen := ((phrase_plainName x).spaced.append (phrase_bracket "\x7b" (by decide)).spaced
    (by simp [Delimits, delimiters])).lines
  have hbody := hopen.append (lexesLines_body hfields) (by simp)
  have hsplit : lead ++ (writtenInterface x.text fields).text =
      lead ++ "interface" ++ (" " ++ x.text ++ (" " ++ "\x7b") ++
        (String.join (fields.map WrittenField.line) ++ "\n\x7d")) := by
    rw [writtenInterface, show "interface " = "interface" ++ " " from rfl,
      show " \x7b" = " " ++ "\x7b" from rfl]
    simp only [String.append_assoc]
  rw [hsplit]
  refine (lexesLines_keyword hlead (by decide)).join hbody (by simp) ?_
  rintro _ _ ⟨word, rfl, hword⟩ ⟨_, _, rfl,
    ⟨_, _, rfl, ⟨name, rfl, hname, htext⟩, first, rfl, hfirst, -⟩, inner, last, rfl, hinner, hlast⟩
  rw [writtenInterface, ← htext]
  exact .interface hword hname hfirst hinner hlast

/-- Declarations as they are written, with white space or comments in front of each. -/
def writtenDeclarations (ws : List (String × WrittenDeclaration)) : String :=
  String.join (ws.map fun w => w.1 ++ w.2.text)

/-- Declarations one behind the other are read as such. -/
theorem lexesLines_declarations {w : String × WrittenDeclaration}
    {ws : List (String × WrittenDeclaration)}
    (h : ∀ v ∈ w :: ws, Trivia v.1.toList ∧ v.2.Reads) :
    LexesLines (writtenDeclarations (w :: ws)) (fun _ => True)
      (DeclarationsTokens ((w :: ws).map fun v => v.2.declared)) := by
  induction ws generalizing w with
  | nil =>
    obtain ⟨hlead, hreads⟩ := h w List.mem_cons_self
    have hfirst := hreads w.1 hlead
    rw [writtenDeclarations, List.map_cons, List.map_nil, String.join_cons, String.join_nil,
      String.append_empty]
    exact hfirst.mono (fun _ => id) fun ts hts => by simpa using DeclarationsTokens.cons hts .nil
  | cons v ws ih =>
    obtain ⟨hlead, hreads⟩ := h w List.mem_cons_self
    rw [writtenDeclarations, List.map_cons, String.join_cons]
    exact (hreads w.1 hlead).join (ih fun u hu => h u (List.mem_cons_of_mem _ hu)) (by simp)
      fun _ _ hus hvs => .cons hus hvs

end Workflow.Script
