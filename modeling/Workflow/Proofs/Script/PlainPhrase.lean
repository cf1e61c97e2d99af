import Workflow.Proofs.Script.ExprPhrase
import Workflow.Proofs.Script.SwitchGrammar

/-!
# Expressions of switch statements as they are read

Such an expression is read as tokens that erasure leaves alone and that follow each other as
tokens of an expression do: behind an operand no curly bracket opens, and behind a question mark
an operand starts. The first token tells whether the expression starts with an object literal,
and the last one whether it ends with a name.
-/

namespace Workflow.Script

variable {place : Place} {t u : Token} {ts us vs : List Token} {text front back : String}
  {a b : Ending} {o o' : Bool}

/-- The token starts an operand. -/
def Token.StartsOperand (t : Token) : Prop :=
  t.IsName ∨ (t.kind = .string ∨ t.kind = .number) ∨ t.IsMark "(" ∨ t.IsMark "[" ∨ t.IsMark "\x7b"

/-- The texts that no operand starts with and that are asked for behind a type. -/
def nonStarts : List String := [
  "=>", ":", ",", ")", "=", ".", "<", "|", "&", "is", "extends", "new"]

/-- An operand starts with none of the marks that are listed. -/
theorem Token.StartsOperand.is_eq_false (h : t.StartsOperand) (htext : text ∈ nonStarts) :
    t.is text = false := by
  have hlisted : ∀ text ∈ nonStarts,
      (text ∈ reservedWords ∨ text.toList.head?.any isLetter = false) ∧
        ("(" == text) = false ∧ ("[" == text) = false ∧ ("\x7b" == text) = false := by
    decide
  obtain ⟨hname, hround, hsquare, hcurly⟩ := hlisted text htext
  rcases h with ht | ht | ht | ht | ht
  · exact ht.is_eq_false hname
  · exact Token.is_eq_false ht
  · rw [ht.is, hround]
  · rw [ht.is, hsquare]
  · rw [ht.is, hcurly]

/-- A mark that an operand starts with is an opening bracket. -/
theorem Token.StartsOperand.mem_of_isMark (h : t.StartsOperand) (ht : t.IsMark text) :
    text ∈ ["(", "[", "\x7b"] := by
  rcases h with hname | hkind | hround | hsquare | hcurly
  · cases ht.1.symm.trans hname.1
  · rcases hkind with hkind | hkind <;> cases ht.1.symm.trans hkind
  · rw [← ht.2, hround.2]
    decide
  · rw [← ht.2, hsquare.2]
    decide
  · rw [← ht.2, hcurly.2]
    decide

/-- Only a closing bracket is a mark that ends an operand. -/
theorem Token.IsMark.not_endsOperand (h : t.IsMark text) (htext : text ∉ [")", "]", "\x7d"]) :
    ¬ t.EndsOperand := by
  have hne : ∀ other ∈ [")", "]", "\x7d"], ¬ t.IsMark other :=
    fun other hmem hmark => htext ((h.2.symm.trans hmark.2) ▸ hmem)
  rintro (⟨hkind, -⟩ | (hkind | hkind) | hmark | hmark | hmark)
  · cases h.1.symm.trans hkind
  · cases h.1.symm.trans hkind
  · cases h.1.symm.trans hkind
  · exact hne _ (by decide) hmark
  · exact hne _ (by decide) hmark
  · exact hne _ (by decide) hmark

/-- Behind an operand anything but a brace may follow. -/
theorem Token.EndsOperand.meets (h : u.EndsOperand) (ht : t.is "\x7b" = false) : u.Meets t := by
  refine ⟨fun _ => ht, fun hquestion => ?_⟩
  rcases h with hname | hliteral | hmark | hmark | hmark
  · rw [hname.is_eq_false (.inr (by decide))] at hquestion
    cases hquestion
  · rw [Token.is_eq_false hliteral] at hquestion
    cases hquestion
  all_goals
    rw [hmark.is] at hquestion
    cases hquestion

/-- Behind any other mark anything may follow. -/
theorem Token.IsMark.meets (h : u.IsMark text) (htext : text ∉ [")", "]", "\x7d", "?"]) :
    u.Meets t := by
  refine ⟨fun hends => absurd hends (h.not_endsOperand fun hmem => htext ?_), fun hquestion => ?_⟩
  · exact List.mem_append_left ["?"] hmem
  · rw [h.is, beq_iff_eq] at hquestion
    subst hquestion
    exact absurd (by decide) htext

/-- Behind a question mark an operand may follow. -/
theorem Token.IsMark.meets_operand (h : u.IsMark "?") (ht : t.StartsOperand) : u.Meets t := by
  refine ⟨fun hends => absurd hends (h.not_endsOperand (by decide)), fun _ text hmem => ?_⟩
  refine ht.is_eq_false ?_
  revert text
  decide

/-- A mark between tokens of expressions. -/
theorem isChain_between (hus : us.IsChain Token.Meets) (hlast : ∀ u ∈ us.getLast?, u.EndsOperand)
    (ht : t.is "\x7b" = false) (hmeets : ∀ v ∈ vs.head?, t.Meets v)
    (hvs : vs.IsChain Token.Meets) : (us ++ t :: vs).IsChain Token.Meets := by
  refine hus.append (List.isChain_cons.mpr ⟨hmeets, hvs⟩) ?_
  rintro u hu _ ⟨⟩
  exact (hlast u hu).meets ht

/-- Tokens of expressions that follow each other as they may. -/
structure Row (place : Place) (ts : List Token) : Prop where
  inert : Inert place ts
  chain : ts.IsChain Token.Meets
  arrowless : ∀ t ∈ ts, t.is "=>" = false
  last : ∀ t ∈ ts.getLast?, t.EndsOperand

namespace Row

/-- Nothing is a row of any place. -/
theorem nil : Row place [] := ⟨.nil, .nil, by simp, by simp⟩

/-- A row of operands is one at every place. -/
theorem of_operand (h : Row .operand ts) : Row place ts :=
  ⟨h.inert.of_operand, h.chain, h.arrowless, h.last⟩

/-- A row may follow a row, unless a brace would follow. -/
theorem append (h : Row place ts) (hus : Row place us)
    (hhead : ∀ t ∈ us.head?, t.is "\x7b" = false) : Row place (ts ++ us) where
  inert := h.inert.append hus.inert hhead
  chain := h.chain.append hus.chain fun u hu t ht => (h.last u hu).meets (hhead t ht)
  arrowless := List.forall_mem_append.mpr ⟨h.arrowless, hus.arrowless⟩
  last := by
    intro t ht
    rw [List.getLast?_append] at ht
    cases hlast : us.getLast? with
    | none => exact h.last t (by simpa [hlast] using ht)
    | some u => exact hus.last t (by simpa [hlast] using ht)

/-- A comma may stand in front of a row that is not empty. -/
theorem comma (hplace : place ≠ .operand) (ht : t.IsMark ",") (h : Row place ts)
    (hne : ts ≠ []) : Row place (t :: ts) where
  inert := .comma hplace ht h.inert
  chain := List.isChain_cons.mpr ⟨fun _ _ => ht.meets (by decide), h.chain⟩
  arrowless := List.forall_mem_cons.mpr ⟨by simp [ht.is], h.arrowless⟩
  last := by
    rw [List.getLast?_cons_of_ne_nil hne]
    exact h.last

/-- A key and its colon may stand in front of the value and of what follows it. -/
theorem key {name colon : Token} (hname : name.IsName) (hcolon : colon.IsMark ":")
    (h : Row .entries ts) (hne : ts ≠ []) : Row .entries (name :: colon :: ts) where
  inert := .key hname hcolon h.inert
  chain := by
    refine List.isChain_cons_cons.mpr
      ⟨Token.EndsOperand.meets (.inl hname) (by simp [hcolon.is]), ?_⟩
    exact List.isChain_cons.mpr ⟨fun _ _ => hcolon.meets (by decide), h.chain⟩
  arrowless := by
    simp only [List.forall_mem_cons]
    exact ⟨hname.is_eq_false (.inr (by decide)), by simp [hcolon.is], h.arrowless⟩
  last := by
    rw [List.getLast?_cons_of_ne_nil (by simp), List.getLast?_cons_of_ne_nil hne]
    exact h.last

/-- What stands in brackets and the brackets around it. -/
theorem enclosed {place' : Place} {first last : Token} {opening closing : String}
    (hinert : Inert place (first :: (ts ++ [last]))) (h : Row place' ts)
    (hfirst : first.IsMark opening) (hopening : opening ∈ ["(", "[", "\x7b"])
    (hlast : last.IsMark closing) (hclosing : closing ∈ [")", "]", "\x7d"]) :
    Row place (first :: (ts ++ [last])) := by
  have hmeets : opening ∉ [")", "]", "\x7d", "?"] := by
    clear hfirst
    revert opening
    decide
  have hends : last.EndsOperand := by
    simp only [List.mem_cons, List.not_mem_nil, or_false] at hclosing
    rcases hclosing with rfl | rfl | rfl
    · exact .inr (.inr (.inl hlast))
    · exact .inr (.inr (.inr (.inl hlast)))
    · exact .inr (.inr (.inr (.inr hlast)))
  have hcurly : last.is "\x7b" = false := by
    rw [hlast.is, beq_eq_false_iff_ne]
    rintro rfl
    revert hclosing
    decide
  refine ⟨hinert, ?_, ?_, ?_⟩
  · refine List.isChain_cons.mpr ⟨fun _ _ => hfirst.meets hmeets, ?_⟩
    exact isChain_between h.chain h.last hcurly (by simp) .nil
  · simp only [List.forall_mem_cons, List.forall_mem_append]
    refine ⟨?_, h.arrowless, ?_, by simp⟩
    · rw [hfirst.is, beq_eq_false_iff_ne]
      rintro rfl
      revert hopening
      decide
    · rw [hlast.is, beq_eq_false_iff_ne]
      rintro rfl
      revert hclosing
      decide
  · rw [show first :: (ts ++ [last]) = (first :: ts) ++ [last] from rfl, List.getLast?_concat]
    rintro _ ⟨⟩
    exact hends

/-- The members of a name are a row of operands. -/
theorem members (h : Members ts) : Row .operand ts := by
  induction h with
  | nil => exact .nil
  | @cons point name ts hpoint hname hts ih =>
    refine ⟨(Members.cons hpoint hname hts).inert, ?_, ?_, ?_⟩
    · refine List.isChain_cons_cons.mpr ⟨hpoint.meets (by decide), ?_⟩
      refine List.isChain_cons.mpr ⟨fun t ht => Token.EndsOperand.meets (.inl hname) ?_, ih.chain⟩
      simp [(hts.isMark_head t ht).is]
    · simp only [List.forall_mem_cons]
      exact ⟨by simp [hpoint.is], hname.is_eq_false (.inr (by decide)), ih.arrowless⟩
    · rw [List.getLast?_cons_of_ne_nil (by simp)]
      by_cases hrest : ts = []
      · subst hrest
        rintro _ ⟨⟩
        exact .inl hname
      · rw [List.getLast?_cons_of_ne_nil hrest]
        exact ih.last

end Row

/-- The token stands at the end of a text that ends in the given way. -/
def Ending.Ends : Ending → Token → Prop
  | .name, t => t.IsName
  | .number, t => t.kind = .number
  | .other, t => t.kind ≠ .word

/-- What a text ends with if members are written behind it. -/
def Ending.members (a : Ending) (members : List PlainName) : Ending := members.foldl Ending.member a

/-- The tokens of an expression that ends in the given way and starts with an object literal or
not. -/
structure PlainTokens (a : Ending) (object : Bool) (ts : List Token) : Prop
    extends Row .operand ts where
  first : ∃ t ∈ ts.head?, t.StartsOperand ∧ t.is "\x7b" = object
  ending : ∃ t ∈ ts.getLast?, a.Ends t

namespace PlainTokens

/-- An expression has tokens. -/
theorem ne_nil (h : PlainTokens a o ts) : ts ≠ [] := by
  rintro rfl
  obtain ⟨t, ht, -⟩ := h.first
  cases ht

/-- Only the first token opens an object literal. -/
theorem head_is (h : PlainTokens a o ts) : ∀ t ∈ ts.head?, t.StartsOperand ∧ t.is "\x7b" = o := by
  obtain ⟨t, ht, hfirst⟩ := h.first
  intro u hu
  obtain rfl := Option.mem_unique ht hu
  exact hfirst

/-- A name is an expression that ends with a name. -/
theorem name (ht : t.IsName) : PlainTokens .name false [t] :=
  ⟨⟨.name ht .nil, .singleton t,
    List.forall_mem_singleton.mpr (ht.is_eq_false (.inr (by decide))),
    by rintro _ ⟨⟩; exact .inl ht⟩, ⟨t, rfl, .inl ht, ht.is_eq_false (.inr (by decide))⟩,
    ⟨t, rfl, ht⟩⟩

theorem literal (ht : t.kind = .string ∨ t.kind = .number) (ha : a.Ends t) :
    PlainTokens a false [t] :=
  ⟨⟨.literal ht .nil, .singleton t, by simp [Token.is_eq_false ht],
    by rintro _ ⟨⟩; exact .inr (.inl ht)⟩, ⟨t, rfl, .inr (.inl ht), Token.is_eq_false ht⟩,
    ⟨t, rfl, ha⟩⟩

/-- An expression goes on with tokens of which the first opens no curly bracket. -/
theorem append (h : PlainTokens a o ts) (hus : Row .operand us)
    (hhead : ∀ t ∈ us.head?, t.is "\x7b" = false) (hending : ∃ t ∈ us.getLast?, b.Ends t) :
    PlainTokens b o (ts ++ us) where
  toRow := h.toRow.append hus hhead
  first := by
    obtain ⟨t, ht, hfirst⟩ := h.first
    exact ⟨t, by rw [List.head?_append, Option.mem_def.mp ht]; rfl, hfirst⟩
  ending := by
    obtain ⟨t, ht, hending⟩ := hending
    exact ⟨t, by rw [List.getLast?_append, Option.mem_def.mp ht]; rfl, hending⟩

/-- Members behind an expression make it end with a name. -/
theorem members (h : PlainTokens a o ts) (hus : Members us) (hne : us ≠ []) :
    PlainTokens .name o (ts ++ us) :=
  h.append (.members hus) (fun t ht => by simp [(hus.isMark_head t ht).is]) (hus.exists_last hne)

/-- A number may end in the midst of a member, which then is read as a word of its own. -/
theorem number_cons (h : PlainTokens a false ts) (hkind : t.kind = .number) :
    PlainTokens a false (t :: ts) := by
  have hnumber : PlainTokens .number false [t] := .literal (.inr hkind) hkind
  exact hnumber.append h.toRow (fun u hu => (h.head_is u hu).2) h.ending

section

variable {first last : Token} {inner : List Token}

/-- What stands in brackets, as an operand. -/
theorem bracket {opening closing : String} (hrow : Row .operand (first :: (inner ++ [last])))
    (hfirst : first.IsMark opening) (hopening : opening ∈ ["(", "[", "\x7b"])
    (hlast : last.IsMark closing) :
    PlainTokens .other (opening == "\x7b") (first :: (inner ++ [last])) where
  toRow := hrow
  first := by
    refine ⟨first, rfl, .inr (.inr ?_), hfirst.is _⟩
    simp only [List.mem_cons, List.not_mem_nil, or_false] at hopening
    rcases hopening with rfl | rfl | rfl
    · exact .inl hfirst
    · exact .inr (.inl hfirst)
    · exact .inr (.inr hfirst)
  ending := by
    refine ⟨last, by rw [← List.cons_append, List.getLast?_concat]; rfl, ?_⟩
    rw [Ending.Ends, hlast.1]
    decide

/-- An expression in parentheses is one, whatever stands between them. -/
theorem group (hfirst : first.IsMark "(") (hinner : Row .items inner) (hlast : last.IsMark ")") :
    PlainTokens .other false (first :: (inner ++ [last])) := by
  have hinert : Inert .operand (first :: inner ++ [last]) :=
    .group hfirst hinner.inert hlast (by simp) .nil
  exact bracket (.enclosed hinert hinner hfirst (by decide) hlast (by decide)) hfirst (by decide)
    hlast

/-- A list in square brackets is an expression. -/
theorem square (hfirst : first.IsMark "[") (hinner : Row .items inner) (hlast : last.IsMark "]") :
    PlainTokens .other false (first :: (inner ++ [last])) := by
  have hinert : Inert .operand (first :: inner ++ [last]) :=
    .square hfirst hinner.inert hlast .nil
  exact bracket (.enclosed hinert hinner hfirst (by decide) hlast (by decide)) hfirst (by decide)
    hlast

/-- An object is an expression, and starts as one. -/
theorem object (hfirst : first.IsMark "\x7b") (hinner : Row .entries inner)
    (hlast : last.IsMark "\x7d") : PlainTokens .other true (first :: (inner ++ [last])) := by
  have hinert : Inert .operand (first :: inner ++ [last]) :=
    .object hfirst hinner.inert hlast .nil
  exact bracket (.enclosed hinert hinner hfirst (by decide) hlast (by decide)) hfirst (by decide)
    hlast

/-- Arguments stand behind an expression. -/
theorem call (h : PlainTokens a o ts) (hfirst : first.IsMark "(") (hinner : Row .items inner)
    (hlast : last.IsMark ")") : PlainTokens .other o (ts ++ first :: (inner ++ [last])) := by
  have hgroup := group hfirst hinner hlast
  exact h.append hgroup.toRow (fun t ht => (hgroup.head_is t ht).2) hgroup.ending

end

/-- A conditional expression ends as its last branch does and starts as its condition does. -/
theorem conditional {question colon : Token} {ws : List Token} {o'' : Bool} {c : Ending}
    (h : PlainTokens a o us) (hquestion : question.IsMark "?") (hvs : PlainTokens c o' vs)
    (hcolon : colon.IsMark ":") (hws : PlainTokens b o'' ws) :
    PlainTokens b o (us ++ question :: (vs ++ colon :: ws)) := by
  refine h.append ⟨.conditional hquestion hvs.inert hcolon hws.inert, ?_, ?_, ?_⟩
    (by simp [hquestion.is]) ?_
  · have hbranches : (vs ++ colon :: ws).IsChain Token.Meets :=
      isChain_between hvs.chain hvs.last (by simp [hcolon.is])
        (fun _ _ => hcolon.meets (by decide)) hws.chain
    refine List.isChain_cons.mpr ⟨fun t ht => hquestion.meets_operand ?_, hbranches⟩
    obtain ⟨u, hu, hfirst, -⟩ := hvs.first
    rw [List.head?_append, Option.mem_def.mp hu] at ht
    cases ht
    exact hfirst
  · simp only [List.forall_mem_cons, List.forall_mem_append]
    exact ⟨by simp [hquestion.is], hvs.arrowless, by simp [hcolon.is], hws.arrowless⟩
  all_goals
    rw [List.getLast?_cons_of_ne_nil (by simp), List.getLast?_append_of_ne_nil _ (by simp),
      List.getLast?_cons_of_ne_nil hws.ne_nil]
  · exact hws.last
  · exact hws.ending

end PlainTokens

/-- The text is read as an expression, also with members behind it. -/
def PlainTakes (a : Ending) (object : Bool) (text : String) : Prop :=
  ∀ members, Phrase (text ++ dotted members) Delimits (PlainTokens (a.members members) object)

/-- An expression is read as one without members behind it. -/
theorem PlainTakes.phrase (h : PlainTakes a o text) : Phrase text Delimits (PlainTokens a o) := by
  simpa [dotted, Ending.members] using h []

/-- Members behind anything but a number make a name of its end. -/
theorem Ending.members_eq_name {members : List PlainName} (ha : a ≠ .number) (hne : members ≠ []) :
    a.members members = .name := by
  have hname : ∀ members, Ending.name.members members = .name := by
    intro members
    induction members with
    | nil => rfl
    | cons x members ih => exact ih
  obtain ⟨x, members, rfl⟩ := List.exists_cons_of_ne_nil hne
  cases a with
  | number => exact absurd rfl ha
  | name => exact hname members
  | other => exact hname members

/-- What is read in front of members takes them. -/
theorem Phrase.plainTakes (ha : a ≠ .number)
    (h : Phrase text (fun c => Delimits c ∨ c = '.') (PlainTokens a o)) : PlainTakes a o text := by
  intro members
  refine (h.members members).mono (fun _ => id) ?_
  rintro _ ⟨us, vs, rfl, hus, hvs, hempty⟩
  by_cases hmembers : members = []
  · rw [hempty.mpr hmembers, List.append_nil, hmembers]
    exact hus
  · rw [Ending.members_eq_name ha hmembers]
    exact hus.members hvs (mt hempty.mp hmembers)

/-- A text that ends with a quote or a bracket may be followed by everything. -/
theorem Phrase.plainTakes_of_closed (h : Phrase text (fun _ => True) (PlainTokens .other o)) :
    PlainTakes .other o text :=
  (h.mono (fun _ _ => trivial) fun _ => id).plainTakes (by decide)

/-- What members behind a number end with. -/
theorem Ending.members_number (members : List PlainName) : Ending.number.members members =
    if '$' ∈ (dotted members).toList then .name else .number := by
  induction members with
  | nil => simp [Ending.members, dotted]
  | cons x members ih =>
    have hpoint : ".".toList = ['.'] := rfl
    by_cases hdollar : '$' ∈ x.text.toList
    · have hname : Ending.number.members (x :: members) = Ending.name.members members := by
        simp [Ending.members, Ending.member, hdollar]
      rw [hname, if_pos (by simp [dotted, hdollar])]
      by_cases hmembers : members = []
      · rw [hmembers]
        rfl
      · exact members_eq_name (by decide) hmembers
    · have hnumber : Ending.number.members (x :: members) = Ending.number.members members := by
        simp [Ending.members, Ending.member, hdollar]
      simp [hnumber, ih, dotted, hdollar, hpoint]

/-- A name takes members. -/
theorem PlainName.plainTakes (x : PlainName) : PlainTakes .name false x.text := by
  have hname : Phrase x.text (fun c => Delimits c ∨ c = '.') (PlainTokens .name false) := by
    refine (phrase_name x).mono (fun _ => id) ?_
    rintro _ ⟨t, rfl, ht⟩
    exact .name ht
  exact hname.plainTakes (by decide)

/-- A string takes members. -/
theorem StringLiteral.plainTakes (s : StringLiteral) : PlainTakes .other false s.text := by
  refine ((phrase_string s).mono (fun _ => id) ?_).plainTakes_of_closed
  rintro _ ⟨t, rfl, hkind, -⟩
  exact .literal (.inl hkind) (by rw [Ending.Ends, hkind]; decide)

/-- What continues a number is read with it. -/
theorem lexes_numberParts {lead : String} (hlead : lead = "" ∨ lead = " ") (n : NumberLiteral)
    (hpart : ∀ c ∈ text.toList, isNumberPart c = true) :
    Lexes (lead ++ (n.text ++ text)) (StopsAt .number (n.text ++ text))
      (IsToken .number (n.text ++ text)) := by
  have htext : (n.text ++ text).toList = n.first :: (n.rest ++ n.exponent ++ text.toList) := by
    simp [NumberLiteral.text]
  refine lexes_number hlead htext n.first_isDigit ?_
  have hparts : ∀ hexadecimal c, numberTail hexadecimal c text.toList = [] :=
    fun _ _ => numberTail_eq_nil hpart
  cases hrest : n.rest ++ n.exponent with
  | nil => exact hparts _ _
  | cons d rest =>
    have hself := n.numberTail_eq_nil
    rw [hrest] at hself
    rw [List.cons_append, isHexadecimal_append, ← List.cons_append, numberTail_append hself]
    exact hparts _ _

/-- A number is read with the members that are written behind it. -/
theorem NumberLiteral.plainTakes (n : NumberLiteral) : PlainTakes .number false n.text := by
  intro members lead hlead
  rw [Ending.members_number]
  rcases dotted_eq members with hpart | ⟨front, x, others, heq, hx, hfront⟩
  · have hdollar : '$' ∉ (dotted members).toList := fun hmem => absurd (hpart _ hmem) (by decide)
    rw [if_neg hdollar]
    refine ((lexes_numberParts hlead n hpart).mono ?_).stops_mono fun _ hc => delimits_number hc
    rintro _ ⟨t, rfl, hkind, -⟩
    exact .literal (.inr hkind) hkind
  · obtain ⟨rest, hrest⟩ := List.head?_eq_some_iff.mp hx
    rw [heq, if_pos (by simp [hrest]),
      show lead ++ (n.text ++ (front ++ (x.text ++ dotted others))) =
        lead ++ (n.text ++ front) ++ (x.text ++ dotted others) by simp only [String.append_assoc]]
    refine (lexes_numberParts hlead n hfront).join (x.plainTakes others).plain ?_ ?_
    · rw [String.toList_append, hrest]
      rintro _ ⟨⟩
      rfl
    · rintro _ us ⟨t, rfl, hkind, -⟩ hus
      have hname : Ending.name.members others = .name := by
        by_cases hothers : others = []
        · rw [hothers]
          rfl
        · exact Ending.members_eq_name (by decide) hothers
      rw [hname] at hus
      exact hus.number_cons hkind

section

variable {items : List String}

/-- A list of expressions up to the bracket that closes it. -/
theorem lexes_row (close : String) (hclose : close ∈ closers) (hplace : place ≠ .operand)
    (hitems : ∀ x ∈ items, Phrase x Delimits fun ts => Row place ts ∧ ts ≠ []) :
    Lexes (", ".intercalate items ++ close) (fun _ => True) (IsClosed (Row place) close) := by
  -- What stands behind an entry is no block, for it is empty or starts with a comma.
  refine lexes_intercalate "," close (by decide) hclose hitems .nil
    (Q := fun ts => Row place ts ∧ ∀ t ∈ ts.head?, t.is "\x7b" = false) ⟨.nil, by simp⟩ ?_ ?_
  · rintro t us vs ht ⟨hus, hne⟩ ⟨hvs, hhead⟩
    refine ⟨.comma hplace ht (hus.append hvs hhead) (by simp [hne]), ?_⟩
    rintro _ ⟨⟩
    simp [ht.is]
  · rintro us vs ⟨hus, -⟩ ⟨hvs, hhead⟩
    exact hus.append hvs hhead

/-- The items of a list are read as rows that are not empty. -/
theorem phrase_plainItems {items : List PlainExpr}
    (h : ∀ e ∈ items, PlainTakes e.ending e.startsObject e.text) :
    ∀ x ∈ PlainExpr.texts items, Phrase x Delimits fun ts => Row .items ts ∧ ts ≠ [] := by
  rw [PlainExpr.texts_eq_map]
  intro x hx
  obtain ⟨e, he, rfl⟩ := List.mem_map.mp hx
  exact (h e he).phrase.mono (fun _ => id) fun _ hts => ⟨hts.toRow.of_operand, hts.ne_nil⟩

/-- The entries of an object are read as rows that are not empty. -/
theorem phrase_plainEntries {entries : List (PlainName × PlainExpr)}
    (h : ∀ p ∈ entries, PlainTakes p.2.ending p.2.startsObject p.2.text) :
    ∀ x ∈ PlainExpr.entryTexts entries, Phrase x Delimits fun ts => Row .entries ts ∧ ts ≠ [] := by
  rw [PlainExpr.entryTexts_eq_map]
  intro x hx
  obtain ⟨p, hp, rfl⟩ := List.mem_map.mp hx
  refine (phrase_entry p.1 (h p hp).phrase).mono (fun _ => id) ?_
  rintro _ ⟨name, colon, us, rfl, hname, hcolon, hus⟩
  exact ⟨.key hname hcolon hus.toRow.of_operand hus.ne_nil, by simp⟩

end

/-- Arguments in their brackets. -/
theorem phrase_arguments {arguments : List PlainExpr}
    (h : ∀ e ∈ arguments, PlainTakes e.ending e.startsObject e.text) :
    Phrase ("(" ++ ", ".intercalate (PlainExpr.texts arguments) ++ ")") (fun _ => True) fun ts =>
      ∃ first inner last, ts = first :: (inner ++ [last]) ∧ first.IsMark "(" ∧ Row .items inner ∧
        last.IsMark ")" := by
  refine (phrase_between "(" ")" (by decide) (lexes_row ")" (by decide) (by decide)
    (phrase_plainItems h))).mono (fun _ => id) ?_
  rintro _ ⟨first, inner, last, rfl, hfirst, -, hinner, hlast⟩
  exact ⟨first, inner, last, rfl, hfirst, hinner, hlast⟩

/-- Every expression of a switch statement is read as its tokens, with the members that are
written behind it. -/
theorem PlainExpr.plainTakes (e : PlainExpr) : PlainTakes e.ending e.startsObject e.text := by
  induction e with
  | name x => exact x.plainTakes
  | number n => exact n.plainTakes
  | string s => exact s.plainTakes
  | member e x ih =>
    intro members
    rw [show (PlainExpr.member e x).text ++ dotted members = e.text ++ dotted (x :: members) by
      simp only [PlainExpr.text, dotted, String.append_assoc]]
    exact ih (x :: members)
  | call e arguments ih ihArguments =>
    rw [show (PlainExpr.call e arguments).text = e.text ++
      ("(" ++ ", ".intercalate (PlainExpr.texts arguments) ++ ")") by
        simp only [PlainExpr.text, String.append_assoc]]
    have hcall : Phrase (e.text ++ ("(" ++ ", ".intercalate (PlainExpr.texts arguments) ++ ")"))
        (fun _ => True) (PlainTokens .other e.startsObject) := by
      refine ih.phrase.join (phrase_arguments ihArguments).plain (by simp [Delimits, delimiters]) ?_
      rintro us _ hus ⟨first, inner, last, rfl, hfirst, hinner, hlast⟩
      exact hus.call hfirst hinner hlast
    exact hcall.plainTakes_of_closed
  | array items ih =>
    have hlist := phrase_between "[" "]" (by decide) (lexes_row "]" (by decide) (by decide)
      (phrase_plainItems ih))
    refine (hlist.mono (fun _ => id) ?_).plainTakes_of_closed
    rintro _ ⟨first, inner, last, rfl, hfirst, -, hinner, hlast⟩
    exact .square hfirst hinner hlast
  | object entries ih =>
    have hlist := phrase_between "\x7b" "\x7d" (by decide) (lexes_row "\x7d" (by decide) (by decide)
      (phrase_plainEntries ih))
    refine (hlist.mono (fun _ => id) ?_).plainTakes_of_closed
    rintro _ ⟨first, inner, last, rfl, hfirst, -, hinner, hlast⟩
    exact .object hfirst hinner hlast
  | group e ih =>
    have hgroup := phrase_between "(" ")" (by decide) (lexes_closed ")" (by decide) ih.phrase)
    refine (hgroup.mono (fun _ => id) ?_).plainTakes_of_closed
    rintro _ ⟨first, inner, last, rfl, hfirst, -, hinner, hlast⟩
    exact .group hfirst hinner.toRow.of_operand hlast
  | conditional test yes no ihTest ihYes ihNo =>
    intro members
    have hno := lexes_operator ":" (by decide) (ihNo members)
    have hyes : Phrase (yes.text ++ (" " ++ ":" ++ " " ++ (no.text ++ dotted members))) Delimits
        fun ts => ∃ us colon vs, ts = us ++ colon :: vs ∧
          PlainTokens yes.ending yes.startsObject us ∧ colon.IsMark ":" ∧
            PlainTokens (no.ending.members members) no.startsObject vs := by
      refine ihYes.phrase.join hno (by simp [Delimits, delimiters]) ?_
      rintro us _ hus ⟨colon, vs, rfl, hcolon, hvs⟩
      exact ⟨us, colon, vs, rfl, hus, hcolon, hvs⟩
    have hbranches := lexes_operator "?" (by decide) hyes
    have hquestion : " ? " = " " ++ "?" ++ " " := rfl
    have hcolon : " : " = " " ++ ":" ++ " " := rfl
    rw [show (PlainExpr.conditional test yes no).text ++ dotted members = test.text ++
      (" " ++ "?" ++ " " ++ (yes.text ++ (" " ++ ":" ++ " " ++ (no.text ++ dotted members)))) by
        simp only [PlainExpr.text, hquestion, hcolon, String.append_assoc]]
    refine ihTest.phrase.join hbranches (by simp [Delimits, delimiters]) ?_
    rintro us _ hus ⟨question, _, rfl, hquestion, vs, colon, ws, rfl, hvs, hcolon, hws⟩
    exact hus.conditional hquestion hvs hcolon hws

end Workflow.Script
