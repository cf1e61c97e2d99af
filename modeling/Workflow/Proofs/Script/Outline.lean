import Mathlib.Data.List.Infix
import Mathlib.Data.List.ModifyLast
import Workflow.Proofs.Script.MemberName

/-!
# Expressions outside of their brackets

Outside of its brackets an expression is a row of operands with operators between them. A word
of such a row could be taken for the name of a member only behind a product sign, and something
could be removed there only in front of a colon, or of a question mark that a round bracket
follows. So a row without these is left alone in the body of a class, whatever its brackets
hold.
-/

namespace Workflow.Script

/-- A part of an expression that stands outside of its brackets. -/
inductive Piece where
  /-- An operand that is a name and nothing else. -/
  | name
  /-- An operand that starts with a round bracket. -/
  | round
  /-- Any other operand. -/
  | other
  /-- What stands between two operands. -/
  | operator (text : String)
  deriving DecidableEq

/-- An operand with members, arguments or an index behind it. -/
def Piece.extended : Piece → Piece
  | .name => .other
  | p => p

/-- A row with members, arguments or an index behind its last operand. -/
def extendLast (ps : List Piece) : List Piece := ps.modifyLast Piece.extended

/-- The row of operands and operators that an expression is outside of its brackets. -/
def Expr.outline : Expr → List Piece
  | .name _ => [.name]
  | .integer _ => [.other]
  | .string _ => [.other]
  | .member e _ => extendLast e.outline
  | .call e _ => extendLast e.outline
  | .index e _ => extendLast e.outline
  | .array _ => [.other]
  | .object _ => [.other]
  | .group _ => [.round]
  | .arrow _ body => .round :: .operator "=>" :: body.outline
  | .conditional test yes no =>
    test.outline ++ .operator "?" :: (yes.outline ++ .operator ":" :: no.outline)
  | .binary operator left right => left.outline ++ .operator operator.text :: right.outline

/-- In the body of a class, a name behind a product sign would be taken for the name of a
member, and the colon behind it or the question mark for a part of its declaration. -/
def Misread (ps : List Piece) : Prop :=
  [.operator "*", .name, .operator ":"] <:+: ps ∨
    [.operator "*", .name, .operator "?", .round] <:+: ps

instance (ps : List Piece) : Decidable (Misread ps) := inferInstanceAs (Decidable (_ ∨ _))

variable {p : Piece} {ps qs : List Piece} {t next : Token} {ts us vs before behind : List Token}
  {text : String}

/-- A piece is extended once and for all. -/
@[simp] theorem Piece.extended_extended (p : Piece) : p.extended.extended = p.extended := by
  cases p <;> rfl

/-- The last piece is extended, whatever stands in front. -/
theorem extendLast_append (h : ps ≠ []) : extendLast (qs ++ ps) = qs ++ extendLast ps :=
  List.modifyLast_append_of_right_ne_nil _ _ _ h

@[simp] theorem extendLast_concat : extendLast (ps ++ [p]) = ps ++ [p.extended] :=
  List.modifyLast_concat _ _ _

/-- To extend a piece leaves none out. -/
theorem extendLast_ne_nil (h : ps ≠ []) : extendLast ps ≠ [] := by
  rcases List.eq_nil_or_concat' ps with rfl | ⟨front, p, rfl⟩
  · exact absurd rfl h
  · simp

/-- The last piece is extended once and for all. -/
@[simp] theorem extendLast_extendLast : extendLast (extendLast ps) = extendLast ps := by
  rcases List.eq_nil_or_concat' ps with rfl | ⟨front, p, rfl⟩
  · rfl
  · simp

/-- What is misread behind a piece is misread with it. -/
theorem Misread.cons (h : Misread ps) : Misread (p :: ps) :=
  h.imp List.infix_cons List.infix_cons

/-- An expression has pieces. -/
theorem Expr.outline_ne_nil (e : Expr) : e.outline ≠ [] := by
  induction e with
  | member e x ih | call e arguments ih _ | index e key ih _ => exact extendLast_ne_nil ih
  | _ => simp [outline]

/-- Behind none of the tokens that stand outside of their brackets a word is taken for the name
of a member. -/
def StartsNoMember (ts : List Token) : Prop :=
  ∀ front u t back, ts = front ++ u :: t :: back → depth (front ++ [u]) = 0 → t.kind = .word →
    ¬ u.StartsMember

/-- The tokens of an operand. -/
structure OperandTokens (p : Piece) (ts : List Token) : Prop where
  level : depth ts = 0
  first : ∃ t rest, ts = t :: rest ∧ (∀ text ∈ [":", "<", "=", ";"], t.is text = false) ∧
    (t.is "(" = true → p = .round) ∧
    (t.kind = .word → rest = [] ∧ p = .name ∨ ∃ u ∈ rest.head?, u.Unmarked)
  later : StartsNoMember ts

/-- The tokens of members, arguments or an index. -/
structure ExtensionTokens (ts : List Token) : Prop where
  level : depth ts = 0
  first : ∃ t ∈ ts.head?, t.kind ≠ .word ∧ t.Unmarked
  later : StartsNoMember ts

/-- The operators between operands. -/
def outlineMarks : List String := ["+", "-", "*", "&&", "||", "??", "===", "?", ":", "=>"]

/-- The tokens of an expression are those of the operands and operators of a row. -/
inductive Outlined : List Token → List Piece → Prop
  | operand {p : Piece} {ts : List Token} : OperandTokens p ts → Outlined ts [p]
  | operator {p : Piece} {ps : List Piece} {us ts : List Token} {t : Token} {text : String} :
      OperandTokens p us → t.IsMark text → text ∈ outlineMarks → Outlined ts ps →
      Outlined (us ++ t :: ts) (p :: .operator text :: ps)

/-- A single token holds no member. -/
theorem startsNoMember_singleton : StartsNoMember [t] := by
  intro front u v back hsplit
  have hlength := congrArg List.length hsplit
  simp at hlength
  omega

/-- Tokens may go on with ones that start with no word. -/
theorem StartsNoMember.append (hus : StartsNoMember us) (hvs : StartsNoMember vs)
    (hlevel : depth us = 0) (hfirst : ∀ t ∈ vs.head?, t.kind ≠ .word) :
    StartsNoMember (us ++ vs) := by
  intro front u t back hsplit hfront hkind
  rw [show front ++ u :: t :: back = (front ++ [u]) ++ t :: back by simp] at hsplit
  rcases List.append_eq_append_iff.mp hsplit with ⟨a, ha, rfl⟩ | ⟨c, rfl, hc⟩
  · rcases List.eq_nil_or_concat' a with rfl | ⟨a, v, rfl⟩
    · exact absurd hkind (hfirst t rfl)
    · rw [← List.append_assoc] at ha
      obtain ⟨rfl, hu⟩ := List.append_inj' ha rfl
      cases hu
      refine hvs a u t back (by simp) ?_ hkind
      simpa [hlevel] using hfront
  · rcases List.cons_eq_append_iff.mp hc with ⟨rfl, rfl⟩ | ⟨c, rfl, rfl⟩
    · exact absurd hkind (hfirst t rfl)
    · exact hus front u t c (by simp) hfront hkind

/-- Inside of a bracket, nothing stands outside of all brackets. -/
theorem startsNoMember_group {first last : Token} {inner : List Token} {shape : Bracket}
    (hopen : first.opens? = some shape) (hinner : Balanced inner) :
    StartsNoMember (first :: (inner ++ [last])) := by
  intro front u t back hsplit hfront
  have hsplit' : first :: (inner ++ [last]) = (front ++ [u]) ++ t :: back := by simpa using hsplit
  have hpos := hinner.depth_pos_of_group hopen hsplit' (by simp) (by simp)
  omega

namespace OperandTokens

/-- A name is an operand that may be taken for that of a member. -/
theorem name (ht : t.IsName) : OperandTokens .name [t] where
  level := by simp [ht.isNoBracket.weight_eq]
  first := by
    refine ⟨t, [], rfl, fun text hmem => ?_, fun hround => ?_, fun _ => .inl ⟨rfl, rfl⟩⟩
    · refine ht.is_eq_false (.inr ?_)
      revert text
      decide
    · rw [ht.is_eq_false (.inr (by decide))] at hround
      cases hround
  later := startsNoMember_singleton

/-- A string or a number is an operand that is taken for no member. -/
theorem literal (ht : t.kind = .string ∨ t.kind = .number) : OperandTokens .other [t] where
  level := by simp [(Token.isNoBracket_of_literal ht).weight_eq]
  first := by
    refine ⟨t, [], rfl, fun text _ => Token.is_eq_false ht, fun hround => ?_, fun hkind => ?_⟩
    · rw [Token.is_eq_false ht] at hround
      cases hround
    · rcases ht with ht | ht <;> cases ht.symm.trans hkind
  later := startsNoMember_singleton

/-- A group in brackets is an operand, and told as such if its brackets are round. -/
theorem bracket {first last : Token} {inner : List Token} (shape : Bracket)
    (hfirst : first.IsMark (String.singleton shape.opening))
    (hlast : last.IsMark (String.singleton shape.closing)) (hinner : Balanced inner) :
    OperandTokens (if shape = .round then .round else .other) (first :: (inner ++ [last])) where
  level := by
    simp [Token.weight_of_opens? (hfirst.opens? shape),
      Token.weight_of_closes? (hlast.closes? shape), hinner.depth_eq]
  first := by
    refine ⟨first, _, rfl, ?_, fun hround => ?_, fun hkind => ?_⟩
    · cases shape <;> simp [hfirst.is, Bracket.opening]
    · cases shape <;> simp [hfirst.is, Bracket.opening] at hround ⊢
    · cases hfirst.1.symm.trans hkind
  later := startsNoMember_group (hfirst.opens? shape) hinner

/-- Members and groups behind an operand extend it. -/
theorem extend (h : OperandTokens p ts) (hus : ExtensionTokens us) :
    OperandTokens p.extended (ts ++ us) where
  level := by rw [depth_append, h.level, hus.level, Int.add_zero]
  first := by
    obtain ⟨t, rest, rfl, his, hround, hword⟩ := h.first
    obtain ⟨u, hu, -, hunmarked⟩ := hus.first
    refine ⟨t, rest ++ us, rfl, his, fun hmark => ?_, fun hkind => .inr ?_⟩
    · rw [hround hmark]
      rfl
    · rcases hword hkind with ⟨rfl, -⟩ | ⟨v, hv, hv'⟩
      · exact ⟨u, hu, hunmarked⟩
      · exact ⟨v, by rw [List.head?_append, Option.mem_def.mp hv]; rfl, hv'⟩
  later := by
    obtain ⟨u, hu, hkind, -⟩ := hus.first
    refine h.later.append hus.later h.level fun v hv => ?_
    obtain rfl := Option.mem_unique hu hv
    exact hkind

/-- An operand that begins with a number cannot be read as a member of a class. -/
theorem number_cons (h : OperandTokens p ts) (hkind : t.kind = .number)
    (htext : t.text ∉ Erasure.memberPrefixes) : OperandTokens .other (t :: ts) where
  level := by
    rw [depth_cons, (Token.isNoBracket_of_literal (.inr hkind)).weight_eq, h.level]
    rfl
  first := by
    refine ⟨t, ts, rfl, fun text _ => Token.is_eq_false (.inr hkind), fun hround => ?_,
      fun hword => ?_⟩
    · rw [Token.is_eq_false (.inr hkind)] at hround
      cases hround
    · cases hkind.symm.trans hword
  later := by
    intro front u v back hsplit hfront hword
    rcases List.cons_eq_append_iff.mp hsplit with ⟨rfl, hts⟩ | ⟨front, rfl, hts⟩
    · obtain ⟨rfl, -⟩ := List.cons.inj hts
      have his : ∀ text, u.is text = false := fun text => Token.is_eq_false (.inr hkind)
      simpa [Token.StartsMember, his] using htext
    · refine h.later front u v back hts ?_ hword
      simpa [(Token.isNoBracket_of_literal (.inr hkind)).weight_eq] using hfront

end OperandTokens

/-- Members start with a point. -/
theorem Members.isMark_head (h : Members ts) : ∀ t ∈ ts.head?, t.IsMark "." := by
  cases h with
  | nil => simp
  | cons hpoint _ _ => simpa using hpoint

/-- Members leave the depth of brackets as it is. -/
theorem Members.depth_eq (h : Members ts) : depth ts = 0 := by
  induction h with
  | nil => rfl
  | cons hpoint hname _ ih =>
    simp [(hpoint.isNoBracket (by decide)).weight_eq, hname.isNoBracket.weight_eq, ih]

/-- No name of a member of a class stands behind a point. -/
theorem Members.startsNoMember (h : Members ts) : StartsNoMember ts := by
  induction h with
  | nil => simp [StartsNoMember]
  | @cons point name ts hpoint hname hts ih =>
    have hpair : StartsNoMember [point, name] := by
      intro front u t back hsplit _ _
      rcases List.cons_eq_append_iff.mp hsplit with ⟨rfl, hpair⟩ | ⟨front, rfl, hname⟩
      · obtain ⟨rfl, -⟩ := List.cons.inj hpair
        simp [Token.StartsMember, hpoint.is, hpoint.2, Erasure.memberPrefixes]
      · have hlength := congrArg List.length hname
        simp at hlength
        omega
    have hlevel : depth [point, name] = 0 := (Members.cons hpoint hname .nil).depth_eq
    refine hpair.append ih hlevel fun t ht => ?_
    rw [(hts.isMark_head t ht).1]
    decide

namespace ExtensionTokens

/-- Members extend the operand in front of them. -/
theorem members (h : Members ts) (hne : ts ≠ []) : ExtensionTokens ts where
  level := h.depth_eq
  first := by
    obtain ⟨t, rest, rfl⟩ := List.exists_cons_of_ne_nil hne
    have hpoint := h.isMark_head t rfl
    exact ⟨t, rfl, by rw [hpoint.1]; decide, hpoint.unmarked (by decide)⟩
  later := h.startsNoMember

/-- A group in brackets extends the operand in front of it. -/
theorem bracket {first last : Token} {inner : List Token} (shape : Bracket)
    (hfirst : first.IsMark (String.singleton shape.opening))
    (hlast : last.IsMark (String.singleton shape.closing)) (hinner : Balanced inner) :
    ExtensionTokens (first :: (inner ++ [last])) where
  level := (OperandTokens.bracket shape hfirst hlast hinner).level
  first := by
    exact ⟨first, rfl, by rw [hfirst.1]; decide, hfirst.unmarked (by cases shape <;> decide)⟩
  later := startsNoMember_group (hfirst.opens? shape) hinner

end ExtensionTokens

/-- What comes before or behind the tokens of an operand is no part of it. -/
theorem OperandTokens.noMembers (h : OperandTokens p ts) (hline : ∀ t ∈ ts, t.startsLine = false)
    (hbefore : ∀ u ∈ before.head?, u.StartsMember → p = .name → continuesMember behind = false) :
    NoMembers before ts behind where
  line := hline
  names := by
    rintro front t back rfl hfront hkind u hu hstarts
    rcases List.eq_nil_or_concat' front with rfl | ⟨front, v, rfl⟩
    · obtain ⟨v, rest, heq, -, -, hword⟩ := h.first
      obtain ⟨rfl, rfl⟩ := List.cons.inj heq
      rcases hword hkind with ⟨rfl, rfl⟩ | ⟨v, hv, hunmarked⟩
      · exact hbefore u (by simpa using hu) hstarts rfl
      · obtain ⟨rest, rfl⟩ := List.head?_eq_some_iff.mp hv
        exact hunmarked.continuesMember_eq _
    · have hlast : u = v := by simpa using hu.symm
      subst hlast
      exact absurd hstarts (h.later front u t back (by simp) hfront hkind)

namespace Outlined

/-- Tokens with an outline have pieces. -/
theorem ne_nil (h : Outlined ts ps) : ps ≠ [] := by
  cases h <;> simp

/-- The first token of an expression goes on with no member, and a round bracket is its first piece.
-/
theorem exists_first (h : Outlined ts ps) : ∃ t rest, ts = t :: rest ∧
    (∀ text ∈ [":", "<", "=", ";"], t.is text = false) ∧
    (t.is "(" = true → ∃ others, ps = .round :: others) := by
  cases h with
  | operand h =>
    obtain ⟨t, rest, rfl, his, hround, -⟩ := h.first
    exact ⟨t, rest, rfl, his, fun hmark => ⟨[], by rw [hround hmark]⟩⟩
  | operator h _ _ _ =>
    obtain ⟨t, rest, rfl, his, hround, -⟩ := h.first
    exact ⟨t, _, rfl, his, fun hmark => ⟨_, by rw [hround hmark]⟩⟩

/-- Two outlines with an operator between them make up one. -/
theorem join (h : Outlined us ps) (ht : t.IsMark text) (hmem : text ∈ outlineMarks)
    (h' : Outlined vs qs) : Outlined (us ++ t :: vs) (ps ++ .operator text :: qs) := by
  induction h with
  | operand h => exact .operator h ht hmem h'
  | operator h ht' hmem' _ ih =>
    rw [List.append_assoc]
    exact .operator h ht' hmem' ih

/-- What is put behind an expression extends its last piece. -/
theorem extend (h : Outlined ts ps) (hus : ExtensionTokens us) :
    Outlined (ts ++ us) (extendLast ps) := by
  induction h with
  | operand h => exact .operand (h.extend hus)
  | @operator p ps us ts t text h ht hmem hrest ih =>
    rw [List.append_assoc, List.cons_append,
      show p :: .operator text :: ps = [p, .operator text] ++ ps from rfl,
      extendLast_append hrest.ne_nil]
    exact .operator h ht hmem ih

/-- A number may end in the midst of a member, which then is read as a word of its own. -/
theorem number_cons (h : Outlined ts [p]) (hkind : t.kind = .number)
    (htext : t.text ∉ Erasure.memberPrefixes) : Outlined (t :: ts) [.other] := by
  cases h with
  | operand h => exact .operand (h.number_cons hkind htext)

/-- What follows a name behind a product sign does not go on like a member of a class. -/
theorem continuesMember_eq_false (h : Outlined ts ps) (ht : t.IsMark text)
    (hmem : text ∈ outlineMarks)
    (hps : ¬ Misread (.operator "*" :: .name :: .operator text :: ps)) :
    continuesMember (t :: ts ++ behind) = false := by
  obtain ⟨u, rest, rfl, his, hround⟩ := h.exists_first
  have hcolon : text ≠ ":" := by
    rintro rfl
    exact hps (.inl ⟨[], ps, rfl⟩)
  by_cases hquestion : text = "?"
  · subst hquestion
    have hgroup : u.is "(" = false := by
      rw [Bool.eq_false_iff]
      intro hmark
      obtain ⟨others, rfl⟩ := hround hmark
      exact hps (.inr ⟨[], others, rfl⟩)
    simp only [List.mem_cons, List.not_mem_nil, or_false, forall_eq_or_imp, forall_eq] at his
    simp [continuesMember, ht.is, hgroup, his]
  · have hother : text ≠ "<" ∧ text ≠ "!" := by
      constructor <;> rintro rfl <;> revert hmem <;> decide
    simp [continuesMember, ht.is, hcolon, hquestion, hother]

/-- Of the operators, only a product sign may stand in front of the name of a member. -/
theorem eq_product (ht : t.IsMark text) (hmem : text ∈ outlineMarks) (hstarts : t.StartsMember) :
    text = "*" := by
  have hall : ∀ text ∈ outlineMarks, text = "\x7b" ∨ text = ";" ∨ text = "\x7d" ∨
      text ∈ Erasure.memberPrefixes → text = "*" := by
    decide
  refine hall text hmem ?_
  simpa [Token.StartsMember, ht.is, ht.2] using hstarts

/-- No word of a row is taken for the name of a member, if the row is not misread. -/
theorem noMembers (h : Outlined ts ps) (hline : ∀ t ∈ ts, t.startsLine = false)
    (hps : ¬ Misread ps)
    (hbefore : ∀ u ∈ before.head?, u.StartsMember → ¬ Misread (.operator "*" :: ps))
    (hnext : continuesMember (next :: behind) = false) :
    NoMembers before ts (next :: behind) := by
  induction h generalizing before with
  | operand h => exact h.noMembers hline fun _ _ _ _ => hnext
  | @operator p ps us ts t text h ht hmem hrest ih =>
    simp only [List.forall_mem_append, List.forall_mem_cons] at hline
    obtain ⟨hus, htline, hts⟩ := hline
    have hfirst : NoMembers before us ((t :: ts) ++ next :: behind) := by
      refine h.noMembers hus fun u hu hstarts hname => ?_
      subst hname
      exact hrest.continuesMember_eq_false ht hmem (hbefore u hu hstarts)
    have hoperator : NoMembers (us.reverse ++ before) [t] (ts ++ next :: behind) := by
      refine ⟨by simpa using htline, ?_⟩
      rintro front u back hsplit - hkind
      have hu : u ∈ [t] := by simp [hsplit]
      rw [List.mem_singleton.mp hu, ht.1] at hkind
      cases hkind
    have hlevel : depth [t] = 0 := by
      have hbracket : text ∉ ["(", "[", "\x7b", ")", "]", "\x7d"] := by
        clear ht hps hbefore
        revert text
        decide
      simp [(ht.isNoBracket hbracket).weight_eq]
    have hbehind : NoMembers ([t].reverse ++ (us.reverse ++ before)) ts (next :: behind) := by
      refine ih hts (fun h => hps h.cons.cons) ?_
      rintro u ⟨⟩ hstarts
      rw [← eq_product ht hmem hstarts]
      exact fun h => hps h.cons
    exact hfirst.append h.level (hoperator.append hlevel hbehind)

end Outlined

end Workflow.Script
