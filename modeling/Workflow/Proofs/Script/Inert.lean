import Mathlib.Data.List.Chain
import Workflow.Proofs.Script.MemberName

/-!
# Expressions that erasure leaves alone

An expression without types is followed as the sequence of its tokens. What a token does to
the state is undone at a later one: a bracket is closed, and a question mark meets its colon.
So a run comes out of the expression in the state in which it went in.
-/

namespace Workflow.Script

/-- Where tokens of an expression stand. -/
inductive Place where
  /-- Commas would end the expression. -/
  | operand
  /-- Commas stand between expressions. -/
  | items
  /-- Commas stand between the entries of an object literal. -/
  | entries
  deriving DecidableEq

/-- The token is an operator between operands. -/
def Token.IsOperator (t : Token) : Prop :=
  ∃ text ∈ [".", "+", "-", "*", "&&", "||", "??", "==="], t.IsMark text

/-- The tokens belong to expressions without types. -/
inductive Inert : Place → List Token → Prop
  | nil {place : Place} : Inert place []
  | name {place : Place} {t : Token} {ts : List Token} : t.IsName → Inert place ts →
      Inert place (t :: ts)
  | literal {place : Place} {t : Token} {ts : List Token} : t.kind = .string ∨ t.kind = .number →
      Inert place ts → Inert place (t :: ts)
  | operator {place : Place} {t : Token} {ts : List Token} : t.IsOperator → Inert place ts →
      Inert place (t :: ts)
  | comma {place : Place} {t : Token} {ts : List Token} : place ≠ .operand → t.IsMark "," →
      Inert place ts → Inert place (t :: ts)
  | key {name colon : Token} {ts : List Token} : name.IsName → colon.IsMark ":" →
      Inert .entries ts → Inert .entries (name :: colon :: ts)
  | conditional {place : Place} {question colon : Token} {ts us : List Token} :
      question.IsMark "?" → Inert .operand ts → colon.IsMark ":" → Inert place us →
      Inert place (question :: (ts ++ colon :: us))
  | group {place : Place} {first last : Token} {inner ts : List Token} : first.IsMark "(" →
      Inert .items inner → last.IsMark ")" → (∀ t ∈ ts.head?, t.is "\x7b" = false) →
      Inert place ts → Inert place (first :: (inner ++ last :: ts))
  | square {place : Place} {first last : Token} {inner ts : List Token} : first.IsMark "[" →
      Inert .items inner → last.IsMark "]" → Inert place ts →
      Inert place (first :: (inner ++ last :: ts))
  | object {place : Place} {first last : Token} {inner ts : List Token} : first.IsMark "\x7b" →
      Inert .entries inner → last.IsMark "\x7d" → Inert place ts →
      Inert place (first :: (inner ++ last :: ts))
  | arrow {place : Place} {first last arrow : Token} {inner ts : List Token} : first.IsMark "(" →
      (∀ t ∈ inner, t.IsName ∨ t.IsMark ",") → last.IsMark ")" → arrow.IsMark "=>" →
      Inert place ts → Inert place (first :: (inner ++ last :: arrow :: ts))

/-- What has to be known of the innermost frame for tokens at a place to be left alone. -/
structure Place.Allows (place : Place) (f : Frame) : Prop where
  parameters : f.kind ≠ .parameters
  settled : Erasure.Settled f
  items : place ≠ .operand → f.declaration = none
  entries : place = .entries → f.conditionals = 0

/-- What has to be known of the innermost frame if it may be that of parameters. -/
structure Place.Admits (place : Place) (f : Frame) : Prop where
  settled : Erasure.Settled f
  items : place ≠ .operand → f.declaration = none
  entries : place = .entries → f.conditionals = 0 ∧ f.kind ≠ .parameters

theorem Place.Allows.admits {place : Place} {f : Frame} (h : place.Allows f) : place.Admits f :=
  ⟨h.settled, h.items, fun hplace => ⟨h.entries hplace, h.parameters⟩⟩

/-- The second token may follow the first one in an expression: no curly bracket opens behind an
operand, and a question mark stands in front of one. -/
structure Token.Meets (u t : Token) : Prop where
  body : u.EndsOperand → t.is "\x7b" = false
  optional : u.is "?" = true → ∀ text ∈ [":", ",", ")", "="], t.is text = false

/-- The token does not give the round brackets in front of it another meaning. -/
structure Token.Follows (t : Token) (f : Frame) : Prop where
  arrow : t.is "=>" = false
  body : t.is "\x7b" = false
  colon : t.is ":" = true → 0 < f.conditionals

/-- Every opened bracket but that of parameters allows every place. -/
theorem Place.allows_fresh {place : Place} {kind : FrameKind} (hparameters : kind ≠ .parameters) :
    place.Allows (.fresh kind) :=
  ⟨hparameters, .inl rfl, fun _ => rfl, fun _ => rfl⟩

/-- Most marks may follow inert tokens. -/
theorem Token.IsMark.follows {t : Token} {text : String} {f : Frame} (h : t.IsMark text)
    (hmem : text ∉ ["=>", "\x7b", ":"]) : t.Follows f := by
  simp only [List.mem_cons, List.not_mem_nil, or_false, not_or] at hmem
  refine ⟨?_, ?_, fun hcolon => ?_⟩
  · simp [h.is, hmem]
  · simp [h.is, hmem]
  · simp [h.is, hmem] at hcolon

namespace Inert

variable {place : Place} {ts us : List Token} {t : Token}

/-- Inert tokens start neither with an arrow nor with a colon. -/
theorem head_is (h : Inert place (t :: ts)) : t.is "=>" = false ∧ t.is ":" = false := by
  cases h with
  | name ht _ => exact ⟨ht.is_eq_false (by decide), ht.is_eq_false (by decide)⟩
  | literal ht _ => exact ⟨Token.is_eq_false ht, Token.is_eq_false ht⟩
  | operator ht _ =>
    obtain ⟨text, hmem, ht⟩ := ht
    simp only [List.mem_cons, List.not_mem_nil, or_false] at hmem
    rcases hmem with rfl | rfl | rfl | rfl | rfl | rfl | rfl | rfl <;> simp [ht.is]
  | key hname _ _ => exact ⟨hname.is_eq_false (by decide), hname.is_eq_false (by decide)⟩
  | comma _ ht _ => simp [ht.is]
  | conditional ht _ _ _ => simp [ht.is]
  | group ht _ _ _ _ => simp [ht.is]
  | square ht _ _ _ => simp [ht.is]
  | object ht _ _ _ => simp [ht.is]
  | arrow ht _ _ _ _ => simp [ht.is]

/-- Inert tokens may follow each other, unless a brace would follow. -/
theorem append (h : Inert place ts) (hus : Inert place us)
    (hhead : ∀ t ∈ us.head?, t.is "\x7b" = false) : Inert place (ts ++ us) := by
  induction h with
  | nil => exact hus
  | name ht _ ih => exact .name ht (ih hus)
  | literal ht _ ih => exact .literal ht (ih hus)
  | operator ht _ ih => exact .operator ht (ih hus)
  | comma hplace ht _ ih => exact .comma hplace ht (ih hus)
  | key hname hcolon _ ih => exact .key hname hcolon (ih hus)
  | conditional hquestion hts hcolon _ _ ih =>
    rw [List.cons_append, List.append_assoc, List.cons_append]
    exact .conditional hquestion hts hcolon (ih hus)
  | @group place first last inner ts hfirst hinner hlast hnext _ _ ih =>
    rw [List.cons_append, List.append_assoc, List.cons_append]
    refine .group hfirst hinner hlast (fun t ht => ?_) (ih hus)
    cases ts with
    | nil => exact hhead t ht
    | cons u ts => exact hnext t ht
  | square hfirst hinner hlast _ _ ih =>
    rw [List.cons_append, List.append_assoc, List.cons_append]
    exact .square hfirst hinner hlast (ih hus)
  | object hfirst hinner hlast _ _ ih =>
    rw [List.cons_append, List.append_assoc, List.cons_append]
    exact .object hfirst hinner hlast (ih hus)
  | arrow hfirst hinner hlast harrow _ ih =>
    rw [List.cons_append, List.append_assoc, List.cons_append, List.cons_append]
    exact .arrow hfirst hinner hlast harrow (ih hus)

/-- No operator is a bracket. -/
theorem isNoBracket_of_isOperator (h : t.IsOperator) : t.IsNoBracket := by
  obtain ⟨text, hmem, ht⟩ := h
  refine ht.isNoBracket ?_
  clear ht
  revert text
  decide

/-- Names with commas between them are balanced. -/
theorem balanced_of_names {inner : List Token} (h : ∀ t ∈ inner, t.IsName ∨ t.IsMark ",") :
    Balanced inner := by
  induction inner with
  | nil => exact .nil
  | cons t inner ih =>
    have hrest := ih fun u hu => h u (List.mem_cons_of_mem _ hu)
    rcases h t List.mem_cons_self with ht | ht
    · exact .other ht.isNoBracket.1 ht.isNoBracket.2 hrest
    · obtain ⟨hopen, hclose⟩ := ht.isNoBracket (by decide)
      exact .other hopen hclose hrest

/-- Inert tokens are balanced. -/
theorem balanced (h : Inert place ts) : Balanced ts := by
  have hother : ∀ {t : Token} {us : List Token}, t.IsNoBracket → Balanced us → Balanced (t :: us) :=
    fun ht hus => .other ht.1 ht.2 hus
  induction h with
  | nil => exact .nil
  | name ht _ ih => exact hother ht.isNoBracket ih
  | literal ht _ ih => exact hother (Token.isNoBracket_of_literal ht) ih
  | operator ht _ ih => exact hother (isNoBracket_of_isOperator ht) ih
  | comma _ ht _ ih => exact hother (ht.isNoBracket (by decide)) ih
  | key hname hcolon _ ih =>
    exact hother hname.isNoBracket (hother (hcolon.isNoBracket (by decide)) ih)
  | conditional hquestion _ hcolon _ ihYes ihNo =>
    refine hother (hquestion.isNoBracket (by decide)) (ihYes.append ?_)
    exact hother (hcolon.isNoBracket (by decide)) ihNo
  | group hfirst _ hlast _ _ ihInner ih =>
    exact .group (hfirst.opens? .round) (hlast.closes? .round) ihInner ih
  | square hfirst _ hlast _ ihInner ih =>
    exact .group (hfirst.opens? .square) (hlast.closes? .square) ihInner ih
  | object hfirst _ hlast _ ihInner ih =>
    exact .group (hfirst.opens? .curly) (hlast.closes? .curly) ihInner ih
  | arrow hfirst hinner hlast harrow _ ih =>
    exact .group (hfirst.opens? .round) (hlast.closes? .round) (balanced_of_names hinner)
      (hother (harrow.isNoBracket (by decide)) ih)

/-- No token of an expression gives a bracket behind it a meaning. -/
theorem calm (h : Inert place ts) : ∀ t ∈ ts, Erasure.IsCalm t := by
  induction h with
  | nil => simp
  | name ht _ ih => exact List.forall_mem_cons.mpr ⟨Erasure.isCalm_of_isName ht, ih⟩
  | literal ht _ ih => exact List.forall_mem_cons.mpr ⟨Erasure.isCalm_of_literal ht, ih⟩
  | operator ht _ ih =>
    obtain ⟨text, hmem, ht⟩ := ht
    refine List.forall_mem_cons.mpr ⟨Erasure.isCalm_of_is ht.is ?_, ih⟩
    clear ht
    revert text
    decide
  | comma _ ht _ ih => exact List.forall_mem_cons.mpr ⟨Erasure.isCalm_of_is ht.is (by decide), ih⟩
  | key hkey hcolon _ ih =>
    simp only [List.forall_mem_cons]
    exact ⟨Erasure.isCalm_of_isName hkey, Erasure.isCalm_of_is hcolon.is (by decide), ih⟩
  | conditional hquestion _ hcolon _ ihYes ihNo =>
    simp only [List.forall_mem_cons, List.forall_mem_append]
    exact ⟨Erasure.isCalm_of_is hquestion.is (by decide), ihYes,
      Erasure.isCalm_of_is hcolon.is (by decide), ihNo⟩
  | group hfirst _ hlast _ _ ihInner ih
  | square hfirst _ hlast _ ihInner ih
  | object hfirst _ hlast _ ihInner ih =>
    simp only [List.forall_mem_cons, List.forall_mem_append]
    exact ⟨Erasure.isCalm_of_is hfirst.is (by decide), ihInner,
      Erasure.isCalm_of_is hlast.is (by decide), ih⟩
  | arrow hfirst hinner hlast harrow _ ih =>
    simp only [List.forall_mem_cons, List.forall_mem_append]
    refine ⟨Erasure.isCalm_of_is hfirst.is (by decide), fun t ht => ?_,
      Erasure.isCalm_of_is hlast.is (by decide), Erasure.isCalm_of_is harrow.is (by decide), ih⟩
    rcases hinner t ht with hname | hcomma
    · exact Erasure.isCalm_of_isName hname
    · exact Erasure.isCalm_of_is hcomma.is (by decide)

end Inert

namespace Erasure

variable {source : String} {s : Erasure} {table : TokenTable} {done : List (Token × Bool)}
  {t u first last : Token} {ts rest inner : List Token}

/-- The state inside a bracket that opens where no declared name is expected. -/
theorem openBracket_eq {i : Nat} {kind : FrameKind} {pattern : Bool} (h : Settled s.frame) :
    s.openBracket table i kind pattern =
      { s with frame := .fresh kind, outer := s.frame :: s.outer } := by
  have hname : s.frame.declaration ≠ some .expectName := by
    rcases h with h | h <;> simp [h]
  simp [openBracket, hname]

/-- A run comes out of a bracket in the state in which it went in, if it comes through what
stands in the bracket. -/
theorem run_bracket (kind : FrameKind) (pattern : Bool)
    (hat : s.At table done (first :: (inner ++ last :: u :: rest))) (hframe : Settled s.frame)
    (hstep : s.step table done.length =
      .ok ((s.openBracket table done.length kind pattern).advance done.length))
    (hlast : last.IsMark ")" ∨ last.IsMark "]" ∨ last.IsMark "\x7d")
    (hkind : kind ≠ .parameters ∨ u.is ":" = false)
    (hinner : ∀ s' : Erasure, s' = { s with frame := .fresh kind, outer := s.frame :: s.outer } →
      s'.At table ((first, true) :: done) (inner ++ last :: u :: rest) →
      run table s' (done.length + 1) = run table s' (done.length + 1 + inner.length)) :
    run table s done.length =
      run table s (done.length + (first :: (inner ++ [last])).length) := by
  obtain ⟨s', hs'⟩ : ∃ s' : Erasure,
      s' = { s with frame := .fresh kind, outer := s.frame :: s.outer } := ⟨_, rfl⟩
  have hinside : s'.At table ((first, true) :: done) (inner ++ last :: u :: rest) :=
    hat.keep.of_kept (by rw [hs'])
  have hopened : run table s done.length = run table s' (done.length + 1) := by
    rw [run_step hat (by simp) rfl hstep, openBracket_eq hframe, ← hs']
    rfl
  have hclosing := hinside.pass
  have hindex : (passed inner ((first, true) :: done)).length = done.length + 1 + inner.length := by
    simp
  have hbehind : table.Ahead (done.length + 1 + inner.length + 1) (u :: rest) := by
    have hahead := hclosing.ahead.tail
    rwa [hindex] at hahead
  have hclose : s'.closeBracket table (done.length + 1 + inner.length) =
      .ok (s.advance (done.length + 1 + inner.length)) := by
    have hkind' : s'.frame.kind ≠ .parameters ∨
        table.is (done.length + 1 + inner.length + 1) ":" = false := by
      rw [hs', hbehind.is]
      exact hkind
    rw [closeBracket_eq (show s'.outer = s.frame :: s.outer by rw [hs']) hframe hkind', hs']
  have hstep' := step_close hclosing.ahead hlast (s := s')
  rw [hindex, hclose] at hstep'
  rw [hopened, hinner s' hs' hinside, run_step hclosing (by simp) hindex hstep', List.length_cons,
    List.length_append, List.length_singleton, ← Nat.add_assoc, Nat.add_right_comm, ← Nat.add_assoc]
  rfl

/-- A comma is passed over where no variable is declared. -/
theorem afterComma_eq {f : Frame} (h : f.declaration = none) : Frame.afterComma f = f := by
  simp [Frame.afterComma, h]

/-- Names with commas between them are passed over. -/
theorem run_names (hat : s.At table done (inner ++ u :: rest))
    (hinner : ∀ t ∈ inner, t.IsName ∨ t.IsMark ",") (hclass : s.frame.kind ≠ .classBody)
    (hframe : s.frame.declaration = none) :
    run table s done.length = run table s (done.length + inner.length) := by
  induction inner generalizing done with
  | nil => rfl
  | cons t inner ih =>
    have hstep : s.step table done.length = .ok (s.advance done.length) := by
      rcases hinner t List.mem_cons_self with ht | ht
      · exact step_name hat.ahead ht (fun hkind => absurd hkind hclass) (.inl hframe)
      · rw [step_comma hat.ahead ht, onFrame_eq_self (afterComma_eq hframe)]
    rw [run_step hat (by simp) rfl hstep, List.length_cons, Nat.add_comm inner.length,
      ← Nat.add_assoc]
    exact ih hat.keep fun v hv => hinner v (List.mem_cons_of_mem _ hv)

/-- A run comes through tokens and what stands behind them. -/
theorem run_append (ts : List Token)
    (hts : run table s done.length = run table s (done.length + ts.length))
    (hrest : run table s (passed ts done).length =
      run table s ((passed ts done).length + rest.length)) :
    run table s done.length = run table s (done.length + (ts ++ rest).length) := by
  rw [length_passed] at hrest
  rw [List.length_append, ← Nat.add_assoc, hts, hrest]

/-- A run comes out of the first half of a conditional expression and its colon in the state
in which it went in. -/
theorem run_conditional {question mark : Token}
    (hat : s.At table done (question :: (ts ++ mark :: rest))) (hrest : rest ≠ [])
    (hquestion : question.IsMark "?") (hmark : mark.IsMark ":")
    (hchain : s.frame.kind = .parameters → (question :: (ts ++ [mark])).IsChain Token.Meets)
    (hts : ∀ s' : Erasure, s' = s.onFrame (fun f => { f with conditionals := f.conditionals + 1 }) →
      s'.At table ((question, true) :: done) (ts ++ mark :: rest) →
      run table s' (done.length + 1) = run table s' (done.length + 1 + ts.length)) :
    run table s done.length = run table s (done.length + (question :: (ts ++ [mark])).length) := by
  obtain ⟨s', hs'⟩ : ∃ s' : Erasure,
      s' = s.onFrame (fun f => { f with conditionals := f.conditionals + 1 }) := ⟨_, rfl⟩
  have hinside : s'.At table ((question, true) :: done) (ts ++ mark :: rest) :=
    hat.keep.of_kept (by rw [hs']; rfl)
  have hnext : s.frame.kind = .parameters →
      ∀ text ∈ [":", ",", ")", "="], table.is (done.length + 1) text = false := by
    intro hkind text htext
    obtain ⟨u, others, hu⟩ := List.exists_cons_of_ne_nil (show ts ++ [mark] ≠ [] by simp)
    have hmeets := hchain hkind
    rw [hu, List.isChain_cons_cons] at hmeets
    have hahead := hat.ahead.tail
    rw [show ts ++ mark :: rest = u :: (others ++ rest) by
      rw [← List.cons_append, ← hu, List.append_assoc, List.singleton_append]] at hahead
    rw [hahead.is]
    exact hmeets.1.optional (by simp [hquestion.is]) text htext
  have hopened : run table s done.length = run table s' (done.length + 1) := by
    have hstep := step_question hat.ahead hquestion (s := s)
    rw [question_eq hnext, ← hs'] at hstep
    rw [run_step hat (by simp) rfl hstep]
    rfl
  have hindex : (passed ts ((question, true) :: done)).length = done.length + 1 + ts.length := by
    simp
  have hclose := step_colon hinside.pass.ahead hmark (s := s')
  rw [hindex, colon_eq (by rw [hs']; exact Nat.succ_pos _)] at hclose
  rw [hopened, hts s' hs' hinside, run_step hinside.pass hrest hindex hclose, hs', List.length_cons,
    List.length_append, List.length_singleton, ← Nat.add_assoc, Nat.add_right_comm, ← Nat.add_assoc]
  rfl

end Erasure

namespace Inert

open Erasure

variable {source : String} {table : TokenTable} {s : Erasure} {done : List (Token × Bool)}
  {place : Place} {ts behind : List Token} {t next : Token}

/-- What follows a group is told by the rest of the expression, or by what follows that. -/
theorem exists_follows (behind : List Token) (h : Inert place ts)
    (hhead : ∀ t ∈ ts.head?, t.is "\x7b" = false) {f : Frame} (hnext : next.Follows f) :
    ∃ u rest, ts ++ next :: behind = u :: rest ∧ u.Follows f := by
  cases ts with
  | nil => exact ⟨next, behind, rfl, hnext⟩
  | cons t ts =>
    obtain ⟨harrow, hcolon⟩ := h.head_is
    exact ⟨t, ts ++ next :: behind, rfl, harrow, hhead t rfl, fun hc => by simp [hcolon] at hc⟩

/-- A run has come to tokens that may stand at the place, with the given tokens behind them. -/
structure Ready (table : TokenTable) (place : Place) (s : Erasure) (done : List (Token × Bool))
    (ts : List Token) (next : Token) (behind : List Token) : Prop where
  marks : s.At table done (ts ++ next :: behind)
  frame : place.Admits s.frame
  /-- In parameters, no question mark makes one of them optional. -/
  parameters : s.frame.kind = .parameters → ts.IsChain Token.Meets
  /-- In a class, no member has its name among the tokens. -/
  noMembers : s.frame.kind = .classBody → NoMembers (recent done) ts (next :: behind)
  bodies : s.BodiesBefore done.length
  calm : Calm (recent done)

/-- A run comes out of the tokens in the state in which it went in. -/
def Passes (table : TokenTable) (place : Place) (ts : List Token) : Prop :=
  ∀ ⦃s : Erasure⦄ ⦃done : List (Token × Bool)⦄ ⦃next : Token⦄ ⦃behind : List Token⦄,
    Ready table place s done ts next behind → next.Follows s.frame →
    run table s done.length = run table s (done.length + ts.length)

namespace Ready

variable {us : List Token} {first last : Token} {inner : List Token}

/-- Behind the first tokens a run is ready for the others. -/
theorem pass (h : Ready table place s done (us ++ ts) next behind) (hus : Inert place us) :
    Ready table place s (passed us done) ts next behind where
  marks := by
    have hmarks := h.marks
    rw [List.append_assoc] at hmarks
    exact hmarks.pass
  frame := h.frame
  parameters hkind := (h.parameters hkind).right_of_append
  noMembers hkind := by
    rw [recent_passed]
    exact (h.noMembers hkind).right hus.balanced.depth_eq
  bodies := h.bodies.mono (by simp)
  calm := h.calm.passed hus.calm

/-- A run that has opened a bracket is ready for what stands in it. -/
theorem inside {inside : Place} {kind : FrameKind} {text : String} {u : Token} {rest : List Token}
    (h : Ready table place s done ts next behind)
    (hmarks : ({ s with frame := .fresh kind, outer := s.frame :: s.outer } : Erasure).At table
      ((first, true) :: done) (inner ++ last :: u :: rest))
    (hfirst : first.IsMark text) (htext : text ∉ bracketWords) (hkind : kind ≠ .parameters)
    (hclass : kind ≠ .classBody) :
    Ready table inside { s with frame := .fresh kind, outer := s.frame :: s.outer }
      ((first, true) :: done) inner last (u :: rest) where
  marks := hmarks
  frame := (Place.allows_fresh hkind).admits
  parameters hk := absurd hk hkind
  noMembers hk := absurd hk hclass
  bodies := h.bodies.mono (by simp)
  calm := h.calm.mark hfirst htext

/-- At a name among inert tokens the run takes the next token. -/
theorem step_name (h : Ready table place s done (t :: ts) next behind) (ht : t.IsName) :
    s.step table done.length = .ok (s.advance done.length) :=
  Erasure.step_name h.marks.ahead ht (fun hkind => classMember_of_noMembers (h.noMembers hkind)
    h.marks ht.1 (ht.text_not_mem (by decide))) h.frame.settled

/-- At an operator among inert tokens the run takes the next token. -/
theorem step_operator (h : Ready table place s done (t :: ts) next behind) (ht : t.IsOperator) :
    s.step table done.length = .ok (s.advance done.length) := by
  obtain ⟨text, hmem, ht⟩ := ht
  refine Erasure.step_operator h.marks.ahead ht ?_
  clear ht
  revert text
  decide

/-- At a comma among inert tokens the run takes the next token. -/
theorem step_comma (h : Ready table place s done (t :: ts) next behind) (ht : t.IsMark ",")
    (hplace : place ≠ .operand) : s.step table done.length = .ok (s.advance done.length) := by
  rw [Erasure.step_comma h.marks.ahead ht, onFrame_eq_self (afterComma_eq (h.frame.items hplace))]

/-- The colon behind a key is no annotation and belongs to no conditional expression. -/
theorem step_colon {done : List (Token × Bool)} (h : Ready table .entries s done ts next behind)
    {k : Nat} {rest : List Token} (hahead : table.Ahead k (t :: rest)) (ht : t.IsMark ":") :
    s.step table k = .ok (s.advance k) := by
  obtain ⟨hconditionals, hkind⟩ := h.frame.entries rfl
  rw [Erasure.step_colon hahead ht, colon, hconditionals, if_neg (Nat.lt_irrefl 0), if_neg]
  · rfl
  · simp [hkind, h.frame.items (by decide)]

end Ready

namespace Passes

variable {us inner : List Token} {first last : Token}

/-- A run passes tokens if it passes the first of them and then the others. -/
theorem append (hus : Inert place us)
    (hfirst : ∀ {s : Erasure} {done : List (Token × Bool)} {next : Token} {behind : List Token},
      Ready table place s done (us ++ ts) next behind → next.Follows s.frame →
      run table s done.length = run table s (done.length + us.length))
    (hts : Passes table place ts) : Passes table place (us ++ ts) := by
  intro s done next behind h hnext
  exact run_append us (hfirst h hnext) (hts (h.pass hus) hnext)

/-- A single token is passed by one step. -/
theorem of_step (ht : Inert place [t])
    (hstep : ∀ {s : Erasure} {done : List (Token × Bool)} {next : Token} {behind : List Token},
      Ready table place s done (t :: ts) next behind →
      s.step table done.length = .ok (s.advance done.length))
    (hts : Passes table place ts) : Passes table place (t :: ts) :=
  append ht (fun h _ => run_step h.marks (by simp) rfl (hstep h)) hts

/-- A key is passed with its colon, which waits for no conditional expression. -/
theorem key {name mark : Token} (hname : name.IsName) (hmark : mark.IsMark ":")
    (hts : Passes table .entries ts) : Passes table .entries (name :: mark :: ts) := by
  refine append (.key hname hmark .nil) (fun h _ => ?_) hts
  have hkey := run_step h.marks (by simp) rfl (h.step_name hname)
  exact hkey.trans (run_step h.marks.keep (by simp) rfl (h.step_colon h.marks.ahead.tail hmark))

/-- A conditional expression is passed if its branches are: the question mark is counted until
the colon is met. -/
theorem conditional {question mark : Token} (hquestion : question.IsMark "?")
    (hmark : mark.IsMark ":") (hinert : Inert .operand ts) (hts : Passes table .operand ts)
    (hus : Passes table place us) : Passes table place (question :: (ts ++ mark :: us)) := by
  rw [show question :: (ts ++ mark :: us) = question :: (ts ++ [mark]) ++ us by simp]
  refine append (.conditional hquestion hinert hmark .nil) (fun {s done next behind} h _ => ?_) hus
  have hmarks := h.marks
  rw [List.append_assoc, List.cons_append, List.append_assoc] at hmarks
  have hyes : s.frame.kind = .classBody →
      NoMembers (recent ((question, true) :: done)) ts (mark :: (us ++ next :: behind)) := by
    intro hkind
    have hhalf := (h.noMembers hkind).left
    rw [show question :: (ts ++ [mark]) = [question] ++ (ts ++ [mark]) from rfl] at hhalf
    exact (hhalf.right (by simp [(hquestion.isNoBracket (by decide)).weight_eq])).left
  have hchain : s.frame.kind = .parameters → (question :: (ts ++ [mark])).IsChain Token.Meets :=
    fun hkind => (h.parameters hkind).left_of_append
  have hinner : s.frame.kind = .parameters → ts.IsChain Token.Meets :=
    fun hkind => (hchain hkind).tail.left_of_append
  exact run_conditional hmarks (by simp) hquestion hmark hchain fun s' hs' hinside =>
    hts ⟨hinside, ⟨hs' ▸ h.frame.settled, fun hplace => absurd rfl hplace,
      fun hplace => by cases hplace⟩, hs' ▸ hinner, hs' ▸ hyes, hs' ▸ h.bodies.mono (by simp),
      h.calm.mark hquestion (by decide)⟩
      ⟨by simp [hmark.is], by simp [hmark.is], fun _ => hs' ▸ Nat.succ_pos _⟩

/-- A bracket is passed if what stands in it is, and the step at it does no more than open it. -/
theorem bracket {inside : Place} {text : String} (kind : FrameKind) (pattern : Bool)
    (hbracket : Inert place (first :: (inner ++ [last]))) (hfirst : first.IsMark text)
    (htext : text ∉ bracketWords)
    (hlast : last.IsMark ")" ∨ last.IsMark "]" ∨ last.IsMark "\x7d")
    (hkind : kind ≠ .parameters ∧ kind ≠ .classBody)
    (hstep : ∀ {s : Erasure} {done : List (Token × Bool)} {next : Token} {behind : List Token},
      Ready table place s done (first :: (inner ++ [last]) ++ ts) next behind →
      next.Follows s.frame → s.step table done.length =
        .ok ((s.openBracket table done.length kind pattern).advance done.length))
    (hinner : Passes table inside inner) (hts : Passes table place ts) :
    Passes table place (first :: (inner ++ last :: ts)) := by
  have hfollows : ∀ f, last.Follows f := by
    intro f
    rcases hlast with hlast | hlast | hlast <;> exact hlast.follows (by decide)
  rw [show first :: (inner ++ last :: ts) = first :: (inner ++ [last]) ++ ts by simp]
  refine append hbracket (fun {s done next behind} h hnext => ?_) hts
  obtain ⟨u, rest, hbehind⟩ := List.exists_cons_of_ne_nil (show ts ++ next :: behind ≠ [] by simp)
  have hmarks := h.marks
  rw [List.append_assoc, hbehind, List.cons_append, List.append_assoc] at hmarks
  refine run_bracket kind pattern hmarks h.frame.settled (hstep h hnext) hlast (.inl hkind.1) ?_
  rintro _ rfl hinside
  exact hinner (h.inside hinside hfirst htext hkind.1 hkind.2) (hfollows _)

/-- Behind a group in round brackets stands nothing that makes parameters of it. -/
theorem group (hfirst : first.IsMark "(") (hinert : Inert .items inner) (hlast : last.IsMark ")")
    (hhead : ∀ t ∈ ts.head?, t.is "\x7b" = false) (hrest : Inert place ts)
    (htable : tokenize source = .ok table) (hinner : Passes table .items inner)
    (hts : Passes table place ts) : Passes table place (first :: (inner ++ last :: ts)) := by
  refine bracket .group false (.group hfirst hinert hlast (by simp) .nil) hfirst (by decide)
    (.inl hlast) (by decide) (fun {s done next behind} h hnext => ?_) hinner hts
  obtain ⟨u, rest, hbehind, hu⟩ := hrest.exists_follows behind hhead hnext
  have hmarks := h.marks
  rw [List.append_assoc, hbehind, List.cons_append, List.append_assoc] at hmarks
  have hparameters : s.opensParameters table done.length = false :=
    opensParameters_eq_false (followsFunction_eq_false hmarks.preceded h.calm)
      (hmarks.ahead.behind_closeOf htable (hfirst.opens? .round) (hlast.closes? .round)
        hinert.balanced) hu.arrow hu.body hu.colon
  exact step_round hmarks.ahead hfirst (by rw [hparameters]; rfl)

/-- A list in square brackets is passed if what stands in it is. -/
theorem square (hfirst : first.IsMark "[") (hinert : Inert .items inner) (hlast : last.IsMark "]")
    (hinner : Passes table .items inner) (hts : Passes table place ts) :
    Passes table place (first :: (inner ++ last :: ts)) :=
  bracket .square true (.square hfirst hinert hlast .nil) hfirst (by decide) (.inr (.inl hlast))
    (by decide) (fun h _ => step_square h.marks.ahead hfirst) hinner hts

/-- An object is passed if what stands in it is. -/
theorem object (hfirst : first.IsMark "\x7b") (hinert : Inert .entries inner)
    (hlast : last.IsMark "\x7d") (hinner : Passes table .entries inner)
    (hts : Passes table place ts) : Passes table place (first :: (inner ++ last :: ts)) :=
  bracket .block true (.object hfirst hinert hlast .nil) hfirst (by decide) (.inr (.inr hlast))
    (by decide) (fun h _ => step_block h.marks.ahead hfirst h.bodies
      (opensModuleClause_eq_false h.marks.preceded h.calm)) hinner hts

/-- The parameters of an arrow function are names, which are passed over as parameters too. -/
theorem arrow {arrow : Token} (hfirst : first.IsMark "(")
    (hinner : ∀ t ∈ inner, t.IsName ∨ t.IsMark ",") (hlast : last.IsMark ")")
    (harrow : arrow.IsMark "=>") (htable : tokenize source = .ok table)
    (hts : Passes table place ts) :
    Passes table place (first :: (inner ++ last :: arrow :: ts)) := by
  rw [show first :: (inner ++ last :: arrow :: ts) = first :: (inner ++ [last, arrow]) ++ ts by
    simp]
  refine append (.arrow hfirst hinner hlast harrow .nil) (fun {s done next behind} h _ => ?_) hts
  have hmarks := h.marks
  rw [show first :: (inner ++ [last, arrow]) ++ ts ++ next :: behind =
    first :: (inner ++ last :: arrow :: (ts ++ next :: behind)) by simp] at hmarks
  have hparameters : s.opensParameters table done.length = true :=
    opensParameters_of_arrow (hmarks.ahead.behind_closeOf htable (hfirst.opens? .round)
      (hlast.closes? .round) (balanced_of_names hinner)) (by simp [harrow.is])
  have hthrough := run_bracket .parameters false hmarks h.frame.settled
    (step_round hmarks.ahead hfirst (by rw [hparameters]; rfl)) (.inl hlast)
    (.inr (by simp [harrow.is])) (by
      rintro _ rfl hinside
      exact run_names hinside hinner (by simp [Frame.fresh]) rfl)
  rw [show first :: (inner ++ [last, arrow]) = first :: (inner ++ [last]) ++ [arrow] by simp]
  refine run_append _ hthrough ?_
  have hbehind :
      s.At table done (first :: (inner ++ [last]) ++ arrow :: (ts ++ next :: behind)) := by
    simpa using hmarks
  exact run_step hbehind.pass (by simp) rfl
    (Erasure.step_operator hbehind.pass.ahead harrow (by decide))

end Passes

/-- A run comes through an expression in the state in which it went in. -/
theorem passes (h : Inert place ts) (htable : tokenize source = .ok table) :
    Passes table place ts := by
  induction h with
  | nil => exact fun _ _ _ _ _ _ => rfl
  | name ht _ ih => exact Passes.of_step (.name ht .nil) (fun h => h.step_name ht) ih
  | literal ht _ ih =>
    exact Passes.of_step (.literal ht .nil) (fun h => step_literal h.marks.ahead ht) ih
  | operator ht _ ih => exact Passes.of_step (.operator ht .nil) (fun h => h.step_operator ht) ih
  | comma hplace ht _ ih =>
    exact Passes.of_step (.comma hplace ht .nil) (fun h => h.step_comma ht hplace) ih
  | key hname hmark _ ih => exact Passes.key hname hmark ih
  | conditional hquestion hts hmark _ ihYes ihNo =>
    exact Passes.conditional hquestion hmark hts ihYes ihNo
  | group hfirst hinner hlast hhead hts ihInner ih =>
    exact Passes.group hfirst hinner hlast hhead hts htable ihInner ih
  | square hfirst hinner hlast _ ihInner ih => exact Passes.square hfirst hinner hlast ihInner ih
  | object hfirst hinner hlast _ ihInner ih => exact Passes.object hfirst hinner hlast ihInner ih
  | arrow hfirst hinner hlast harrow _ ih => exact Passes.arrow hfirst hinner hlast harrow htable ih

end Inert

end Workflow.Script
