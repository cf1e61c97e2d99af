import Workflow.Proofs.Script.CaseLabel
import Workflow.Proofs.Script.Statement

/-!
# Switch statements as they are read

The tokens of a switch statement, each with whether erasure keeps it. Cases and statements are
followed part by part; the word that a part starts with belongs to the part in front of it, for
that one decides whether the word is taken for a type.
-/

namespace Workflow.Script

open Erasure

variable {source : String} {table : TokenTable} {done : List (Token × Bool)}
  {t next last : Token} {ts inner lead rest behind : List Token}
  {outer : List Frame} {f : Frame} {o : Bool} {k : Nat}

/-- The word starts the part of a clause in front of an expression. -/
def Token.IsOpener (t : Token) : Prop := t.IsWord "return" ∨ t.IsWord "case"

namespace Token.IsOpener

theorem kind (h : t.IsOpener) : t.kind = .word := h.elim And.left And.left

theorem not_role (h : t.IsOpener) : t.text ∉ roleWords := by
  rcases h with h | h <;> rw [h.2] <;> decide

theorem isCalm (h : t.IsOpener) : IsCalm t := by
  rcases h with h | h <;> exact isCalm_of_is h.is (by decide)

theorem unpointed (h : t.IsOpener) : Unpointed ((t, true) :: done) := by
  rcases h with h | h <;> exact .of_is h.is (by decide)

end Token.IsOpener

namespace Erasure

/-- The words of clauses are kept. -/
theorem leads_openers (hrest : rest ≠ []) (hlead : ∀ word ∈ lead, word.IsOpener)
    (hbefore : Unpointed done) :
    Leads table ⟨done, lead ++ rest, .fresh .block, outer⟩
        ⟨(allKept lead).reverse ++ done, rest, .fresh .block, outer⟩ ∧
      Unpointed ((allKept lead).reverse ++ done) := by
  induction lead generalizing done with
  | nil => exact ⟨.refl _, hbefore⟩
  | cons word lead ih =>
    have hword := hlead word List.mem_cons_self
    have hkept : Leads table ⟨done, word :: (lead ++ rest), .fresh .block, outer⟩
        ⟨(word, true) :: done, lead ++ rest, .fresh .block, outer⟩ :=
      leads_word (by simp [hrest]) hword.kind hword.not_role (by decide) hbefore
    have hbehind : Unpointed ((word, true) :: done) := hword.unpointed
    obtain ⟨hothers, hpoint⟩ := ih (fun u hu => hlead u (List.mem_cons_of_mem _ hu)) hbehind
    have hall : (allKept (word :: lead)).reverse ++ done =
        (allKept lead).reverse ++ (word, true) :: done := by
      simp [allKept]
    rw [hall]
    exact ⟨hkept.trans hothers, hpoint⟩

/-- A round bracket between a block and a word that names no method. -/
theorem leads_group_of_block (htable : tokenize source = .ok table) (ht : t.IsMark "(")
    (hinner : Balanced inner) (hlast : last.IsMark ")") (hnext : next.IsMark "\x7b")
    (hsettled : Settled f) (hcalm : Calm (recent done))
    (hmethod : (recent done).head?.any Token.namesMethod = false) :
    Leads table ⟨done, t :: (inner ++ last :: next :: behind), f, outer⟩
      ⟨(t, true) :: done, inner ++ last :: next :: behind, .fresh .group, f :: outer⟩ := by
  refine leads_open (by simp) hsettled fun s hs => ⟨false, ?_⟩
  have hpreceded := hs.marks.preceded
  have hbehind := hs.ahead.behind_closeOf htable (ht.opens? .round) (hlast.closes? .round) hinner
  have hparameters : s.opensParameters table done.length = false := by
    unfold opensParameters
    simp only [hbehind.is, hnext.is, followsFunction_eq_false hpreceded hcalm,
      hpreceded.namesMethod, hmethod]
    simp
  exact step_round hs.ahead ht (by rw [hparameters]; rfl)

end Erasure

/-- The tokens of the parts of a switch statement, the word that the first one starts with apart,
and whether an object literal stands behind that word. -/
inductive PartsMarks : List Token → Bool → List (Token × Bool) → Prop
  | nil : PartsMarks [] false []
  | result {word semicolon : Token} {ts lead : List Token} {a : Ending} {o o' : Bool}
      {ms : List (Token × Bool)} : word.IsWord "return" → PlainTokens a o ts →
      semicolon.IsMark ";" → PartsMarks lead o' ms →
      PartsMarks [word] o (allKept ts ++ (semicolon, true) :: (allKept lead ++ ms))
  | leave {word semicolon : Token} {lead : List Token} {o' : Bool} {ms : List (Token × Bool)} :
      word.IsWord "break" → semicolon.IsMark ";" → PartsMarks lead o' ms →
      PartsMarks [] false ((word, true) :: (semicolon, true) :: (allKept lead ++ ms))
  | call {semicolon : Token} {ts lead : List Token} {a : Ending} {o o' : Bool}
      {ms : List (Token × Bool)} : PlainTokens a o ts → semicolon.IsMark ";" →
      PartsMarks lead o' ms →
      PartsMarks [] false (allKept ts ++ (semicolon, true) :: (allKept lead ++ ms))
  | label {word colon : Token} {ts lead : List Token} {m o o' : Bool} {ms : List (Token × Bool)} :
      word.IsWord "case" → LabelTokens m o ts → colon.IsMark ":" → PartsMarks lead o' ms →
      (m && o') = false →
      PartsMarks [word] o (allKept ts ++ (colon, true) :: (allKept lead ++ ms))
  | misread {word colon : Token} {ts lead : List Token} {o : Bool} {ms : List (Token × Bool)} :
      word.IsWord "case" → LabelTokens true o ts → colon.IsMark ":" → PartsMarks lead true ms →
      PartsMarks [word] o (allKept ts ++ (allRemoved (colon :: lead) ++ ms))

namespace PartsMarks

variable {ms : List (Token × Bool)}

/-- The word in front of the parts is one of a clause, and an expression stands behind it. -/
theorem exists_plain (h : PartsMarks lead o ms) (behind : List Token) : lead = [] ∧ o = false ∨
    ∃ word a ts next rest, lead = [word] ∧ word.IsOpener ∧ PlainTokens a o ts ∧ next.EndsExpr ∧
      ms.map Prod.fst ++ behind = ts ++ next :: rest := by
  cases h with
  | nil => exact .inl ⟨rfl, rfl⟩
  | leave _ _ _ => exact .inl ⟨rfl, rfl⟩
  | call _ _ _ => exact .inl ⟨rfl, rfl⟩
  | @result word _ ts lead _ _ _ ms hword hts hsemicolon _ =>
    exact .inr ⟨word, _, ts, _, lead ++ (ms.map Prod.fst ++ behind), rfl, .inl hword, hts,
      hsemicolon.endsExpr (by decide), by simp⟩
  | @label word _ ts lead _ _ _ ms hword hts hcolon _ _ =>
    obtain ⟨a, hts⟩ := hts.plain
    exact .inr ⟨word, a, ts, _, lead ++ (ms.map Prod.fst ++ behind), rfl, .inr hword, hts,
      hcolon.endsExpr (by decide), by simp⟩
  | @misread word _ ts lead _ ms hword hts hcolon _ =>
    obtain ⟨a, hts⟩ := hts.plain
    exact .inr ⟨word, a, ts, _, lead ++ (ms.map Prod.fst ++ behind), rfl, .inr hword, hts,
      hcolon.endsExpr (by decide), by simp⟩

theorem isOpener (h : PartsMarks lead o ms) : ∀ word ∈ lead, word.IsOpener := by
  rcases h.exists_plain [] with ⟨rfl, -⟩ | ⟨word, _, _, _, _, rfl, hword, -⟩
  · simp
  · simpa using hword

/-- If an object literal stands behind the word in front of the parts, the word is read as a type
by itself. -/
theorem typeEnd_eq (h : PartsMarks lead true ms)
    (hk : table.Ahead k (lead ++ (ms.map Prod.fst ++ behind))) :
    Answers (table.typeEnd k) (k + lead.length) := by
  rcases h.exists_plain behind with ⟨-, ho⟩ | ⟨word, a, ts, next, rest, rfl, hword, hts, -, htail⟩
  · cases ho
  · rw [htail] at hk
    exact hts.typeEnd_object hk hword rfl

/-- What stands in front of a colon is read as parameters with a result type and a body if an
object literal stands behind the word behind the colon, and only then. -/
theorem showsBody_eq (h : PartsMarks lead o ms) (htable : tokenize source = .ok table)
    (hlast : last.IsMark "\x7d")
    (hk : table.Ahead k (lead ++ (ms.map Prod.fst ++ last :: behind))) :
    table.showsBody k = o := by
  rcases h.exists_plain (last :: behind) with
    ⟨rfl, rfl⟩ | ⟨word, a, ts, next, rest, rfl, hword, hts, hnext, htail⟩
  · generalize hlead : [] = lead at h hk
    cases h with
    | nil => exact TokenTable.showsBody_close hk hlast
    | @leave word semicolon lead' _ ms hword hsemicolon _ =>
      have hk' : table.Ahead k
          (word :: semicolon :: (lead' ++ (ms.map Prod.fst ++ last :: behind))) := by
        simpa using hk
      have hend : Answers (table.typeEnd k) (k + 1) :=
        TokenTable.typeEnd_self hk' hword.1 (by rw [hword.2]; decide)
          (hsemicolon.endsExpr (by decide)).endsType
      rw [hend.showsBody_eq, hk'.tail.is, hsemicolon.is]
      rfl
    | @call semicolon ts lead' _ _ _ ms hts hsemicolon _ =>
      have hk' : table.Ahead k
          (ts ++ semicolon :: (lead' ++ (ms.map Prod.fst ++ last :: behind))) := by
        simpa using hk
      exact hts.showsBody_eq_false (hsemicolon.endsExpr (by decide)) htable hk'
    | result _ _ _ _ => cases hlead
    | label _ _ _ _ _ => cases hlead
    | misread _ _ _ _ => cases hlead
  · rw [htail] at hk
    exact hts.showsBody_word hk hword hnext htable

theorem balanced (h : PartsMarks lead o ms) : Balanced (lead ++ ms.map Prod.fst) := by
  induction h with
  | nil => exact .nil
  | result hword hts hsemicolon _ ih =>
    have hended := hts.inert.balanced.append (.of_mark hsemicolon (by decide) ih)
    simpa using Balanced.of_word hword (by decide) hended
  | leave hword hsemicolon _ ih =>
    simpa using Balanced.of_word hword (by decide) (.of_mark hsemicolon (by decide) ih)
  | call hts hsemicolon _ ih =>
    simpa using hts.inert.balanced.append (.of_mark hsemicolon (by decide) ih)
  | label hword hts hcolon _ _ ih | misread hword hts hcolon _ ih =>
    obtain ⟨_, hts⟩ := hts.plain
    have hended := hts.inert.balanced.append (.of_mark hcolon (by decide) ih)
    simpa using Balanced.of_word hword (by decide) hended

theorem arrowless (h : PartsMarks lead o ms) :
    ∀ t ∈ lead ++ ms.map Prod.fst, t.is "=>" = false := by
  induction h with
  | nil => simp
  | result hword hts hsemicolon _ ih =>
    simp only [List.cons_append, List.nil_append, List.map_append, List.map_cons, map_fst_allKept,
      List.forall_mem_append, List.forall_mem_cons] at ih ⊢
    exact ⟨by simp [hword.is], hts.arrowless, by simp [hsemicolon.is], ih⟩
  | leave hword hsemicolon _ ih =>
    simp only [List.nil_append, List.map_append, List.map_cons, map_fst_allKept,
      List.forall_mem_append, List.forall_mem_cons] at ih ⊢
    exact ⟨by simp [hword.is], by simp [hsemicolon.is], ih⟩
  | call hts hsemicolon _ ih =>
    simp only [List.nil_append, List.map_append, List.map_cons, map_fst_allKept,
      List.forall_mem_append, List.forall_mem_cons] at ih ⊢
    exact ⟨hts.arrowless, by simp [hsemicolon.is], ih⟩
  | label hword hts hcolon _ _ ih =>
    obtain ⟨_, hts⟩ := hts.plain
    simp only [List.cons_append, List.nil_append, List.map_append, List.map_cons, map_fst_allKept,
      List.forall_mem_append, List.forall_mem_cons] at ih ⊢
    exact ⟨by simp [hword.is], hts.arrowless, by simp [hcolon.is], ih⟩
  | misread hword hts hcolon _ ih =>
    obtain ⟨_, hts⟩ := hts.plain
    simp only [List.cons_append, List.nil_append, List.map_append, map_fst_allKept,
      map_fst_allRemoved, List.forall_mem_append, List.forall_mem_cons] at ih ⊢
    exact ⟨by simp [hword.is], hts.arrowless, by simp [hcolon.is], ih⟩

/-- Behind a mark the word in front of the parts is kept, and the parts follow. -/
theorem leads_behind (h : PartsMarks lead o ms)
    (hleads : ∀ {done : List (Token × Bool)}, Calm (recent done) → Unpointed done →
      Leads table ⟨done, ms.map Prod.fst ++ last :: behind, .fresh .block, outer⟩
        ⟨ms.reverse ++ done, last :: behind, .fresh .block, outer⟩)
    (hcalm : Calm (recent done)) (hbefore : Unpointed done) :
    Leads table ⟨done, lead ++ (ms.map Prod.fst ++ last :: behind), .fresh .block, outer⟩
      ⟨ms.reverse ++ ((allKept lead).reverse ++ done), last :: behind, .fresh .block, outer⟩ := by
  obtain ⟨hopeners, hpoint⟩ : Leads table
      ⟨done, lead ++ (ms.map Prod.fst ++ last :: behind), .fresh .block, outer⟩ _ ∧ _ :=
    leads_openers (by simp) h.isOpener hbefore
  have hcalm' : Calm (recent ((allKept lead).reverse ++ done)) :=
    hcalm.marks (isCalm_allKept fun word hword => (h.isOpener word hword).isCalm)
  exact hopeners.trans (hleads hcalm' hpoint)

/-- An expression is kept with its semicolon, and the parts follow. -/
theorem leads_ended (h : PartsMarks lead o ms) (htable : tokenize source = .ok table)
    (hleads : ∀ {done : List (Token × Bool)}, Calm (recent done) → Unpointed done →
      Leads table ⟨done, ms.map Prod.fst ++ last :: behind, .fresh .block, outer⟩
        ⟨ms.reverse ++ done, last :: behind, .fresh .block, outer⟩)
    (hts : Inert .operand ts) (ht : t.IsMark ";") (hcalm : Calm (recent done)) :
    Leads table
      ⟨done, ts ++ t :: (lead ++ (ms.map Prod.fst ++ last :: behind)), .fresh .block, outer⟩
      ⟨ms.reverse ++ ((allKept lead).reverse ++ (t, true) :: ((allKept ts).reverse ++ done)),
        last :: behind, .fresh .block, outer⟩ := by
  have hvalue : Leads table
      ⟨done, ts ++ t :: (lead ++ (ms.map Prod.fst ++ last :: behind)), .fresh .block, outer⟩ _ :=
    leads_inert htable hts (Place.allows_fresh (by decide)) nofun hcalm (ht.follows (by decide))
  have hcalm' : Calm (recent ((t, true) :: ((allKept ts).reverse ++ done))) :=
    (hcalm.marks (isCalm_allKept hts.calm)).mark ht (by decide)
  exact (hvalue.trans (leads_semicolon (by simp) ht)).trans
    (h.leads_behind hleads hcalm' (.of_is ht.is (by decide)))

/-- A run over the parts of a switch statement keeps all but the colons and words that are read as
result types. -/
theorem leads (h : PartsMarks lead o ms) (htable : tokenize source = .ok table)
    (hlast : last.IsMark "\x7d") (harrow : ∀ t ∈ behind, t.is "=>" = false)
    (hcalm : Calm (recent done)) (hbefore : Unpointed done) :
    Leads table ⟨done, ms.map Prod.fst ++ last :: behind, .fresh .block, outer⟩
      ⟨ms.reverse ++ done, last :: behind, .fresh .block, outer⟩ := by
  have harrows : ∀ {lead : List Token} {o : Bool} {ms : List (Token × Bool)}, PartsMarks lead o ms →
      ∀ t ∈ lead ++ (ms.map Prod.fst ++ last :: behind), t.is "=>" = false := by
    intro lead o ms h
    rw [← List.append_assoc, List.forall_mem_append]
    exact ⟨h.arrowless, List.forall_mem_cons.mpr ⟨by simp [hlast.is], harrow⟩⟩
  induction h generalizing done with
  | nil => exact .refl _
  | result hword hts hsemicolon hms ih =>
    simpa using hms.leads_ended htable (fun hcalm hbefore => ih hcalm hbefore) hts.inert hsemicolon
      hcalm
  | @leave word semicolon lead o' ms hword hsemicolon hms ih =>
    have hkept : Leads table
        ⟨done, word :: semicolon :: (lead ++ (ms.map Prod.fst ++ last :: behind)), .fresh .block,
          outer⟩
        ⟨(word, true) :: done, semicolon :: (lead ++ (ms.map Prod.fst ++ last :: behind)),
          .fresh .block, outer⟩ :=
      leads_word (by simp) hword.1 (by rw [hword.2]; decide) (by decide) hbefore
    have hended : Leads table _
        ⟨(semicolon, true) :: (word, true) :: done, lead ++ (ms.map Prod.fst ++ last :: behind),
          .fresh .block, outer⟩ := hkept.trans (leads_semicolon (by simp) hsemicolon)
    have hcalm' : Calm (recent ((semicolon, true) :: (word, true) :: done)) :=
      (hcalm.cons (isCalm_of_is hword.is (by decide))).mark hsemicolon (by decide)
    have hrest := hms.leads_behind (fun hcalm hbefore => ih hcalm hbefore) hcalm'
      (.of_is hsemicolon.is (by decide))
    simpa using hended.trans hrest
  | call hts hsemicolon hms ih =>
    simpa using hms.leads_ended htable (fun hcalm hbefore => ih hcalm hbefore) hts.inert hsemicolon
      hcalm
  | @label word colon ts lead m o o' ms hword hts hcolon hms hkept ih =>
    have hended : Leads table
        ⟨done, ts ++ colon :: (lead ++ (ms.map Prod.fst ++ last :: behind)), .fresh .block,
          outer⟩ _ :=
      hts.leads htable hcolon (by simp) (harrows hms)
        (fun k hk => hms.showsBody_eq htable hlast hk) hkept hcalm
    have hcalm' : Calm (recent ((colon, true) :: ((allKept ts).reverse ++ done))) :=
      (hcalm.marks (isCalm_allKept hts.isCalm)).mark hcolon (by decide)
    have hrest := hms.leads_behind (fun hcalm hbefore => ih hcalm hbefore) hcalm'
      (.of_is hcolon.is (by decide))
    simpa using hended.trans hrest
  | @misread word colon ts lead o ms hword hts hcolon hms ih =>
    have hended : Leads table
        ⟨done, ts ++ colon :: (lead ++ (ms.map Prod.fst ++ last :: behind)), .fresh .block,
          outer⟩ _ :=
      hts.leads_misread htable hcolon (by simp) (harrows hms)
        (fun k hk => hms.showsBody_eq htable hlast hk) (fun k hk => hms.typeEnd_eq hk) hcalm
    have hcalm' : Calm
        (recent ((allRemoved (colon :: lead)).reverse ++ ((allKept ts).reverse ++ done))) := by
      rw [recent_allRemoved]
      exact hcalm.marks (isCalm_allKept hts.isCalm)
    have hrest := ih hcalm' (.of_recent hts.unpointed recent_allRemoved)
    simpa using hended.trans hrest

end PartsMarks

/-- The tokens of `function`, a name, one parameter and the bracket of a body. -/
def FunctionTokens (ts : List Token) : Prop :=
  ∃ word name first parameter last block, ts = [word, name, first, parameter, last, block] ∧
    word.IsWord "function" ∧ name.IsName ∧ first.IsMark "(" ∧ parameter.IsName ∧
    last.IsMark ")" ∧ block.IsMark "\x7b"

/-- A run over the heading of a function comes into its body. -/
theorem FunctionTokens.leads (h : FunctionTokens ts) (hrest : rest ≠ []) :
    Leads table ⟨[], ts ++ rest, .fresh .top, []⟩
        ⟨(allKept ts).reverse, rest, .fresh .block, [.fresh .top]⟩ ∧
      Calm (recent (allKept ts).reverse) ∧ Unpointed (allKept ts).reverse := by
  obtain ⟨word, name, first, parameter, last, block, rfl, hword, hname, hfirst, hparameter, hlast,
    hblock⟩ := h
  have hbegin : Leads table
      ⟨[], word :: name :: first :: parameter :: last :: block :: rest, .fresh .top, []⟩
      ⟨[(word, true)], name :: first :: parameter :: last :: block :: rest, .fresh .top, []⟩ :=
    leads_function hword hname hfirst (by decide) unpointed_nil
  have hnamed : Leads table _
      ⟨[(name, true), (word, true)], first :: parameter :: last :: block :: rest, .fresh .top,
        []⟩ :=
    hbegin.trans (leads_name (by simp) hname (by decide) (.of_is hword.is (by decide)))
  have hopened := hnamed.trans (leads_parameters (by simp) hfirst (.inl rfl) fun s hs =>
    opensParameters_of_function hs.marks.preceded hname hword)
  have hpassed := hopened.trans (leads_name (by simp) hparameter (by decide)
    (.of_is hfirst.is (by decide)))
  have hclosed : Leads table _ ⟨[(last, true), (parameter, true), (first, true), (name, true),
      (word, true)], block :: rest, .fresh .top, []⟩ :=
    hpassed.trans (leads_close (.inl hlast) (.inl rfl) (by simp [hblock.is]))
  have hcalm : ∀ t ∈ [block, last, parameter, first], IsCalm t := by
    simp only [List.forall_mem_cons]
    exact ⟨isCalm_of_is hblock.is (by decide), isCalm_of_is hlast.is (by decide),
      isCalm_of_isName hparameter, isCalm_of_is hfirst.is (by decide), by simp⟩
  have hheading : Calm ([last, parameter, first] ++ [name, word]) :=
    calm_of_length (List.forall_mem_cons.mp hcalm).2 (by simp)
  have hbody : Calm ([block, last, parameter, first] ++ [name, word]) :=
    calm_of_length hcalm (by simp)
  exact ⟨hclosed.trans (leads_block hrest hblock (.inl rfl) hheading), hbody,
    .of_is hblock.is (by decide)⟩

/-- The tokens of `switch` and what the clauses are compared with, up to the bracket of the
clauses. -/
inductive SubjectTokens : List Token → Prop
  | mk {word first last block : Token} {a : Ending} {o : Bool} {us : List Token} :
      word.IsWord "switch" → first.IsMark "(" → PlainTokens a o us → last.IsMark ")" →
      block.IsMark "\x7b" → SubjectTokens (word :: first :: (us ++ [last, block]))

/-- A run over `switch` and what the clauses are compared with comes to the clauses. -/
theorem SubjectTokens.leads (h : SubjectTokens ts) (htable : tokenize source = .ok table)
    (hrest : rest ≠ []) (hcalm : Calm (recent done)) (hbefore : Unpointed done) :
    Leads table ⟨done, ts ++ rest, .fresh .block, outer⟩
        ⟨(allKept ts).reverse ++ done, rest, .fresh .block, .fresh .block :: outer⟩ ∧
      Calm (recent ((allKept ts).reverse ++ done)) ∧
      Unpointed ((allKept ts).reverse ++ done) := by
  obtain ⟨hword, hfirst, hus, hlast, hblock⟩ := h
  rename_i word first last block a o us
  have hkept : Leads table
      ⟨done, word :: first :: (us ++ last :: block :: rest), .fresh .block, outer⟩
      ⟨(word, true) :: done, first :: (us ++ last :: block :: rest), .fresh .block, outer⟩ :=
    leads_word (by simp) hword.1 (by rw [hword.2]; decide) (by decide) hbefore
  have hcalm₁ : Calm (recent ((word, true) :: done)) :=
    hcalm.cons (isCalm_of_is hword.is (by decide))
  have hmethod : (recent ((word, true) :: done)).head?.any Token.namesMethod = false := by
    have hnone : word.namesMethod = false := by
      rw [Token.namesMethod, hword.1, hword.2]
      decide
    exact hnone
  have hopened := hkept.trans (leads_group_of_block htable hfirst hus.inert.balanced hlast hblock
    (.inl rfl) hcalm₁ hmethod)
  have hcalm₂ : Calm (recent ((first, true) :: (word, true) :: done)) :=
    hcalm₁.mark hfirst (by decide)
  have hsubject := hopened.trans (leads_inert htable hus.inert (Place.allows_fresh (by decide))
    (fun hclass => absurd hclass (by decide)) hcalm₂ (hlast.follows (by decide)))
  have hclosed : Leads table _
      ⟨(last, true) :: ((allKept us).reverse ++ (first, true) :: (word, true) :: done),
        block :: rest, .fresh .block, outer⟩ :=
    hsubject.trans (leads_close (.inl hlast) (.inl rfl) (by simp [hblock.is]))
  have hcalm₃ : Calm (recent
      ((last, true) :: ((allKept us).reverse ++ (first, true) :: (word, true) :: done))) :=
    (hcalm₂.marks (isCalm_allKept hus.inert.calm)).mark hlast (by decide)
  have hbody := hclosed.trans (leads_block hrest hblock (.inl rfl) hcalm₃)
  have hall : (allKept (word :: first :: (us ++ [last, block]))).reverse ++ done =
      (block, true) :: (last, true) ::
        ((allKept us).reverse ++ (first, true) :: (word, true) :: done) := by
    simp [allKept]
  rw [hall, show word :: first :: (us ++ [last, block]) ++ rest =
    word :: first :: (us ++ last :: block :: rest) by simp]
  exact ⟨hbody, hcalm₃.mark hblock (by decide), .of_is hblock.is (by decide)⟩

/-- The tokens of a function whose body is a switch statement. -/
inductive SwitchMarks : List (Token × Bool) → Prop
  | mk {ts us lead : List Token} {o : Bool} {ms : List (Token × Bool)} {last close : Token} :
      FunctionTokens ts → SubjectTokens us → PartsMarks lead o ms → last.IsMark "\x7d" →
      close.IsMark "\x7d" →
      SwitchMarks (allKept ts ++ (allKept us ++ (allKept lead ++
        (ms ++ [(last, true), (close, true)]))))

namespace SwitchMarks

variable {ms : List (Token × Bool)}

theorem balanced (h : SwitchMarks ms) : Balanced (ms.map Prod.fst) := by
  obtain ⟨⟨word, name, first, parameter, last', block, rfl, hword, hname, hfirst, hparameter,
    hlast', hblock⟩, ⟨hswitch, hfirst', hus, hlast'', hblock'⟩, hparts, hlast, hclose⟩ := h
  have hclauses := Balanced.group (hblock'.opens? .curly) (hlast.closes? .curly)
    hparts.balanced .nil
  have hgroup := Balanced.group (hfirst'.opens? .round) (hlast''.closes? .round)
    hus.inert.balanced hclauses
  have hbody := Balanced.group (hblock.opens? .curly) (hclose.closes? .curly)
    (.of_word hswitch (by decide) hgroup) .nil
  have hparameters := Balanced.group (hfirst.opens? .round) (hlast'.closes? .round)
    (.of_name hparameter .nil) hbody
  simpa using Balanced.of_word hword (by decide) (.of_name hname hparameters)

/-- A run over a function whose body is a switch statement keeps all but the colons and words that
are read as result types. -/
theorem leads (h : SwitchMarks ms) (htable : tokenize source = .ok table)
    (hnext : next.kind = .finish) :
    Leads table ⟨[], ms.map Prod.fst ++ [next], .fresh .top, []⟩
      ⟨ms.reverse, [next], .fresh .top, []⟩ := by
  obtain ⟨hts, hus, hparts, hlast, hclose⟩ := h
  rename_i ts us lead o ms last close
  have hfinish : ∀ text, next.is text = false := fun text => by simp [Token.is, hnext]
  have harrow : ∀ t ∈ [close, next], t.is "=>" = false := by
    simp [hclose.is, hfinish]
  have hclauses : lead ++ (ms.map Prod.fst ++ last :: [close, next]) ≠ [] := by simp
  obtain ⟨hheading, hcalm, hbefore⟩ : Leads table
      ⟨[], ts ++ (us ++ (lead ++ (ms.map Prod.fst ++ last :: [close, next]))), .fresh .top, []⟩ _ ∧
        _ :=
    hts.leads (List.append_ne_nil_of_right_ne_nil us hclauses)
  obtain ⟨hsubject, hcalm', hbefore'⟩ := hus.leads htable hclauses hcalm hbefore
  have hpassed := (hheading.trans hsubject).trans (hparts.leads_behind
    (fun hcalm hbefore => hparts.leads htable hlast harrow hcalm hbefore) hcalm' hbefore')
  have hended := (hpassed.trans (leads_close (.inr (.inr hlast)) (.inl rfl)
    (by simp [hclose.is]))).trans (leads_close (.inr (.inr hclose)) (.inl rfl) (hfinish _))
  simpa using hended

end SwitchMarks

end Workflow.Script
