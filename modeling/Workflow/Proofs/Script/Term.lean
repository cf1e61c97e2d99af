import Workflow.Proofs.Script.PlainPhrase
import Workflow.Proofs.Script.Statement

/-!
# Terms

Expressions that compare and calculate. Behind an operand an opening angle bracket compares,
unless what follows it reads as type arguments, and these are closed by `>`. So a term in whose
source no `>` occurs is left as it is, however its operands are made up.
-/

namespace Workflow.Script

/-- An operator between terms. -/
inductive TermOperator where
  | add
  | subtract
  | multiply
  | remainder
  | less
  | atMost
  | and
  | or
  | nullish
  | equal

def TermOperator.text : TermOperator → String
  | .add => "+"
  | .subtract => "-"
  | .multiply => "*"
  | .remainder => "%"
  | .less => "<"
  | .atMost => "<="
  | .and => "&&"
  | .or => "||"
  | .nullish => "??"
  | .equal => "==="

/-- An expression of names and numbers with members, indices, calls and operators. -/
inductive Term where
  | name (x : PlainName)
  | number (n : NumberLiteral)
  | member (e : Term) (x : PlainName)
  | index (e key : Term)
  | call (e : Term) (arguments : List Term)
  | group (e : Term)
  | binary (operator : TermOperator) (left right : Term)

/-- Induction on terms; for the arguments of a call each one is at hand. -/
@[elab_as_elim, induction_eliminator]
theorem Term.induction {motive : Term → Prop}
    (name : ∀ x, motive (.name x))
    (number : ∀ n, motive (.number n))
    (member : ∀ e x, motive e → motive (.member e x))
    (index : ∀ e key, motive e → motive key → motive (.index e key))
    (call : ∀ e arguments, motive e → (∀ d ∈ arguments, motive d) → motive (.call e arguments))
    (group : ∀ e, motive e → motive (.group e))
    (binary : ∀ operator left right, motive left → motive right →
      motive (.binary operator left right)) (e : Term) : motive e :=
  @Term.rec motive (fun es => ∀ e ∈ es, motive e) name number member index call group binary
    (by simp) (fun _ _ h hs => List.forall_mem_cons.mpr ⟨h, hs⟩) e

mutual

/-- A term as it is written. -/
def Term.text : Term → String
  | .name x => x.text
  | .number n => n.text
  | .member e x => e.text ++ "." ++ x.text
  | .index e key => e.text ++ "[" ++ key.text ++ "]"
  | .call e arguments => e.text ++ "(" ++ ", ".intercalate (Term.texts arguments) ++ ")"
  | .group e => "(" ++ e.text ++ ")"
  | .binary operator left right => left.text ++ " " ++ operator.text ++ " " ++ right.text

def Term.texts : List Term → List String
  | [] => []
  | e :: rest => e.text :: Term.texts rest

end

theorem Term.texts_eq_map (items : List Term) : Term.texts items = items.map Term.text := by
  induction items with
  | nil => rfl
  | cons e items ih => rw [Term.texts, ih, List.map_cons]

variable {source text : String} {table : TokenTable} {ts us vs behind : List Token}
  {t first last next : Token} {place : Place} {done : List (Token × Bool)} {f : Frame}
  {outer : List Frame} {i : Nat}

/-! ## The characters of terms -/

/-- The character neither closes an angle bracket nor divides. -/
def IsTermChar (c : Char) : Prop := c ≠ '>' ∧ c ≠ '/'

instance (c : Char) : Decidable (IsTermChar c) := inferInstanceAs (Decidable (_ ∧ _))

/-- Whether all characters may stand in a term is decided on a list of them. -/
theorem isTermChar_of_all {cs : List Char} (h : (cs.all fun c => decide (IsTermChar c)) = true) :
    ∀ c ∈ cs, IsTermChar c :=
  fun c hc => of_decide_eq_true (List.all_eq_true.mp h c hc)

/-- The characters of a name may stand in a term. -/
theorem PlainName.isTermChar (x : PlainName) : ∀ c ∈ x.text.toList, IsTermChar c := by
  have hpart : ∀ c, (isLetter c || c.isDigit) = true → IsTermChar c := by
    refine fun c hc => ⟨?_, ?_⟩ <;> rintro rfl <;> cases hc
  rw [x.text_eq]
  refine List.forall_mem_cons.mpr ⟨hpart _ ?_, fun c hc => hpart c (x.rest_isPart c hc)⟩
  rw [x.first_isLetter, Bool.true_or]

theorem NumberLiteral.isTermChar (n : NumberLiteral) : ∀ c ∈ n.text.toList, IsTermChar c := by
  have hdigit : ∀ c, c.isDigit = true → IsTermChar c := by
    refine fun c hc => ⟨?_, ?_⟩ <;> rintro rfl <;> cases hc
  have hpart : ∀ c, (c.isAlphanum || c == '_' || c == '.') = true → IsTermChar c := by
    refine fun c hc => ⟨?_, ?_⟩ <;> rintro rfl <;> cases hc
  rw [NumberLiteral.text, String.toList_ofList]
  simp only [List.forall_mem_cons, List.forall_mem_append]
  refine ⟨hdigit _ n.first_isDigit, fun c hc => hpart c (n.rest_isPart c hc), ?_⟩
  rcases n.exponent_eq with hnone | ⟨sign, digits, hexponent, hsign, hdigits, -⟩
  · simp [hnone]
  · rw [hexponent]
    refine List.forall_mem_cons.mpr ⟨?_, fun c hc => hdigit c (hdigits c hc)⟩
    rcases hsign with rfl | rfl <;> decide

/-- The characters of an operator may stand in a term. -/
theorem TermOperator.isTermChar (o : TermOperator) : ∀ c ∈ o.text.toList, IsTermChar c := by
  refine isTermChar_of_all ?_
  cases o <;> decide

/-- The characters of a list are those of its items and of what stands between them. -/
theorem forall_mem_intercalate {p : Char → Prop} {separator : String} {items : List String}
    (hseparator : ∀ c ∈ separator.toList, p c) (hitems : ∀ x ∈ items, ∀ c ∈ x.toList, p c) :
    ∀ c ∈ (separator.intercalate items).toList, p c := by
  have hfollowing : ∀ c ∈ (following separator items).toList, p c := by
    induction items with
    | nil => simp [following]
    | cons x items ih =>
      simp only [List.forall_mem_cons] at hitems
      simp only [following, String.toList_append, List.forall_mem_append]
      exact ⟨⟨hseparator, hitems.1⟩, ih hitems.2⟩
  cases items with
  | nil => simp
  | cons x items =>
    simp only [following, String.toList_append, List.forall_mem_append] at hfollowing
    rw [intercalate_cons, String.toList_append, List.forall_mem_append]
    exact ⟨hfollowing.1.2, hfollowing.2⟩

/-- Only such characters stand in a term, by induction on it. -/
theorem Term.isTermChar (e : Term) : ∀ c ∈ e.text.toList, IsTermChar c := by
  have hmarks : ∀ text ∈ [".", "[", "]", "(", ")", ", ", " "], ∀ c ∈ text.toList, IsTermChar c := by
    intro text htext
    refine isTermChar_of_all ?_
    revert text
    decide
  simp only [List.forall_mem_cons] at hmarks
  obtain ⟨hpoint, hopen, hclose, hround, hround', hcomma, hspace, -⟩ := hmarks
  induction e with
  | name x => exact x.isTermChar
  | number n => exact n.isTermChar
  | member e x ih =>
    simp only [text, String.toList_append, List.forall_mem_append]
    exact ⟨⟨ih, hpoint⟩, x.isTermChar⟩
  | index e key ih ihKey =>
    simp only [text, String.toList_append, List.forall_mem_append]
    exact ⟨⟨⟨ih, hopen⟩, ihKey⟩, hclose⟩
  | call e arguments ih ihArguments =>
    simp only [text, String.toList_append, List.forall_mem_append]
    refine ⟨⟨⟨ih, hround⟩, forall_mem_intercalate hcomma ?_⟩, hround'⟩
    rw [texts_eq_map]
    exact List.forall_mem_map.mpr ihArguments
  | group e ih =>
    simp only [text, String.toList_append, List.forall_mem_append]
    exact ⟨⟨hround, ih⟩, hround'⟩
  | binary operator left right ihLeft ihRight =>
    simp only [text, String.toList_append, List.forall_mem_append]
    exact ⟨⟨⟨⟨ihLeft, hspace⟩, operator.isTermChar⟩, hspace⟩, ihRight⟩

/-- A mark of which no character occurs in a source is no token of it. -/
theorem TokenTable.is_eq_false_of_not_mem {c : Char} (htable : tokenize source = .ok table)
    (hsource : c ∉ source.toList) (htext : c ∈ text.toList) (i : Nat) :
    table.is i text = false := by
  obtain ⟨t, ts, hall, hof⟩ := readTokens_eq_iff.mp (tokenize_eq_ok_iff.mp htable).1
  rw [Bool.eq_false_iff]
  intro his
  obtain ⟨u, hu, hmark⟩ := (Option.any_eq_true _ _).mp his
  have hmem : u ∈ t :: ts := hall ▸ Array.mem_toList_iff.mpr (Array.mem_of_getElem? hu)
  simp only [Token.is, Bool.and_eq_true, beq_iff_eq] at hmark
  refine hsource (hof.characters ▸ List.mem_flatMap.mpr ⟨u, hmem, ?_⟩)
  exact List.mem_append_right _ (hmark.2 ▸ htext)

/-! ## The tokens of terms -/

/-- The token ends a term. -/
def Token.EndsTerm (t : Token) : Prop := t.EndsOperand ∧ t.is "\x7d" = false

/-- A mark stands behind a term that neither opens a body nor makes parameters of a group. -/
def Token.BehindTerm (t : Token) : Prop := ∃ text, t.IsMark text ∧ text ∉ ["=>", "\x7b", ":"]

/-- What may stand behind a term ends an operand there. -/
theorem Token.BehindTerm.follows (h : next.BehindTerm) : next.Follows f := by
  obtain ⟨text, hmark, htext⟩ := h
  exact hmark.follows htext

/-- The operators between terms. -/
def termMarks : List String := ["+", "-", "*", "%", "<", "<=", "&&", "||", "??", "==="]

/-- The tokens of a term, or of terms with commas between them. -/
inductive TermTokens : Place → List Token → Prop
  | block {ts : List Token} : Inert .operand ts → (∃ t ∈ ts.getLast?, t.EndsTerm) →
      TermTokens .operand ts
  | members {ts us : List Token} : TermTokens .operand ts → Members us →
      TermTokens .operand (ts ++ us)
  | group {first last : Token} {ts : List Token} : first.IsMark "(" → TermTokens .operand ts →
      last.IsMark ")" → TermTokens .operand (first :: (ts ++ [last]))
  | index {first last : Token} {us ts : List Token} : TermTokens .operand us → first.IsMark "[" →
      TermTokens .operand ts → last.IsMark "]" → TermTokens .operand (us ++ first :: (ts ++ [last]))
  | call {first last : Token} {us ts : List Token} : TermTokens .operand us → first.IsMark "(" →
      TermTokens .items ts → last.IsMark ")" → TermTokens .operand (us ++ first :: (ts ++ [last]))
  | binary {t : Token} {text : String} {us vs : List Token} : TermTokens .operand us →
      t.IsMark text → text ∈ termMarks → TermTokens .operand vs →
      TermTokens .operand (us ++ t :: vs)
  | none : TermTokens .items []
  | item {us vs : List Token} : TermTokens .operand us → TermTokens .items vs →
      (∀ t ∈ vs.head?, t.IsMark ",") → TermTokens .items (us ++ vs)
  | comma {t : Token} {ts : List Token} : t.IsMark "," → TermTokens .items ts →
      TermTokens .items (t :: ts)

/-- No mark that may stand behind a term is a bracket or gives one a meaning. -/
theorem not_bracket_of_mem_termMarks (h : text ∈ termMarks) :
    text ∉ ["(", "[", "\x7b", ")", "]", "\x7d"] ∧ text ∉ ["=>", "\x7b", ":"] ∧
      text ∉ Erasure.bracketWords := by
  revert text
  decide

namespace TermTokens

/-- The tokens of a term are balanced. -/
theorem balanced (h : TermTokens place ts) : Balanced ts := by
  induction h with
  | block hts _ => exact hts.balanced
  | members _ hus ih => exact ih.append hus.inert.balanced
  | group hfirst _ hlast ih => exact .group (hfirst.opens? .round) (hlast.closes? .round) ih .nil
  | index _ hfirst _ hlast ih ihKey =>
    exact ih.append (.group (hfirst.opens? .square) (hlast.closes? .square) ihKey .nil)
  | call _ hfirst _ hlast ih ihArguments =>
    exact ih.append (.group (hfirst.opens? .round) (hlast.closes? .round) ihArguments .nil)
  | binary _ ht hmem _ ihLeft ihRight =>
    exact ihLeft.append (.of_mark ht (not_bracket_of_mem_termMarks hmem).1 ihRight)
  | none => exact .nil
  | item _ _ _ ih ihItems => exact ih.append ihItems
  | comma ht _ ih => exact .of_mark ht (by decide) ih

/-- No token of a term gives a bracket a meaning. -/
theorem calm (h : TermTokens place ts) : ∀ t ∈ ts, Erasure.IsCalm t := by
  induction h with
  | block hts _ => exact hts.calm
  | members _ hus ih => exact List.forall_mem_append.mpr ⟨ih, hus.inert.calm⟩
  | group hfirst _ hlast ih =>
    simp only [List.forall_mem_cons, List.forall_mem_append]
    exact ⟨Erasure.isCalm_of_is hfirst.is (by decide), ih,
      Erasure.isCalm_of_is hlast.is (by decide), by simp⟩
  | index _ hfirst _ hlast ih ihInner | call _ hfirst _ hlast ih ihInner =>
    simp only [List.forall_mem_cons, List.forall_mem_append]
    exact ⟨ih, Erasure.isCalm_of_is hfirst.is (by decide), ihInner,
      Erasure.isCalm_of_is hlast.is (by decide), by simp⟩
  | binary _ ht hmem _ ihLeft ihRight =>
    simp only [List.forall_mem_cons, List.forall_mem_append]
    exact ⟨ihLeft, Erasure.isCalm_of_is ht.is (not_bracket_of_mem_termMarks hmem).2.2, ihRight⟩
  | none => simp
  | item _ _ _ ih ihItems => exact List.forall_mem_append.mpr ⟨ih, ihItems⟩
  | comma ht _ ih =>
    exact List.forall_mem_cons.mpr ⟨Erasure.isCalm_of_is ht.is (by decide), ih⟩

/-- A term ends with an operand. -/
theorem endsTerm (h : TermTokens .operand ts) : ∃ t ∈ ts.getLast?, t.EndsTerm := by
  have hbracket : ∀ (us : List Token) {v : Token}, v.IsMark ")" ∨ v.IsMark "]" →
      ∃ t ∈ (us ++ [v]).getLast?, t.EndsTerm := by
    intro us v hv
    refine ⟨v, List.getLast?_concat, ?_⟩
    rcases hv with hv | hv
    · exact ⟨.inr (.inr (.inl hv)), by simp [hv.is]⟩
    · exact ⟨.inr (.inr (.inr (.inl hv))), by simp [hv.is]⟩
  have hbehind : ∀ (us : List Token) {vs : List Token}, (∃ t ∈ vs.getLast?, t.EndsTerm) →
      ∃ t ∈ (us ++ vs).getLast?, t.EndsTerm := by
    rintro us vs ⟨t, ht, hends⟩
    exact ⟨t, by rw [List.getLast?_append, Option.mem_def.mp ht]; rfl, hends⟩
  generalize hplace : Place.operand = place' at h
  induction h with
  | block _ hlast => exact hlast
  | @members ts us _ hus ih =>
    by_cases hne : us = []
    · rw [hne, List.append_nil]
      exact ih hplace
    · obtain ⟨t, ht, hname⟩ := hus.exists_last hne
      exact hbehind ts ⟨t, ht, .inl hname, hname.is_eq_false (.inr (by decide))⟩
  | @group first last ts _ _ hlast _ => exact hbracket (first :: ts) (.inl hlast)
  | @index first last us ts _ _ _ hlast _ _ =>
    simpa using hbracket (us ++ first :: ts) (.inr hlast)
  | @call first last us ts _ _ _ hlast _ _ => simpa using hbracket (us ++ first :: ts) (.inl hlast)
  | @binary t _ us vs _ _ _ _ _ ih => simpa using hbehind (us ++ [t]) (ih hplace)
  | none => cases hplace
  | item => cases hplace
  | comma => cases hplace

end TermTokens

/-! ## Comparisons -/

namespace Erasure

variable {s : Erasure} {rest : List Token}

/-- An angle bracket is read as the start of types or as a comparison. -/
theorem step_angle (hk : table.Ahead i (t :: ts)) (ht : t.IsMark "<") :
    s.step table i = s.angle table i := by
  rw [step_mark hk ht, punctuator, hk.text, ht.2]
  rfl

/-- What ends a term ends an operand behind which an angle bracket may compare. -/
theorem behindOperand_of_endsTerm (hs : s.At table done rest)
    (hbefore : ∃ v ∈ (recent done).head?, v.EndsTerm) :
    ((s.previous done.length).any fun p => s.endsOperand table p && !table.is p "async") =
      true := by
  obtain ⟨v, hv, hends, hcurly⟩ := hbefore
  obtain ⟨vs, hrecent⟩ := List.head?_eq_some_iff.mp hv
  have hpreceded : s.Preceded table done.length (v :: vs) := hrecent ▸ hs.preceded
  obtain ⟨p, hp, htoken, -⟩ := hpreceded
  have hasync : v.is "async" = false := by
    rcases hends with hname | hliteral | hmark | hmark | hmark
    · exact hname.is_eq_false (.inl (by decide))
    · exact Token.is_eq_false hliteral
    all_goals
      rw [hmark.is]
      rfl
  rw [hp, Option.any_some, endsOperand_eq_true htoken hends hcurly, is_of_getElem? htoken, hasync]
  rfl

/-- Type arguments are closed by an angle bracket. -/
theorem typeArgumentsEndFrom_eq_none (hangle : ∀ k, table.is k ">" = false) (k : Nat) :
    typeArgumentsEndFrom table k = none := by
  fun_induction typeArgumentsEndFrom table k with
  | case1 => rfl
  | case2 _ m _ _ hclosed => simp [hangle] at hclosed
  | case3 => rfl
  | case4 _ _ _ _ _ _ _ _ hrest ih => simp [ih] at hrest
  | case5 => rfl

/-- Without closing angle brackets, an opening one compares. -/
theorem leads_less (hrest : rest ≠ []) (ht : t.IsMark "<") (hangle : ∀ k, table.is k ">" = false)
    (hbefore : ∃ v ∈ (recent done).head?, v.EndsTerm) :
    Leads table ⟨done, t :: rest, f, outer⟩ ⟨(t, true) :: done, rest, f, outer⟩ := by
  refine leads_of_onFrame id hrest fun s hs => ?_
  have hnone : typeArgumentsEnd table done.length = none := by
    rw [typeArgumentsEnd, typeArgumentsEndFrom_eq_none hangle]
  rw [step_angle hs.ahead ht, angle, if_pos (behindOperand_of_endsTerm hs.marks hbefore), hnone]
  rfl

/-- An operator between terms is passed over. -/
theorem leads_termMark {text : String} (hrest : rest ≠ []) (ht : t.IsMark text)
    (hmem : text ∈ termMarks) (hangle : ∀ k, table.is k ">" = false)
    (hbefore : ∃ v ∈ (recent done).head?, v.EndsTerm) :
    Leads table ⟨done, t :: rest, f, outer⟩ ⟨(t, true) :: done, rest, f, outer⟩ := by
  by_cases hless : text = "<"
  · subst hless
    exact leads_less hrest ht hangle hbefore
  · have hother : ∀ text ∈ termMarks, text ≠ "<" → text ∉
        ["(", "[", "\x7b", ")", "]", "\x7d", "<", ":", "?", "!", "=", ",", ";"] := by
      decide
    exact leads_of_onFrame id hrest fun _ hs => step_operator hs.ahead ht (hother text hmem hless)

end Erasure

/-- The innermost bracket is one in which terms may stand. -/
structure Place.Holds (place : Place) (f : Frame) : Prop extends place.Allows f where
  noClass : f.kind ≠ .classBody

open Erasure

/-- Terms may stand at each place of an opened bracket. -/
theorem Place.holds_fresh {kind : FrameKind} (hkind : kind ≠ .parameters ∧ kind ≠ .classBody) :
    place.Holds (.fresh kind) :=
  ⟨Place.allows_fresh hkind.1, hkind.2⟩

/-- A term may be the initial value of a variable. -/
theorem operand_holds_top : Place.operand.Holds (topFrame (some .initializer)) :=
  ⟨operand_allows_top, by decide⟩

theorem Place.Holds.operand (h : place.Holds f) : Place.operand.Holds f :=
  ⟨⟨h.parameters, h.settled, fun hne => absurd rfl hne, nofun⟩, h.noClass⟩

/-- A mark without a role behind parameters may stand behind a term. -/
theorem Token.BehindTerm.of_mark (ht : t.IsMark text) (htext : text ∉ ["=>", "\x7b", ":"]) :
    t.BehindTerm := ⟨text, ht, htext⟩

theorem Token.BehindTerm.no_colon (h : next.BehindTerm) : next.is ":" = false := by
  obtain ⟨text, hmark, htext⟩ := h
  rw [hmark.is, beq_eq_false_iff_ne]
  rintro rfl
  exact htext (by decide)

/-- A run passes over tokens in whose place terms may stand. -/
def TermPasses (table : TokenTable) (place : Place) (ts : List Token) : Prop :=
  ∀ ⦃done : List (Token × Bool)⦄ ⦃next : Token⦄ ⦃behind : List Token⦄ ⦃f : Frame⦄
    ⦃outer : List Frame⦄, place.Holds f → Calm (recent done) → next.BehindTerm →
    Leads table ⟨done, ts ++ next :: behind, f, outer⟩
      ⟨(allKept ts).reverse ++ done, next :: behind, f, outer⟩

namespace TermPasses

/-- Inert tokens are passed as a term, as no angle bracket stands among them. -/
theorem of_inert (htable : tokenize source = .ok table) (h : Inert place ts) :
    TermPasses table place ts := fun _ _ _ _ _ hframe hcalm hnext =>
  leads_inert htable h hframe.toAllows (fun hkind => absurd hkind hframe.noClass) hcalm
    hnext.follows

/-- Operands are passed at every place. -/
theorem of_operand (h : TermPasses table .operand ts) : TermPasses table place ts :=
  fun _ _ _ _ _ hframe => h hframe.operand

/-- What is passed one after the other is passed as a whole. -/
theorem append (hus : TermPasses table place us) (hcalm : ∀ t ∈ us, IsCalm t)
    (hvs : TermPasses table place vs) (hhead : ∀ t ∈ vs.head?, t.BehindTerm) :
    TermPasses table place (us ++ vs) := by
  intro done next behind f outer hframe hcalm' hnext
  obtain ⟨u, others, hu, hbehind⟩ : ∃ u others, vs ++ next :: behind = u :: others ∧
      u.BehindTerm := by
    cases vs with
    | nil => exact ⟨next, behind, rfl, hnext⟩
    | cons t vs => exact ⟨t, _, rfl, hhead t rfl⟩
  have hfirst : Leads table ⟨done, us ++ u :: others, f, outer⟩ _ := hus hframe hcalm' hbehind
  have hrest : Leads table ⟨_, vs ++ next :: behind, f, outer⟩ _ :=
    hvs hframe (hcalm'.marks (isCalm_allKept hcalm)) hnext
  rw [← hu] at hfirst
  simpa [allKept] using hfirst.trans hrest

/-- A bracket is passed over if what stands in it is. -/
theorem enclosed {text : String} {kind : FrameKind}
    (hopen : ∀ ⦃done : List (Token × Bool)⦄ ⦃next : Token⦄ ⦃behind : List Token⦄ ⦃f : Frame⦄
      ⦃outer : List Frame⦄, place.Holds f → Calm (recent done) → next.BehindTerm →
      Leads table ⟨done, first :: (ts ++ last :: next :: behind), f, outer⟩
        ⟨(first, true) :: done, ts ++ last :: next :: behind, .fresh kind, f :: outer⟩)
    (hkind : kind ≠ .parameters ∧ kind ≠ .classBody) (hfirst : first.IsMark text)
    (htext : text ∉ bracketWords) (hlast : last.IsMark ")" ∨ last.IsMark "]")
    {place' : Place} (hts : TermPasses table place' ts) :
    TermPasses table place (first :: (ts ++ [last])) := by
  intro done next behind f outer hframe hcalm hnext
  have hbehind : last.BehindTerm := by
    rcases hlast with hlast | hlast <;> exact .of_mark hlast (by decide)
  have hinner : Leads table _
      ⟨(allKept ts).reverse ++ (first, true) :: done, last :: next :: behind, .fresh kind,
        f :: outer⟩ :=
    hts (place'.holds_fresh hkind) (hcalm.mark hfirst htext) hbehind
  have hclosed := hinner.trans (leads_close (hlast.imp_right .inl) hframe.settled hnext.no_colon)
  simpa [allKept] using (hopen hframe hcalm hnext).trans hclosed

/-- What is passed in a round bracket may be passed in it wherever a term stands. -/
theorem round (htable : tokenize source = .ok table) (hfirst : first.IsMark "(")
    (hbalanced : Balanced ts) (hlast : last.IsMark ")") {place' : Place}
    (hts : TermPasses table place' ts) : TermPasses table place (first :: (ts ++ [last])) :=
  enclosed (fun _ _ _ _ _ hframe hcalm hnext =>
      leads_group htable hfirst hbalanced hlast hnext.follows hframe.settled hcalm)
    (by decide) hfirst (by decide) (.inl hlast) hts

/-- What is passed in a square bracket may be passed in it wherever a term stands. -/
theorem square (hfirst : first.IsMark "[") (hlast : last.IsMark "]") {place' : Place}
    (hts : TermPasses table place' ts) : TermPasses table place (first :: (ts ++ [last])) :=
  enclosed (fun _ _ _ _ _ hframe _ _ => leads_open (by simp) hframe.settled
      fun _ hs => ⟨true, step_square hs.ahead hfirst⟩)
    (by decide) hfirst (by decide) (.inr hlast) hts

end TermPasses

namespace TermTokens

/-- Behind a term its last token is the nearest one. -/
theorem recent_last (h : TermTokens .operand ts) :
    ∃ v ∈ (recent ((allKept ts).reverse ++ done)).head?, v.EndsTerm := by
  obtain ⟨v, hv, hends⟩ := h.endsTerm
  refine ⟨v, ?_, hends⟩
  rw [recent_allKept, List.head?_append, List.head?_reverse, Option.mem_def.mp hv]
  rfl

/-- Terms in whose source no closing angle bracket occurs are passed over. -/
theorem passes (h : TermTokens place ts) (htable : tokenize source = .ok table)
    (hangle : ∀ k, table.is k ">" = false) : TermPasses table place ts := by
  induction h with
  | block hts _ => exact .of_inert htable hts
  | members hts hus ih =>
    exact ih.append hts.calm (.of_inert htable hus.inert)
      fun t ht => .of_mark (hus.isMark_head t ht) (by decide)
  | group hfirst hts hlast ih => exact .round htable hfirst hts.balanced hlast ih
  | index hus hfirst _ hlast ih ihKey =>
    refine ih.append hus.calm (.square hfirst hlast ihKey) ?_
    rintro _ ⟨⟩
    exact .of_mark hfirst (by decide)
  | call hus hfirst hts hlast ih ihArguments =>
    refine ih.append hus.calm (.round htable hfirst hts.balanced hlast ihArguments) ?_
    rintro _ ⟨⟩
    exact .of_mark hfirst (by decide)
  | @binary t text us vs hus ht hmem _ ihLeft ihRight =>
    intro done next behind f outer hframe hcalm hnext
    obtain ⟨-, hbehind, hword⟩ := not_bracket_of_mem_termMarks hmem
    have hleft : Leads table ⟨done, us ++ t :: (vs ++ next :: behind), f, outer⟩ _ :=
      ihLeft hframe hcalm (.of_mark ht hbehind)
    have hmark := hleft.trans (leads_termMark (by simp) ht hmem hangle hus.recent_last)
    have hright := hmark.trans
      (ihRight hframe ((hcalm.marks (isCalm_allKept hus.calm)).mark ht hword) hnext)
    simpa [allKept] using hright
  | none => exact fun _ _ _ _ _ _ _ _ => .refl _
  | item hus _ hhead ih ihItems =>
    exact ih.of_operand.append hus.calm ihItems fun t ht => .of_mark (hhead t ht) (by decide)
  | @comma t ts ht _ ih =>
    intro done next behind f outer hframe hcalm hnext
    have hcomma : Leads table ⟨done, t :: (ts ++ next :: behind), f, outer⟩ _ :=
      leads_comma (by simp) ht
    rw [afterComma_eq (hframe.items (by decide))] at hcomma
    have hrest := hcomma.trans (ih hframe (hcalm.mark ht (by decide)) hnext)
    simpa [allKept] using hrest

end TermTokens

/-! ## How terms are read -/

/-- An operator of a term is read as a mark in front of a blank. -/
theorem phrase_termOperator (o : TermOperator) : Phrase o.text (· = ' ') (IsMarkToken o.text) := by
  cases o <;> exact phrase_infix _ (by decide) (by decide) (by decide)

/-- The operators of terms are among the marks that may stand behind one. -/
theorem TermOperator.text_mem (o : TermOperator) : o.text ∈ termMarks := by
  cases o <;> decide

/-- What ends with a name or a number ends like a term. -/
theorem PlainTokens.termTokens {a : Ending} {object : Bool} (h : PlainTokens a object ts)
    (ha : a ≠ .other) : TermTokens .operand ts := by
  obtain ⟨t, ht, hends⟩ := h.ending
  refine .block h.inert ⟨t, ht, ?_⟩
  cases a with
  | name => exact ⟨.inl hends, hends.is_eq_false (.inr (by decide))⟩
  | number => exact ⟨.inr (.inl (.inr hends)), Token.is_eq_false (.inr hends)⟩
  | other => exact absurd rfl ha

/-- Members behind a name or a number end as a name or a number does. -/
theorem Ending.members_ne_other {a : Ending} (ha : a ≠ .other) (members : List PlainName) :
    a.members members ≠ .other := by
  induction members generalizing a with
  | nil => exact ha
  | cons x members ih => exact ih (a.member_ne_other x)

/-- The text is read as a term, also with members behind it. -/
def TermTakes (text : String) : Prop :=
  ∀ members, Phrase (text ++ dotted members) Delimits (TermTokens .operand)

/-- A term is read as one without members behind it. -/
theorem TermTakes.phrase (h : TermTakes text) : Phrase text Delimits (TermTokens .operand) := by
  simpa [dotted] using h []

/-- An expression that ends with a name or a number is read as a term. -/
theorem PlainTakes.termTakes {a : Ending} {object : Bool} (h : PlainTakes a object text)
    (ha : a ≠ .other) : TermTakes text := fun members =>
  (h members).mono (fun _ => id) fun _ hts => hts.termTokens (Ending.members_ne_other ha members)

/-- A text that ends with a bracket may be followed by everything. -/
theorem Phrase.termTakes (h : Phrase text (fun _ => True) (TermTokens .operand)) :
    TermTakes text := by
  intro members
  refine ((h.mono (fun _ _ => trivial) fun _ => id).members members).mono (fun _ => id) ?_
  rintro _ ⟨us, vs, rfl, hus, hvs, -⟩
  exact .members hus hvs

/-- A list of terms up to the bracket that closes it. -/
theorem lexes_terms {arguments : List Term} (h : ∀ e ∈ arguments, TermTakes e.text) :
    Lexes (", ".intercalate (Term.texts arguments) ++ ")") (fun _ => True)
      (IsClosed (TermTokens .items) ")") := by
  have hitems : ∀ x ∈ Term.texts arguments, Phrase x Delimits (TermTokens .operand) := by
    rw [Term.texts_eq_map]
    exact List.forall_mem_map.mpr fun e he => (h e he).phrase
  refine lexes_intercalate "," ")" (by decide) (by decide) hitems .none
    (Q := fun ts => TermTokens .items ts ∧ ∀ t ∈ ts.head?, t.IsMark ",") ⟨.none, by simp⟩ ?_ ?_
  · rintro t us vs ht hus ⟨hvs, hhead⟩
    exact ⟨.comma ht (.item hus hvs hhead), by simpa using ht⟩
  · rintro us vs hus ⟨hvs, hhead⟩
    exact .item hus hvs hhead

/-- Every term is read as its tokens, with the members that are written behind it. -/
theorem Term.takes (e : Term) : TermTakes e.text := by
  induction e with
  | name x => exact x.plainTakes.termTakes (by decide)
  | number n => exact n.plainTakes.termTakes (by decide)
  | member e x ih =>
    intro members
    rw [show (Term.member e x).text ++ dotted members = e.text ++ dotted (x :: members) by
      simp only [text, dotted, String.append_assoc]]
    exact ih (x :: members)
  | index e key ih ihKey =>
    have hkey := phrase_between "[" "]" (by decide) (lexes_closed "]" (by decide) ihKey.phrase)
    rw [show (Term.index e key).text = e.text ++ ("[" ++ key.text ++ "]") by
      simp only [text, String.append_assoc]]
    refine Phrase.termTakes (ih.phrase.join hkey.plain (by simp [Delimits, delimiters]) ?_)
    rintro us _ hus ⟨first, inner, last, rfl, hfirst, -, hinner, hlast⟩
    exact .index hus hfirst hinner hlast
  | call e arguments ih ihArguments =>
    have hlist := phrase_between "(" ")" (by decide) (lexes_terms ihArguments)
    rw [show (Term.call e arguments).text = e.text ++
      ("(" ++ ", ".intercalate (Term.texts arguments) ++ ")") by
        simp only [text, String.append_assoc]]
    refine Phrase.termTakes (ih.phrase.join hlist.plain (by simp [Delimits, delimiters]) ?_)
    rintro us _ hus ⟨first, inner, last, rfl, hfirst, -, hinner, hlast⟩
    exact .call hus hfirst hinner hlast
  | group e ih =>
    have hgroup := phrase_between "(" ")" (by decide) (lexes_closed ")" (by decide) ih.phrase)
    refine Phrase.termTakes (hgroup.mono (fun _ => id) ?_)
    rintro _ ⟨first, inner, last, rfl, hfirst, -, hinner, hlast⟩
    exact .group hfirst hinner hlast
  | binary operator left right ihLeft ihRight =>
    intro members
    have hright := lexes_infixOperator (phrase_termOperator operator) (ihRight members)
    rw [show (Term.binary operator left right).text ++ dotted members = left.text ++
      (" " ++ operator.text ++ " " ++ (right.text ++ dotted members)) by
        simp only [text, String.append_assoc]]
    refine ihLeft.phrase.join hright (by simp [Delimits, delimiters]) ?_
    rintro us _ hus ⟨t, vs, rfl, ht, hvs⟩
    exact .binary hus ht operator.text_mem hvs

end Workflow.Script
