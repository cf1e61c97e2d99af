import Workflow.Proofs.Script.ReadAsType

/-!
# Cases of switch statements

A run that comes to the brackets at the end of a case takes them for parameters if a name stands
in front of them and what stands behind the colon is read as a type with a body. Only then are
the colon and that type removed; every other case is passed over with its colon.
-/

namespace Workflow.Script

open Erasure

variable {source : String} {table : TokenTable} {done : List (Token × Bool)} {place : Place}
  {t next colon first last : Token} {ts us inner lead rest behind : List Token}
  {s : Erasure} {outer : List Frame} {f : Frame} {a : Ending} {m o o' : Bool} {k e i : Nat}

/-- The token is a name or a literal, behind which an expression may go on or end. -/
def Token.IsAtom (t : Token) : Prop := t.IsName ∨ t.kind = .string ∨ t.kind = .number

theorem Token.IsMark.not_isAtom {text : String} (h : t.IsMark text) : ¬ t.IsAtom := by
  rintro (hname | hkind | hkind)
  · cases h.1.symm.trans hname.1
  · cases h.1.symm.trans hkind
  · cases h.1.symm.trans hkind

theorem Token.IsAtom.follows (h : t.IsAtom) : t.Follows f := by
  have his : ∀ text ∈ ["=>", "\x7b", ":"], t.is text = false := by
    intro text hmem
    rcases h with hname | hkind
    · refine hname.is_eq_false (.inr ?_)
      revert text
      decide
    · exact Token.is_eq_false hkind
  refine ⟨his _ (by decide), his _ (by decide), fun hcolon => ?_⟩
  rw [his ":" (by decide)] at hcolon
  cases hcolon

/-- What ends with a name or a literal does not end with a mark, so the tokens behind the mark
decide. -/
theorem Token.IsMark.dropLast_behind {text : String} (ht : t.IsMark text)
    (hlast : ∀ u ∈ (us ++ t :: ts).getLast?, u.IsAtom) :
    (us ++ t :: ts).dropLast = us ++ t :: ts.dropLast ∧ ∀ u ∈ ts.getLast?, u.IsAtom := by
  have hne : ts ≠ [] := by
    rintro rfl
    rw [List.getLast?_concat] at hlast
    exact ht.not_isAtom (hlast t rfl)
  rw [List.getLast?_append_of_ne_nil _ (by simp), List.getLast?_cons_of_ne_nil hne] at hlast
  rw [List.dropLast_append_of_ne_nil (by simp), List.dropLast_cons_of_ne_nil hne]
  exact ⟨rfl, hlast⟩

namespace Inert

/-- A token that may stand in front of an expression is dropped only if nothing follows it. -/
theorem dropLast_cons (ht : ∀ us, Inert place us → Inert place (t :: us))
    (ih : (∀ u ∈ ts.getLast?, u.IsAtom) → Inert place ts.dropLast)
    (hlast : ∀ u ∈ (t :: ts).getLast?, u.IsAtom) : Inert place (t :: ts).dropLast := by
  by_cases hne : ts = []
  · rw [hne]
    exact .nil
  · rw [List.getLast?_cons_of_ne_nil hne] at hlast
    rw [List.dropLast_cons_of_ne_nil hne]
    exact ht _ (ih hlast)

/-- Without the name or the literal at their end, the tokens of an expression are still those of
one. -/
theorem dropLast (h : Inert place ts) (hlast : ∀ t ∈ ts.getLast?, t.IsAtom) :
    Inert place ts.dropLast := by
  induction h with
  | nil => exact .nil
  | name ht _ ih => exact dropLast_cons (fun _ => .name ht) ih hlast
  | literal ht _ ih => exact dropLast_cons (fun _ => .literal ht) ih hlast
  | operator ht _ ih => exact dropLast_cons (fun _ => .operator ht) ih hlast
  | comma hplace ht _ ih => exact dropLast_cons (fun _ => .comma hplace ht) ih hlast
  | @key name colon ts hname hcolon _ ih =>
    rw [← List.singleton_append (l := colon :: ts)] at hlast ⊢
    obtain ⟨hdrop, hlast⟩ := hcolon.dropLast_behind hlast
    exact hdrop ▸ .key hname hcolon (ih hlast)
  | conditional hquestion hts hcolon _ _ ih =>
    rw [← List.cons_append] at hlast ⊢
    obtain ⟨hdrop, hlast⟩ := hcolon.dropLast_behind hlast
    exact hdrop ▸ .conditional hquestion hts hcolon (ih hlast)
  | @group _ first last inner ts hfirst hinner hclose hhead _ _ ih =>
    rw [← List.cons_append] at hlast ⊢
    obtain ⟨hdrop, hlast⟩ := hclose.dropLast_behind hlast
    refine hdrop ▸ .group hfirst hinner hclose (fun t ht => ?_) (ih hlast)
    cases ts with
    | nil => cases ht
    | cons u ts =>
      cases ts with
      | nil => cases ht
      | cons v ts => exact hhead t ht
  | square hfirst hinner hclose _ _ ih =>
    rw [← List.cons_append] at hlast ⊢
    obtain ⟨hdrop, hlast⟩ := hclose.dropLast_behind hlast
    exact hdrop ▸ .square hfirst hinner hclose (ih hlast)
  | object hfirst hinner hclose _ _ ih =>
    rw [← List.cons_append] at hlast ⊢
    obtain ⟨hdrop, hlast⟩ := hclose.dropLast_behind hlast
    exact hdrop ▸ .object hfirst hinner hclose (ih hlast)
  | @arrow _ first last arrow inner ts hfirst hinner hclose harrow _ ih =>
    rw [show first :: (inner ++ last :: arrow :: ts) =
      first :: (inner ++ [last]) ++ arrow :: ts by simp] at hlast ⊢
    obtain ⟨hdrop, hlast⟩ := harrow.dropLast_behind hlast
    rw [hdrop, List.cons_append, List.append_assoc]
    exact .arrow hfirst hinner hclose harrow (ih hlast)

end Inert

/-- The token is a word that may name a method. -/
def Token.namesMethod (t : Token) : Bool := t.kind == .word && !nonMethods.contains t.text

namespace Erasure

/-- A colon in a block is passed over. -/
theorem leads_colon (hrest : rest ≠ []) (ht : t.IsMark ":") :
    Leads table ⟨done, t :: rest, .fresh .block, outer⟩
      ⟨(t, true) :: done, rest, .fresh .block, outer⟩ := by
  refine leads_of_onFrame id hrest fun s hs => ?_
  have hf : s.frame = .fresh .block := hs.frame
  rw [step_colon hs.ahead ht, colon, hf, if_neg (by decide), if_neg (by decide)]
  rfl

/-- A name or a literal is passed over, also in front of a colon. -/
theorem leads_atom (hrest : rest ≠ []) (ht : t.IsAtom) (hclass : f.kind ≠ .classBody)
    (hsettled : Settled f) :
    Leads table ⟨done, t :: rest, f, outer⟩ ⟨(t, true) :: done, rest, f, outer⟩ := by
  refine leads_of_onFrame id hrest fun s hs => ?_
  have hf : s.frame = f := hs.frame
  rcases ht with hname | hkind
  · exact step_name hs.ahead hname (fun hbody => absurd (hf ▸ hbody) hclass) (hf ▸ hsettled)
  · exact step_literal hs.ahead hkind

/-- A bracket closes that holds no parameters, whatever stands behind it. -/
theorem leads_closeGroup {parent : Frame} (hrest : rest ≠ []) (ht : t.IsMark ")")
    (hkind : f.kind ≠ .parameters) (hsettled : Settled parent) :
    Leads table ⟨done, t :: rest, f, parent :: outer⟩
      ⟨(t, true) :: done, rest, parent, outer⟩ := by
  refine leads_of_step hrest fun s hs => ?_
  have hf : s.frame = f := hs.frame
  have houter : s.outer = parent :: outer := hs.outer
  rw [step_close hs.ahead (.inl ht), closeBracket_eq houter hsettled (.inl (hf ▸ hkind))]

theorem Preceded.namesMethod (h : s.Preceded table i ts) :
    (s.previous i).any (isMethodName table) = ts.head?.any Token.namesMethod := by
  cases ts with
  | nil => simp [show s.previous i = none from h]
  | cons t ts =>
    obtain ⟨p, hp, htoken, -⟩ := h
    simp [hp, isMethodName, Token.namesMethod, TokenTable.isWord, TokenTable.kind,
      TokenTable.isOneOf, TokenTable.text, htoken]

/-- None of the tokens from the index on is the given one. -/
theorem is_of_ahead {text : String} (h : table.Ahead k ts) (hts : ∀ t ∈ ts, t.is text = false)
    (hke : k ≤ e) : table.is e text = false := by
  have hdrop := h.drop (e - k)
  rw [Nat.add_sub_cancel' hke] at hdrop
  rw [hdrop.is_head, Option.any_eq_false]
  exact fun t ht => by simp [hts t (List.mem_of_mem_drop (List.mem_of_mem_head? ht))]

/-- A bracket in a block with a colon behind it opens parameters if a name stands in front of it
and what stands behind the colon is read as a type with a body. -/
theorem opensParameters_of_colon (hs : s.Fits table ⟨done, t :: rest, .fresh .block, outer⟩)
    (hcalm : Calm (recent done))
    (hbehind : table.Ahead (table.closeOf done.length + 1) (colon :: behind))
    (hcolon : colon.IsMark ":") (harrow : ∀ t ∈ behind, t.is "=>" = false) :
    s.opensParameters table done.length = ((recent done).head?.any Token.namesMethod &&
      table.showsBody (table.closeOf done.length + 2)) := by
  have hf : s.frame = .fresh .block := hs.frame
  have hpreceded := hs.marks.preceded
  have hfunction := followsFunction_eq_false hpreceded hcalm
  have his : ∀ text, table.is (table.closeOf done.length + 1) text = (":" == text) :=
    fun text => (hbehind.is _).trans (hcolon.is _)
  unfold opensParameters TokenTable.showsBody
  simp only [his, hfunction, hpreceded.namesMethod, hf]
  cases htype : table.typeEnd (table.closeOf done.length + 2) with
  | error fault => simp [Frame.fresh]
  | ok r =>
    obtain ⟨e, he⟩ := r
    have hnone : table.is e "=>" = false := is_of_ahead hbehind.tail harrow (Nat.le_of_lt he)
    simp [Frame.fresh, hnone]

end Erasure

/-- Only a name may name a method. -/
theorem Ending.Ends.namesMethod (h : a.Ends t) : t.namesMethod = (a == .name) := by
  cases a with
  | name =>
    have hkind : t.kind = .word := h.1
    have hlisted : nonMethods.contains t.text = false :=
      Token.IsName.contains_eq_false h (by decide)
    rw [Token.namesMethod, hkind, hlisted]
    rfl
  | number =>
    have hkind : t.kind = .number := h
    rw [Token.namesMethod, hkind]
    rfl
  | other =>
    have hkind : (t.kind == .word) = false := beq_eq_false_iff_ne.mpr h
    rw [Token.namesMethod, hkind]
    rfl

theorem PlainTokens.namesMethod (h : PlainTokens a o ts) :
    (recent ((allKept ts).reverse ++ done)).head?.any Token.namesMethod = (a == .name) := by
  obtain ⟨t, ht, hends⟩ := h.ending
  rw [recent_allKept, List.head?_append, List.head?_reverse, Option.mem_def.mp ht]
  exact hends.namesMethod

theorem PlainTokens.unpointed (h : PlainTokens a o ts) :
    Unpointed ((allKept ts).reverse ++ done) := by
  obtain ⟨t, ht, -⟩ := h.ending
  intro u hu
  rw [recent_allKept, List.head?_append, List.head?_reverse, Option.mem_def.mp ht] at hu
  obtain rfl := Option.some.inj hu
  exact (h.last _ ht).unpointed

/-- The tokens of what a clause compares with: whether a name stands in front of the brackets at
their end, and whether they start with an object literal. -/
inductive LabelTokens : Bool → Bool → List Token → Prop
  | atom {a : Ending} {o : Bool} {ts : List Token} : PlainTokens a o ts →
      (∃ t ∈ ts.getLast?, t.IsAtom) → LabelTokens false o ts
  | call {a : Ending} {o : Bool} {first last : Token} {ts inner : List Token} :
      PlainTokens a o ts → first.IsMark "(" → Row .items inner → last.IsMark ")" →
      LabelTokens (a == .name) o (ts ++ first :: (inner ++ [last]))

namespace LabelTokens

theorem plain (h : LabelTokens m o ts) : ∃ a, PlainTokens a o ts := by
  cases h with
  | atom h _ => exact ⟨_, h⟩
  | call h hfirst hinner hlast => exact ⟨_, h.call hfirst hinner hlast⟩

theorem isCalm (h : LabelTokens m o ts) : ∀ t ∈ ts, IsCalm t := by
  obtain ⟨a, h⟩ := h.plain
  exact h.inert.calm

theorem unpointed (h : LabelTokens m o ts) : Unpointed ((allKept ts).reverse ++ done) := by
  obtain ⟨a, h⟩ := h.plain
  exact h.unpointed

/-- A run comes to the end of arguments in front of a colon. They are taken for parameters if a
name stands in front of them and a type with a body seems to stand behind the colon. -/
theorem leads_arguments (htable : tokenize source = .ok table) (h : PlainTokens a o ts)
    (hfirst : first.IsMark "(") (hinner : Row .items inner) (hlast : last.IsMark ")")
    (hcolon : colon.IsMark ":") (harrow : ∀ t ∈ behind, t.is "=>" = false)
    (hshown : ∀ k, table.Ahead k behind → table.showsBody k = o') (hcalm : Calm (recent done)) :
    Leads table ⟨done, ts ++ first :: (inner ++ last :: colon :: behind), .fresh .block, outer⟩
      ⟨(allKept (ts ++ first :: inner)).reverse ++ done, last :: colon :: behind,
        .fresh (if a == .name && o' then .parameters else .group), .fresh .block :: outer⟩ := by
  have hcallee : Leads table
      ⟨done, ts ++ first :: (inner ++ last :: colon :: behind), .fresh .block, outer⟩ _ :=
    leads_inert htable h.inert (Place.allows_fresh (by decide)) nofun hcalm
      (hfirst.follows (by decide))
  have hcalm' : Calm (recent ((allKept ts).reverse ++ done)) :=
    hcalm.marks (isCalm_allKept h.inert.calm)
  generalize hkind : (if a == .name && o' then FrameKind.parameters else .group) = kind
  have hopened : Leads table
      ⟨(allKept ts).reverse ++ done, first :: (inner ++ last :: colon :: behind), .fresh .block,
        outer⟩
      ⟨(first, true) :: ((allKept ts).reverse ++ done), inner ++ last :: colon :: behind,
        .fresh kind, .fresh .block :: outer⟩ := by
    refine leads_open (by simp) (.inl rfl) fun s hs => ?_
    have hbehind := hs.ahead.behind_closeOf htable (hfirst.opens? .round) (hlast.closes? .round)
      hinner.inert.balanced
    refine ⟨false, step_round hs.ahead hfirst ?_⟩
    rw [opensParameters_of_colon hs hcalm' hbehind hcolon harrow, h.namesMethod,
      hshown _ hbehind.tail, hkind]
  have hadmits : Place.items.Admits (.fresh kind) := ⟨.inl rfl, fun _ => rfl, nofun⟩
  have hclass : kind ≠ .classBody := by
    rw [← hkind]
    split <;> decide
  have hpassed := (hcallee.trans hopened).trans (leads_admitted htable hinner.inert hadmits
    (fun _ => hinner.chain) (fun hbody => absurd hbody hclass) (hcalm'.mark hfirst (by decide))
    (hlast.follows (by decide)))
  simpa [allKept] using hpassed

/-- A run keeps the colon unless it is read as that of a result type. -/
theorem leads (h : LabelTokens m o ts) (htable : tokenize source = .ok table)
    (hcolon : colon.IsMark ":") (hrest : behind ≠ []) (harrow : ∀ t ∈ behind, t.is "=>" = false)
    (hshown : ∀ k, table.Ahead k behind → table.showsBody k = o') (hkept : (m && o') = false)
    (hcalm : Calm (recent done)) :
    Leads table ⟨done, ts ++ colon :: behind, .fresh .block, outer⟩
      ⟨(colon, true) :: ((allKept ts).reverse ++ done), behind, .fresh .block, outer⟩ := by
  cases h with
  | @atom a o ts h hlast =>
    obtain ⟨t, ht, hatom⟩ := hlast
    obtain ⟨us, rfl⟩ := List.getLast?_eq_some_iff.mp ht
    have hinert := h.inert.dropLast fun u hu => by
      obtain rfl := Option.mem_unique ht hu
      exact hatom
    rw [List.dropLast_concat] at hinert
    have hfront : Leads table ⟨done, us ++ t :: colon :: behind, .fresh .block, outer⟩ _ :=
      leads_inert htable hinert (Place.allows_fresh (by decide)) nofun hcalm hatom.follows
    have hpassed := (hfront.trans (leads_atom (by simp) hatom (by decide) (.inl rfl))).trans
      (leads_colon hrest hcolon)
    simpa [allKept] using hpassed
  | @call a o first last ts inner h hfirst hinner hlast =>
    have hinside : Leads table
        ⟨done, ts ++ first :: (inner ++ last :: colon :: behind), .fresh .block, outer⟩ _ :=
      leads_arguments htable h hfirst hinner hlast hcolon harrow hshown hcalm
    rw [hkept] at hinside
    have hpassed := (hinside.trans (leads_closeGroup (by simp) hlast (by decide) (.inl rfl))).trans
      (leads_colon hrest hcolon)
    simpa [allKept] using hpassed

/-- A run removes the colon and the words behind it if they are read as a result type. -/
theorem leads_misread (h : LabelTokens true o ts) (htable : tokenize source = .ok table)
    (hcolon : colon.IsMark ":") (hrest : rest ≠ []) (harrow : ∀ t ∈ lead ++ rest, t.is "=>" = false)
    (hshown : ∀ k, table.Ahead k (lead ++ rest) → table.showsBody k = true)
    (hend : ∀ k, table.Ahead k (lead ++ rest) → Answers (table.typeEnd k) (k + lead.length))
    (hcalm : Calm (recent done)) :
    Leads table ⟨done, ts ++ colon :: (lead ++ rest), .fresh .block, outer⟩
      ⟨(allRemoved (colon :: lead)).reverse ++ ((allKept ts).reverse ++ done), rest, .fresh .block,
        outer⟩ := by
  obtain ⟨next, behind, rfl⟩ := List.exists_cons_of_ne_nil hrest
  generalize hm : true = m at h
  cases h with
  | atom _ _ => cases hm
  | @call a o first last ts inner h hfirst hinner hlast =>
    have hinside : Leads table
        ⟨done, ts ++ first :: (inner ++ last :: colon :: (lead ++ next :: behind)), .fresh .block,
          outer⟩ _ :=
      leads_arguments htable h hfirst hinner hlast hcolon harrow hshown hcalm
    rw [← hm] at hinside
    have hpassed := hinside.trans (leads_taken hlast hcolon (hend _) rfl (.inl rfl))
    simpa [allKept] using hpassed

end LabelTokens

/-- An expression that ends with a name or a number ends with no brackets. -/
theorem PlainTokens.label (h : PlainTokens a o ts) (ha : a ≠ .other) : LabelTokens false o ts := by
  obtain ⟨t, ht, hends⟩ := h.ending
  refine .atom h ⟨t, ht, ?_⟩
  cases a with
  | name => exact .inl hends
  | number => exact .inr (.inr hends)
  | other => exact absurd rfl ha

end Workflow.Script
