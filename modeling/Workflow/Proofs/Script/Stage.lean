import Workflow.Proofs.Script.Inert
import Workflow.Proofs.Script.TypeExtent

/-!
# Stages of a run

A declaration with types takes a run through a few stages: what is known of the state there
is the marks so far, the tokens ahead and the open brackets. Each token of a declaration
leads from one stage to the next, and so does each type that is removed.
-/

namespace Workflow.Script

/-- A type in front of the token ends there. -/
structure Token.EndsType (t : Token) (grouped : Bool) : Prop where
  outside : ∀ text ∈ ["<", "[", ".", "is", "|", "&", "extends"], t.is text = false
  arrow : grouped = true → t.is "=>" = false

/-- A mark that no type goes on with ends one. -/
theorem Token.IsMark.endsType {t : Token} {text : String} {grouped : Bool} (h : t.IsMark text)
    (htext : text ∉ ["<", "[", ".", "is", "|", "&", "extends"])
    (harrow : grouped = true → text ≠ "=>") : t.EndsType grouped := by
  constructor
  · intro other hmem
    rw [h.is, beq_eq_false_iff_ne]
    exact fun heq => htext (heq ▸ hmem)
  · intro hgrouped
    rw [h.is, beq_eq_false_iff_ne]
    exact harrow hgrouped

namespace Erasure

/-- How far a run has come. -/
structure Stage where
  done : List (Token × Bool)
  rest : List Token
  frame : Frame
  outer : List Frame

/-- The state of a run that has come so far. Every class body that is known has been opened. -/
structure Fits (s : Erasure) (table : TokenTable) (a : Stage) : Prop where
  marks : s.At table a.done a.rest
  frame : s.frame = a.frame
  outer : s.outer = a.outer
  bodies : s.BodiesBefore a.done.length

/-- The tokens that are to come at a stage stand in the table. -/
theorem Fits.ahead {s : Erasure} {table : TokenTable} {done : List (Token × Bool)}
    {rest : List Token} {f : Frame} {outer : List Frame}
    (hs : s.Fits table ⟨done, rest, f, outer⟩) : table.Ahead done.length rest := hs.marks.ahead

/-- Every run that has come to the first stage comes to the second. -/
def Leads (table : TokenTable) (a b : Stage) : Prop :=
  ∀ s : Erasure, s.Fits table a → ∃ s' : Erasure, s'.Fits table b ∧
    run table s a.done.length = run table s' b.done.length

variable {source : String} {table : TokenTable} {s : Erasure} {a b c : Stage}
  {done : List (Token × Bool)} {t u next : Token} {ts inner rest behind : List Token}
  {f f' parent : Frame} {outer outer' : List Frame} {grouped : Bool} {text : String}

/-- Each stage leads to itself. -/
theorem Leads.refl (a : Stage) : Leads table a a := fun s hs => ⟨s, hs, rfl⟩

/-- Where one stage leads to another and that to a third, the first leads to the third. -/
theorem Leads.trans (h : Leads table a b) (h' : Leads table b c) : Leads table a c := by
  intro s hs
  obtain ⟨s₁, hs₁, hrun⟩ := h s hs
  obtain ⟨s₂, hs₂, hrun'⟩ := h' s₁ hs₁
  exact ⟨s₂, hs₂, hrun.trans hrun'⟩

/-- A step that advances to a stage leads to it. -/
theorem leads_of_advance (hrest : rest ≠ []) (hstep : ∀ s : Erasure,
    s.Fits table ⟨done, t :: rest, f, outer⟩ → ∃ onward : Advance done.length,
      s.step table done.length = .ok onward ∧ onward.next = b.done.length ∧
        onward.state.Fits table b) : Leads table ⟨done, t :: rest, f, outer⟩ b := by
  intro s hs
  obtain ⟨onward, honward, hnext, hstate⟩ := hstep s hs
  refine ⟨onward.state, hstate, ?_⟩
  rw [run_step hs.marks hrest rfl honward, hnext]

/-- A token is kept, and the open brackets change. -/
theorem leads_of_step (hrest : rest ≠ []) (hstep : ∀ s : Erasure,
    s.Fits table ⟨done, t :: rest, f, outer⟩ → s.step table done.length =
      .ok (({ s with frame := f', outer := outer' } : Erasure).advance done.length)) :
    Leads table ⟨done, t :: rest, f, outer⟩ ⟨(t, true) :: done, rest, f', outer'⟩ := by
  refine leads_of_advance hrest fun s hs => ⟨_, hstep s hs, rfl, ?_⟩
  exact ⟨hs.marks.keep.of_kept rfl, rfl, rfl, hs.bodies.mono (by simp)⟩

/-- A token is kept, and only the innermost bracket changes. -/
theorem leads_of_onFrame (g : Frame → Frame) (hrest : rest ≠ []) (hstep : ∀ s : Erasure,
    s.Fits table ⟨done, t :: rest, f, outer⟩ →
      s.step table done.length = .ok ((s.onFrame g).advance done.length)) :
    Leads table ⟨done, t :: rest, f, outer⟩ ⟨(t, true) :: done, rest, g f, outer⟩ := by
  refine leads_of_step hrest fun s hs => ?_
  have hframe : s.frame = f := hs.frame
  have houter : s.outer = outer := hs.outer
  rw [hstep s hs, onFrame, hframe, houter]

/-- The marks of kept tokens. -/
def allKept (ts : List Token) : List (Token × Bool) := ts.map fun t => (t, true)

/-- The marks of removed tokens. -/
def allRemoved (ts : List Token) : List (Token × Bool) := ts.map fun t => (t, false)

@[simp] theorem map_fst_allKept : (allKept ts).map Prod.fst = ts := by
  simp [allKept, Function.comp_def]

@[simp] theorem map_fst_allRemoved : (allRemoved ts).map Prod.fst = ts := by
  simp [allRemoved, Function.comp_def]

/-- A token that is kept is the most recent one. -/
@[simp] theorem recent_kept : recent ((t, true) :: done) = t :: recent done := rfl

/-- A token that is removed is not seen by what follows. -/
@[simp] theorem recent_removed : recent ((t, false) :: done) = recent done := rfl

/-- Tokens that are kept are the most recent ones, last first. -/
@[simp] theorem recent_allKept :
    recent ((allKept ts).reverse ++ done) = ts.reverse ++ recent done := by
  rw [← recent_passed, passed, allKept, List.map_reverse]

/-- Tokens that are removed are not seen by what follows. -/
@[simp] theorem recent_allRemoved : recent ((allRemoved ts).reverse ++ done) = recent done := by
  have hnone : (allRemoved ts).reverse.filter Prod.snd = [] := by
    simp [allRemoved, List.filter_eq_nil_iff]
  rw [recent, List.filter_append, hnone, List.nil_append, recent]

/-- Removed tokens are counted in the place of what follows. -/
@[simp] theorem length_allRemoved :
    ((allRemoved ts).reverse ++ done).length = done.length + ts.length := by
  simp [allRemoved, Nat.add_comm]

/-- Removal marks the tokens up to where it stops. -/
theorem At.removeTo (h : s.At table done (ts ++ u :: rest)) :
    (s.remove table done.length ((allRemoved ts).reverse ++ done).length).At table
      ((allRemoved ts).reverse ++ done) (u :: rest) := by
  rw [length_allRemoved, allRemoved, ← List.map_reverse]
  exact h.remove

theorem isCalm_allRemoved : ∀ m ∈ allRemoved ts, m.2 = true → IsCalm m.1 := by
  simp [allRemoved]

/-- Kept tokens without a meaning for brackets leave them none. -/
theorem isCalm_allKept (h : ∀ t ∈ ts, IsCalm t) : ∀ m ∈ allKept ts, m.2 = true → IsCalm m.1 := by
  simpa [allKept] using h

/-- Tokens are removed where they start. -/
theorem leads_of_removal (hstep : ∀ s : Erasure,
    s.Fits table ⟨done, t :: (ts ++ next :: behind), f, outer⟩ →
      ∃ stop hlt, stop = done.length + (t :: ts).length ∧
        s.step table done.length = .ok (s.advanceOver table ⟨done.length, stop, hlt⟩)) :
    Leads table ⟨done, t :: (ts ++ next :: behind), f, outer⟩
      ⟨(allRemoved (t :: ts)).reverse ++ done, next :: behind, f, outer⟩ := by
  refine leads_of_advance (by simp) fun s hs => ?_
  obtain ⟨stop, hlt, hstop, hr⟩ := hstep s hs
  have hmarks : s.At table done (t :: ts ++ next :: behind) := hs.marks
  rw [← length_allRemoved] at hstop
  subst hstop
  exact ⟨_, hr, rfl, hmarks.removeTo, hs.frame, hs.outer, hs.bodies.mono (by simp)⟩

/-- No name of a member stands next. -/
def Unpointed (done : List (Token × Bool)) : Prop :=
  ∀ u ∈ (recent done).head?, u.is "." = false ∧ u.is "?." = false

/-- What was kept last is not a point, if it is another mark or word. -/
theorem Unpointed.of_is (ht : ∀ other, t.is other = (text == other)) (htext : text ∉ [".", "?."]) :
    Unpointed ((t, true) :: done) := by
  rintro _ ⟨⟩
  simp only [List.mem_cons, List.not_mem_nil, or_false, not_or] at htext
  simp [ht, htext]

/-- What was kept last is not a point, if it is a name. -/
theorem Unpointed.of_isName (ht : t.IsName) : Unpointed ((t, true) :: done) := by
  rintro _ ⟨⟩
  exact ⟨ht.is_eq_false (.inr (by decide)), ht.is_eq_false (.inr (by decide))⟩

/-- Whether a point was last depends on the kept tokens only. -/
theorem Unpointed.of_recent {done' : List (Token × Bool)} (h : Unpointed done')
    (heq : recent done = recent done') : Unpointed done := by
  rw [Unpointed, heq]
  exact h

/-- Behind what is no point stands no member. -/
theorem Unpointed.follows (h : Unpointed done) (hs : s.At table done rest) :
    s.follows table done.length "." = false ∧ s.follows table done.length "?." = false := by
  rw [hs.preceded.follows, hs.preceded.follows]
  cases hrecent : (recent done).head? with
  | none => exact ⟨rfl, rfl⟩
  | some u => exact h u hrecent

/-- A word is read as a plain word where no class body is open. -/
theorem step_eq_plainWord (hs : s.Fits table ⟨done, t :: rest, f, outer⟩) (hkind : t.kind = .word)
    (htext : t.text ∉ "export" :: modifiers)
    (hstatement : t.text ∉ statementWords ∨
      t.text = "const" ∧ ∃ u others, rest = u :: others ∧ u.is "enum" = false)
    (hclass : f.kind ≠ .classBody) (hbefore : Unpointed done) :
    s.step table done.length = s.plainWord table done.length := by
  have hahead := hs.ahead
  rw [List.mem_cons, not_or] at htext
  have hstatement' : t.text ∉ statementWords ∨
      t.text = "const" ∧ table.is (done.length + 1) "enum" = false := by
    rcases hstatement with h | ⟨h, u, others, rfl, henum⟩
    · exact .inl h
    · exact .inr ⟨h, hahead.tail.is _ ▸ henum⟩
  have hmodifier : table.isOneOf done.length modifiers = false := by
    rw [hahead.isOneOf]
    simpa using htext.2
  obtain ⟨hpoint, hquestion⟩ := hbefore.follows hs.marks
  have hf : s.frame = f := hs.frame
  rw [step_word hahead hkind htext.1 hstatement',
    word_eq_plainWord hpoint hquestion (fun hbody => absurd (hf ▸ hbody) hclass) hmodifier]

/-- A word without a role in declarations is passed over. -/
theorem leads_word (hrest : rest ≠ []) (hkind : t.kind = .word) (htext : t.text ∉ roleWords)
    (hclass : f.kind ≠ .classBody) (hbefore : Unpointed done) :
    Leads table ⟨done, t :: rest, f, outer⟩
      ⟨(t, true) :: done, rest, Frame.afterWord f, outer⟩ := by
  simp only [roleWords, List.mem_cons, List.mem_append, not_or] at htext
  obtain ⟨hexport, ⟨hmodifier, hstatement⟩, hplain⟩ := htext
  refine leads_of_onFrame Frame.afterWord hrest fun s hs => ?_
  rw [step_eq_plainWord hs hkind (by simp [hexport, hmodifier]) (.inl hstatement) hclass hbefore,
    plainWord_eq (hs.ahead.text ▸ hplain)]

/-- A name is kept, and noted as the one that is declared where one is expected. -/
theorem leads_name (hrest : rest ≠ []) (ht : t.IsName) (hclass : f.kind ≠ .classBody)
    (hbefore : Unpointed done) :
    Leads table ⟨done, t :: rest, f, outer⟩ ⟨(t, true) :: done, rest, Frame.afterWord f, outer⟩ :=
  leads_word hrest ht.1 (notMem_roleWords ht) hclass hbefore

/-- A declaration of variables starts. -/
theorem leads_let (ht : t.IsWord "let" ∨ t.IsWord "const") (hu : u.IsName)
    (hclass : f.kind ≠ .classBody) (hbefore : Unpointed done) :
    Leads table ⟨done, t :: u :: rest, f, outer⟩
      ⟨(t, true) :: done, u :: rest, { f with declaration := some .expectName }, outer⟩ := by
  refine leads_of_onFrame (fun f => { f with declaration := some .expectName }) (by simp)
    fun s hs => ?_
  have hahead := hs.ahead
  have hkind : t.kind = .word := ht.elim And.left And.left
  have hmodifier : t.text ∉ "export" :: modifiers := by
    rcases ht with h | h <;> rw [h.2] <;> decide
  have hstatement : t.text ∉ statementWords ∨
      t.text = "const" ∧ ∃ v others, u :: rest = v :: others ∧ v.is "enum" = false := by
    rcases ht with h | h
    · exact .inl (by rw [h.2]; decide)
    · exact .inr ⟨h.2, u, rest, rfl, hu.is_eq_false (.inl (by decide))⟩
  have hword : table.isWord (done.length + 1) = true := by
    rw [hahead.tail.isWord, hu.1]
    rfl
  rw [step_eq_plainWord hs hkind hmodifier hstatement hclass hbefore, plainWord, hahead.text, hword]
  rcases ht with h | h <;> rw [h.2] <;> rfl

/-- An equals sign is kept, and the value of what is declared is next. -/
theorem leads_equals (hrest : rest ≠ []) (ht : t.IsMark "=") :
    Leads table ⟨done, t :: rest, f, outer⟩ ⟨(t, true) :: done, rest, Frame.afterEquals f, outer⟩ :=
  leads_of_onFrame Frame.afterEquals hrest fun _ hs => step_equals hs.ahead ht

/-- A comma is kept, and the next declared name is next. -/
theorem leads_comma (hrest : rest ≠ []) (ht : t.IsMark ",") :
    Leads table ⟨done, t :: rest, f, outer⟩ ⟨(t, true) :: done, rest, Frame.afterComma f, outer⟩ :=
  leads_of_onFrame Frame.afterComma hrest fun _ hs => step_comma hs.ahead ht

/-- A semicolon is kept, and ends a declaration. -/
theorem leads_semicolon (hrest : rest ≠ []) (ht : t.IsMark ";") :
    Leads table ⟨done, t :: rest, f, outer⟩
      ⟨(t, true) :: done, rest, { f with declaration := none, conditionals := 0 }, outer⟩ :=
  leads_of_onFrame (fun f => { f with declaration := none, conditionals := 0 }) hrest
    fun _ hs => step_semicolon hs.ahead ht

/-- An arrow is passed over. -/
theorem leads_arrow (hrest : rest ≠ []) (ht : t.IsMark "=>") :
    Leads table ⟨done, t :: rest, f, outer⟩ ⟨(t, true) :: done, rest, f, outer⟩ :=
  leads_of_onFrame id hrest fun _ hs => step_operator hs.ahead ht (by decide)

/-- An expression is passed over, also among parameters. -/
theorem leads_admitted {place : Place} (htable : tokenize source = .ok table) (hts : Inert place ts)
    (hframe : place.Admits f) (hparameters : f.kind = .parameters → ts.IsChain Token.Meets)
    (hclass : f.kind = .classBody → NoMembers (recent done) ts (next :: behind))
    (hcalm : Calm (recent done)) (hnext : next.Follows f) :
    Leads table ⟨done, ts ++ next :: behind, f, outer⟩
      ⟨(allKept ts).reverse ++ done, next :: behind, f, outer⟩ := by
  intro s hs
  have hf : s.frame = f := hs.frame
  have hpassed : passed ts done = (allKept ts).reverse ++ done := by
    rw [passed, allKept, List.map_reverse]
  rw [← hpassed]
  refine ⟨s, ⟨hs.marks.pass, hs.frame, hs.outer, hs.bodies.mono (by simp)⟩, ?_⟩
  rw [length_passed]
  exact hts.passes htable
    ⟨hs.marks, hf ▸ hframe, hf ▸ hparameters, hf ▸ hclass, hs.bodies, hcalm⟩ (hf ▸ hnext)

/-- Inert tokens are kept, and what is known stays as it is. -/
theorem leads_inert {place : Place} (htable : tokenize source = .ok table) (hts : Inert place ts)
    (hframe : place.Allows f)
    (hclass : f.kind = .classBody → NoMembers (recent done) ts (next :: behind))
    (hcalm : Calm (recent done)) (hnext : next.Follows f) :
    Leads table ⟨done, ts ++ next :: behind, f, outer⟩
      ⟨(allKept ts).reverse ++ done, next :: behind, f, outer⟩ :=
  leads_admitted htable hts hframe.admits (fun hkind => absurd hkind hframe.parameters) hclass hcalm
    hnext

/-- The annotation behind a name is removed. -/
theorem leads_type (htable : tokenize source = .ok table) (ht : t.IsMark ":")
    (hts : TypeTokens grouped ts) (hconditionals : f.conditionals = 0)
    (hplace : f.kind = .parameters ∨ f.declaration = some .afterName)
    (hnext : next.EndsType grouped) :
    Leads table ⟨done, t :: (ts ++ next :: behind), f, outer⟩
      ⟨(allRemoved (t :: ts)).reverse ++ done, next :: behind, f, outer⟩ := by
  refine leads_of_removal fun s hs => ?_
  have hf : s.frame = f := hs.frame
  have hahead := hs.ahead
  obtain ⟨hlt, hend⟩ := hts.typeEnd htable hahead.tail hnext.outside hnext.arrow
  have hannotated :
      (s.frame.kind = .parameters || s.frame.declaration == some .afterName) = true := by
    rcases hplace with h | h <;> simp [hf, h]
  refine ⟨_, Nat.lt_of_succ_lt hlt, by rw [List.length_cons]; omega, ?_⟩
  rw [step_colon hahead ht, colon, if_neg (by simp [hf, hconditionals]), if_pos hannotated, hend]
  rfl

/-- The mark of an optional parameter is removed. -/
theorem leads_optional (ht : t.IsMark "?") (hu : u.IsMark ":") (hparameters : f.kind = .parameters)
    (hbefore : ∃ v ∈ (recent done).head?, v.kind = .word) :
    Leads table ⟨done, t :: u :: rest, f, outer⟩ ⟨(t, false) :: done, u :: rest, f, outer⟩ := by
  show Leads table ⟨done, t :: ([] ++ u :: rest), f, outer⟩ _
  refine leads_of_removal fun s hs => ⟨_, Nat.lt_succ_self _, rfl, ?_⟩
  have hf : s.frame = f := hs.frame
  have hahead := hs.ahead
  have hword : (s.previous done.length).any table.isWord = true := by
    obtain ⟨v, hv, hkind⟩ := hbefore
    obtain ⟨vs, hrecent⟩ := List.head?_eq_some_iff.mp hv
    have hpreceded : s.Preceded table done.length (v :: vs) := hrecent ▸ hs.marks.preceded
    obtain ⟨p, hp, htoken, -⟩ := hpreceded
    simp [hp, TokenTable.isWord, TokenTable.kind, htoken, hkind]
  rw [step_question hahead ht, question, if_pos]
  rw [hf, hparameters, hword, hahead.tail.is, hu.is]
  rfl

/-- The type arguments of `function` are looked for behind its name. -/
theorem leads_function (ht : t.IsWord "function") (hu : u.IsName)
    (hnext : next.IsMark "(") (hclass : f.kind ≠ .classBody) (hbefore : Unpointed done) :
    Leads table ⟨done, t :: u :: next :: rest, f, outer⟩
      ⟨(t, true) :: done, u :: next :: rest, f, outer⟩ := by
  refine leads_of_onFrame id (by simp) fun s hs => ?_
  have hahead := hs.ahead
  have hheading : s.functionHeading table done.length = .ok s := by
    have hstar : table.is (done.length + 1) "*" = false := by
      rw [hahead.tail.is]
      exact hu.is_eq_false (.inr (by decide))
    have hword : table.isWord (done.length + 1) = true := by
      rw [hahead.tail.isWord, hu.1]
      rfl
    have hless : table.is (done.length + 1 + 1) "<" = false := by
      rw [hahead.tail.tail.is, hnext.is]
      rfl
    simp only [functionHeading, hstar, hword, removeTypeList, hless, Bool.false_eq_true, if_false,
      if_true]
    rfl
  rw [step_eq_plainWord hs ht.1 (by rw [ht.2]; decide) (.inl (by rw [ht.2]; decide)) hclass hbefore,
    plainWord, hahead.text, ht.2, hheading]
  rfl

/-- A bracket opens with the frame that it is for. -/
theorem leads_open {kind : FrameKind} (hrest : rest ≠ []) (hsettled : Settled f)
    (hstep : ∀ s : Erasure, s.Fits table ⟨done, t :: rest, f, outer⟩ → ∃ pattern,
      s.step table done.length = .ok ((s.openBracket table done.length kind pattern).advance
        done.length)) :
    Leads table ⟨done, t :: rest, f, outer⟩ ⟨(t, true) :: done, rest, .fresh kind, f :: outer⟩ := by
  refine leads_of_step hrest fun s hs => ?_
  have hf : s.frame = f := hs.frame
  have houter : s.outer = outer := hs.outer
  obtain ⟨pattern, hpattern⟩ := hstep s hs
  rw [hpattern, openBracket_eq (hf ▸ hsettled), hf, houter]

/-- The round bracket behind `function` and a name opens parameters. -/
theorem opensParameters_of_function {i : Nat} {name word : Token}
    (h : s.Preceded table i (name :: word :: ts)) (hname : name.IsName)
    (hword : word.IsWord "function") : s.opensParameters table i = true := by
  obtain ⟨p, hp, htoken, q, hq, htoken', -⟩ := h
  have hfunction : s.followsFunction table i = true := by
    have hp' : table.isWord p = true := by
      simp [TokenTable.isWord, TokenTable.kind, htoken, hname.1]
    have hq' : table.is q "function" = true := by simp [is_of_getElem? htoken', hword.is]
    simp [followsFunction, hp, hq, hp', hq']
  simp [opensParameters, hfunction]

/-- A round bracket with a result type and an arrow behind it opens parameters. -/
theorem opensParameters_of_result {i : Nat} {colon arrow : Token}
    (htable : tokenize source = .ok table)
    (hbehind : table.Ahead (table.closeOf i + 1) (colon :: (ts ++ arrow :: behind)))
    (hcolon : colon.IsMark ":") (hts : TypeTokens false ts) (harrow : arrow.IsMark "=>")
    (hconditionals : s.frame.conditionals = 0) : s.opensParameters table i = true := by
  have hends : arrow.EndsType false := harrow.endsType (by decide) (by simp)
  obtain ⟨hlt, hend⟩ := hts.typeEnd htable hbehind.tail hends.outside hends.arrow
  have htyped : table.is (table.closeOf i + 1) ":" = true := by simp [hbehind.is, hcolon.is]
  have harrow' : table.is (table.closeOf i + 1 + 1 + ts.length) "=>" = true := by
    simp [hbehind.tail.append.is, harrow.is]
  simp only [opensParameters, htyped, hconditionals]
  rw [hend]
  simp [harrow']

/-- The round bracket of a parameter list. -/
theorem leads_parameters (hrest : rest ≠ []) (ht : t.IsMark "(") (hsettled : Settled f)
    (hparameters : ∀ s : Erasure, s.Fits table ⟨done, t :: rest, f, outer⟩ →
      s.opensParameters table done.length = true) :
    Leads table ⟨done, t :: rest, f, outer⟩
      ⟨(t, true) :: done, rest, .fresh .parameters, f :: outer⟩ := by
  refine leads_open hrest hsettled fun s hs => ⟨false, ?_⟩
  exact step_round hs.ahead ht (by rw [hparameters s hs]; rfl)

/-- A round bracket that stands neither behind `function` nor in front of a body. -/
theorem leads_group {last : Token} (htable : tokenize source = .ok table) (ht : t.IsMark "(")
    (hinner : Balanced inner) (hlast : last.IsMark ")") (hnext : next.Follows f)
    (hsettled : Settled f) (hcalm : Calm (recent done)) :
    Leads table ⟨done, t :: (inner ++ last :: next :: behind), f, outer⟩
      ⟨(t, true) :: done, inner ++ last :: next :: behind, .fresh .group, f :: outer⟩ := by
  refine leads_open (by simp) hsettled fun s hs => ⟨false, ?_⟩
  have hf : s.frame = f := hs.frame
  have hbehind := hs.ahead.behind_closeOf htable (ht.opens? .round) (hlast.closes? .round) hinner
  have hparameters : s.opensParameters table done.length = false :=
    opensParameters_eq_false (followsFunction_eq_false hs.marks.preceded hcalm) hbehind hnext.arrow
      hnext.body (hf ▸ hnext.colon)
  exact step_round hs.ahead ht (by rw [hparameters]; rfl)

/-- The curly bracket of a body opens a block. -/
theorem leads_block (hrest : rest ≠ []) (ht : t.IsMark "\x7b") (hsettled : Settled f)
    (hcalm : Calm (recent done)) :
    Leads table ⟨done, t :: rest, f, outer⟩
      ⟨(t, true) :: done, rest, .fresh .block, f :: outer⟩ := by
  refine leads_open hrest hsettled fun s hs => ⟨true, ?_⟩
  exact step_block hs.ahead ht hs.bodies (opensModuleClause_eq_false hs.marks.preceded hcalm)

/-- A bracket closes without a result type behind it. -/
theorem leads_close (ht : t.IsMark ")" ∨ t.IsMark "]" ∨ t.IsMark "\x7d") (hsettled : Settled parent)
    (hrest : u.is ":" = false) :
    Leads table ⟨done, t :: u :: rest, f, parent :: outer⟩
      ⟨(t, true) :: done, u :: rest, parent, outer⟩ := by
  refine leads_of_step (by simp) fun s hs => ?_
  have houter : s.outer = parent :: outer := hs.outer
  have hahead := hs.ahead
  rw [step_close hahead ht, closeBracket_eq houter hsettled (.inr (hahead.tail.is _ ▸ hrest))]

/-- What is read as a result type behind parameters is removed. -/
theorem leads_taken {colon : Token} (ht : t.IsMark ")") (hcolon : colon.IsMark ":")
    (hend : table.Ahead (done.length + 2) (ts ++ next :: behind) →
      Answers (table.typeEnd (done.length + 2)) (done.length + 2 + ts.length))
    (hparameters : f.kind = .parameters) (hsettled : Settled parent) :
    Leads table ⟨done, t :: colon :: (ts ++ next :: behind), f, parent :: outer⟩
      ⟨(allRemoved (colon :: ts)).reverse ++ (t, true) :: done, next :: behind, parent, outer⟩ := by
  refine leads_of_advance (by simp) fun s hs => ?_
  have hf : s.frame = f := hs.frame
  have houter : s.outer = parent :: outer := hs.outer
  have hahead := hs.ahead
  have hstop : done.length + 2 + ts.length =
      ((allRemoved (colon :: ts)).reverse ++ (t, true) :: done).length := by
    rw [length_allRemoved, List.length_cons, List.length_cons]
    omega
  have hend : Answers (table.typeEnd (done.length + 2))
      ((allRemoved (colon :: ts)).reverse ++ (t, true) :: done).length :=
    hstop ▸ hend hahead.tail.tail
  obtain ⟨hlt, hend⟩ := hend
  have htyped : (decide (s.frame.kind = .parameters) && table.is (done.length + 1) ":") = true := by
    rw [hahead.tail.is, hcolon.is, hf, hparameters]
    rfl
  have hstep : s.step table done.length = .ok
      (({ s with frame := parent, outer := outer } : Erasure).advanceOver table
        ⟨done.length + 1, _, Index.lt_of_two_lt hlt⟩) := by
    rw [step_close hahead (.inl ht), closeBracket, houter]
    simp only [hsettled.afterClose_eq, htyped, if_true]
    rw [hend]
    rfl
  have hmarks : ({ s with frame := parent, outer := outer } : Erasure).At table ((t, true) :: done)
      (colon :: ts ++ next :: behind) := hs.marks.keep.of_kept rfl
  exact ⟨_, hstep, rfl, hmarks.removeTo, rfl, rfl, hs.bodies.mono (by simp; omega)⟩

/-- The result type behind parameters is removed. -/
theorem leads_result {colon : Token} (htable : tokenize source = .ok table) (ht : t.IsMark ")")
    (hcolon : colon.IsMark ":") (hts : TypeTokens grouped ts) (hnext : next.EndsType grouped)
    (hparameters : f.kind = .parameters) (hsettled : Settled parent) :
    Leads table ⟨done, t :: colon :: (ts ++ next :: behind), f, parent :: outer⟩
      ⟨(allRemoved (colon :: ts)).reverse ++ (t, true) :: done, next :: behind, parent, outer⟩ :=
  leads_taken ht hcolon (fun hahead => hts.typeEnd htable hahead hnext.outside hnext.arrow)
    hparameters hsettled

/-- What stands at the end of an operand and closes no curly bracket is taken for one. -/
theorem endsOperand_eq_true {p : Nat} (htoken : table.tokens[p]? = some t) (h : t.EndsOperand)
    (hcurly : t.is "\x7d" = false) : s.endsOperand table p = true := by
  have his := is_of_getElem? htoken
  have hkind : table.kind p = t.kind := by simp [TokenTable.kind, htoken]
  have hlisted : table.isOneOf p nonOperands = nonOperands.contains t.text := by
    simp [TokenTable.isOneOf, TokenTable.text, htoken]
  rw [endsOperand, isStep, his, his, endsPlainOperand, hkind, hlisted, his, his]
  rcases h with hname | hliteral | hmark | hmark | hmark
  · have hoperand : nonOperands.contains t.text = false := hname.contains_eq_false (by decide)
    rw [hname.is_eq_false (.inr (by decide)), hname.is_eq_false (.inr (by decide)), hname.1,
      hoperand]
    rfl
  · rcases hliteral with hkind | hkind <;> simp [Token.is, hkind]
  · simp [hmark.is, hmark.1]
  · simp [hmark.is, hmark.1]
  · simp [hmark.is] at hcurly

/-- Behind the end of an operand, an assertion may follow. -/
theorem behindOperand_eq_true (hs : s.At table done rest)
    (hbefore : ∃ v ∈ (recent done).head?, v.EndsOperand) :
    ((s.previous done.length).any fun p => s.endsOperand table p || table.is p "\x7d") = true := by
  obtain ⟨v, hv, hends⟩ := hbefore
  obtain ⟨vs, hrecent⟩ := List.head?_eq_some_iff.mp hv
  have hpreceded : s.Preceded table done.length (v :: vs) := hrecent ▸ hs.preceded
  obtain ⟨p, hp, htoken, -⟩ := hpreceded
  rw [hp, Option.any_some, is_of_getElem? htoken]
  by_cases hcurly : v.is "\x7d" = true
  · rw [hcurly, Bool.or_true]
  · rw [endsOperand_eq_true htoken hends (Bool.eq_false_iff.mpr hcurly), Bool.true_or]

/-- An assertion behind an operand is removed. -/
theorem leads_assertion (htable : tokenize source = .ok table) (ht : t.IsWord "as")
    (hts : TypeTokens grouped ts) (hnext : next.EndsType grouped)
    (hclass : f.kind ≠ .classBody) (hclause : f.kind ≠ .moduleClause)
    (hbefore : ∃ v ∈ (recent done).head?, v.EndsOperand) :
    Leads table ⟨done, t :: (ts ++ next :: behind), f, outer⟩
      ⟨(allRemoved (t :: ts)).reverse ++ done, next :: behind, f, outer⟩ := by
  refine leads_of_removal fun s hs => ?_
  have hf : s.frame = f := hs.frame
  have hahead := hs.ahead
  obtain ⟨hlt, hend⟩ := hts.typeEnd htable hahead.tail hnext.outside hnext.arrow
  obtain ⟨first, others, rfl, hfirst⟩ := hts.exists_startsType
  have hstarts : table.startsType (done.length + 1) = true := hfirst.startsType hahead.tail
  have hconst : table.is (done.length + 1) "const" = false :=
    (hahead.tail.is _).trans hfirst.constant
  have hunpointed : Unpointed done := by
    obtain ⟨v, hv, hends⟩ := hbefore
    intro u hu
    obtain rfl := Option.mem_unique hv hu
    exact hends.unpointed
  have hassertion : s.assertion table done.length =
      .ok (some ⟨done.length, done.length + 1 + (first :: others).length,
        Nat.lt_of_succ_lt hlt⟩) := by
    have hclause' : (s.frame.kind == .moduleClause) = false := by
      rw [hf]
      simpa using hclause
    simp only [assertion, behindOperand_eq_true hs.marks hbefore, hclause', hstarts, hconst]
    rw [hend, Bool.and_false]
    rfl
  refine ⟨_, Nat.lt_of_succ_lt hlt, by simp only [List.length_cons]; omega, ?_⟩
  rw [step_eq_plainWord hs ht.1 (by rw [ht.2]; decide) (.inl (by rw [ht.2]; decide)) hclass
    hunpointed, plainWord, hahead.text, ht.2, hassertion]
  rfl

end Erasure

end Workflow.Script
