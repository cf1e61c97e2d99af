import Workflow.Proofs.Script.Outline
import Workflow.Proofs.Script.Statement

/-!
# Members of a class

The tokens of fields and methods with types, each with whether erasure keeps it. A run that
comes to a member in the body of a class marks its tokens in this way, and stands behind it as
it stood in front of it, so that members may follow each other.
-/

namespace Workflow.Script

open Erasure

/-- The modifiers of members that are removed. -/
def typeModifiers : List String := ["public", "private", "protected", "readonly"]

/-- The tokens of a list in angle brackets, if there is one. -/
inductive AngleTokens : List Token → Prop
  | nil : AngleTokens []
  | list {opening closing : Token} {inner : List Token} : opening.IsMark "<" → Enclosed inner →
      closing.IsMark ">" → AngleTokens (opening :: (inner ++ [closing]))

/-- The tokens of the mark behind the name of a field, if there is one. -/
inductive MarkTokens : List Token → Prop
  | nil : MarkTokens []
  | mark {t : Token} : t.IsMark "?" ∨ t.IsMark "!" → MarkTokens [t]

/-- The tokens of a member of a class. -/
inductive MemberMarks : List (Token × Bool) → Prop
  | modifier {t : Token} {ms : List (Token × Bool)} : t.kind = .word → t.text ∈ typeModifiers →
      MemberMarks ms → MemberMarks ((t, false) :: ms)
  | static {t : Token} {ms : List (Token × Bool)} : t.IsWord "static" → MemberMarks ms →
      MemberMarks ((t, true) :: ms)
  | field {name colon semicolon : Token} {mark ts : List Token} {grouped : Bool} :
      name.IsName → MarkTokens mark → colon.IsMark ":" → TypeTokens grouped ts →
      semicolon.IsMark ";" →
      MemberMarks ((name, true) :: (allRemoved (mark ++ colon :: ts) ++ [(semicolon, true)]))
  | initialized {name colon equals semicolon : Token} {mark ts us : List Token} {grouped : Bool}
      {ps : List Piece} :
      name.IsName → MarkTokens mark → colon.IsMark ":" → TypeTokens grouped ts →
      equals.IsMark "=" → Inert .operand us → Outlined us ps → ¬ Misread ps →
      (∀ t ∈ us, t.startsLine = false) → semicolon.IsMark ";" →
      MemberMarks ((name, true) :: (allRemoved (mark ++ colon :: ts) ++ (equals, true) ::
        (allKept us ++ [(semicolon, true)])))
  | method {name first last colon block result semicolon close : Token}
      {angle ts us : List Token} {ms : List (Token × Bool)} {grouped : Bool} :
      name.IsName → AngleTokens angle → first.IsMark "(" → ParameterMarks ms → last.IsMark ")" →
      colon.IsMark ":" → TypeTokens grouped ts → block.IsMark "\x7b" → result.IsWord "return" →
      Inert .operand us → semicolon.IsMark ";" → close.IsMark "\x7d" →
      MemberMarks ((name, true) :: (allRemoved angle ++ (first, true) :: (ms ++ (last, true) ::
        (allRemoved (colon :: ts) ++ (block, true) :: (result, true) ::
          (allKept us ++ [(semicolon, true), (close, true)])))))

/-- The tokens of members that stand one behind the other. -/
inductive MembersMarks : List (Token × Bool) → Prop
  | nil : MembersMarks []
  | cons {ms ns : List (Token × Bool)} : MemberMarks ms → MembersMarks ns → MembersMarks (ms ++ ns)

variable {source : String} {table : TokenTable} {ms done : List (Token × Bool)} {s : Erasure}
  {t u name next : Token} {angle mark ts rest behind : List Token} {f : Frame} {outer : List Frame}

namespace AngleTokens

/-- A list in angle brackets may stand in one. -/
theorem enclosed (h : AngleTokens angle) : Enclosed angle := by
  cases h with
  | nil => exact .nil
  | list hopening hinner hclosing => exact .angle hopening hclosing hinner .nil

/-- Where the list ends, if there is one. -/
theorem angleEnd {i : Nat} (h : AngleTokens angle) (htable : tokenize source = .ok table)
    (hahead : table.Ahead i (angle ++ u :: rest)) (hu : u.is "<" = false) :
    if table.is i "<" then Answers (table.angleEnd i) (i + angle.length) else angle = [] := by
  cases h with
  | nil => rw [if_neg (by rw [hahead.is, hu]; exact Bool.false_ne_true)]
  | @list opening closing inner hopening hinner hclosing =>
    rw [List.cons_append, List.append_assoc, List.singleton_append] at hahead
    rw [if_pos (by rw [hahead.is, hopening.is]; rfl)]
    have hend := hinner.angleEnd htable hahead hopening hclosing
    rwa [show i + (opening :: (inner ++ [closing])).length = i + 1 + inner.length + 1 by
      simp only [List.length_cons, List.length_append, List.length_nil]; omega]

end AngleTokens

/-- A member starts in front of a name. -/
theorem Token.StartsMember.unpointed (h : t.StartsMember) :
    t.is "." = false ∧ t.is "?." = false := by
  have hother : ∀ text, t.is text = true → text ≠ "." ∧ text ≠ "?." →
      t.is "." = false ∧ t.is "?." = false := by
    rintro text his ⟨hpoint, hquestion⟩
    simp only [Token.is, Bool.and_eq_true, beq_iff_eq] at his
    simp [Token.is, his.2, hpoint, hquestion]
  rcases h with h | h | h | h
  · exact hother _ h (by decide)
  · exact hother _ h (by decide)
  · exact hother _ h (by decide)
  · have hall : ∀ text ∈ memberPrefixes, text ≠ "." ∧ text ≠ "?." := by decide
    simp [Token.is, hall _ h]

namespace Erasure

/-- A member starts behind the tokens. -/
def StartsMember (done : List (Token × Bool)) : Prop := ∃ u ∈ (recent done).head?, u.StartsMember

/-- In front of a member stands no point. -/
theorem StartsMember.unpointed (h : Erasure.StartsMember done) : Unpointed done := by
  obtain ⟨u, hu, hmember⟩ := h
  intro v hv
  obtain rfl := Option.mem_unique hu hv
  exact hmember.unpointed

/-- A word at which a member starts is taken for a part of it. -/
theorem step_classMember (hs : s.Fits table ⟨done, t :: rest, f, outer⟩) (hkind : t.kind = .word)
    (hexport : t.text ≠ "export") (hstatement : t.text ∉ statementWords)
    (hclass : f.kind = .classBody) (hstarts : Erasure.StartsMember done)
    {r : Option (TokenTable.Removal done.length)} {s' : Erasure}
    (hmember : s.classMember table done.length = .ok (r, s')) :
    s.step table done.length = r.elim (s'.plainWord table done.length)
      fun removal => .ok (s'.advanceOver table removal) := by
  have hf : s.frame = f := hs.frame
  obtain ⟨hpoint, hquestion⟩ := hstarts.unpointed.follows hs.marks
  rw [step_word hs.ahead hkind hexport (.inl hstatement), word, hpoint, hquestion,
    if_neg (by simp), if_pos (hf ▸ hclass), hmember]
  cases r <;> rfl

/-- The run sees that a member starts. -/
theorem StartsMember.startsMember (h : Erasure.StartsMember done)
    (hs : s.At table done (t :: rest)) :
    s.startsMember table done.length = true := by
  obtain ⟨u, hu, hmember⟩ := h
  exact (startsMember_eq hs).mpr ⟨u, hu, .inl hmember⟩

/-- A modifier that only exists for types is removed. -/
theorem leads_modifier (hkind : t.kind = .word) (hmem : t.text ∈ typeModifiers)
    (hu : u.kind = .word) (hclass : f.kind = .classBody) (hstarts : Erasure.StartsMember done) :
    Leads table ⟨done, t :: u :: rest, f, outer⟩ ⟨(t, false) :: done, u :: rest, f, outer⟩ := by
  show Leads table ⟨done, t :: ([] ++ u :: rest), f, outer⟩ _
  have hlisted : t.text ≠ "export" ∧ t.text ∉ statementWords ∧ t.text ∈ modifiers := by
    revert hmem
    generalize t.text = text
    revert text
    decide
  obtain ⟨hexport, hstatement, hmodifier⟩ := hlisted
  refine leads_of_removal fun s hs => ⟨_, Nat.lt_succ_self _, rfl, ?_⟩
  have hahead : table.Ahead done.length (t :: u :: rest) := hs.ahead
  have hmodifies : isMemberModifier table done.length = true := by
    simp [isMemberModifier, hahead.isOneOf, hmodifier, hahead.tail.isWord, hu]
  have hmember : s.classMember table done.length =
      .ok (some ⟨done.length, done.length + 1, Nat.lt_succ_self _⟩, s) := by
    rw [classMember, hstarts.startsMember hs.marks, hmodifies]
    rfl
  exact step_classMember hs hkind hexport hstatement hclass hstarts hmember

/-- A modifier that is no type stays. -/
theorem leads_static (ht : t.IsWord "static") (hu : u.Unmarked) (hsettled : Settled f) :
    Leads table ⟨done, t :: u :: rest, f, outer⟩ ⟨(t, true) :: done, u :: rest, f, outer⟩ := by
  refine leads_of_onFrame id (by simp) fun s hs => ?_
  have hf : s.frame = f := hs.frame
  have hmember : s.classMember table done.length = .ok (none, s) :=
     classMember_eq_none hs.ahead (by rw [ht.2]; decide) fun _ => hu.continuesMember_eq rest
  exact step_plain hs.ahead ht.1 (by rw [ht.2]; decide) (fun _ => hmember) (hf ▸ hsettled)

/-- At a field with a type the annotation is removed, with the mark in front of it. -/
theorem classMember_of_annotation {i e : Nat} (hstarts : s.startsMember table i = true)
    (hmodifier : isMemberModifier table i = false)
    (hangle : table.is (afterMark table i) "<" = false)
    (hcolon : table.is (afterMark table i) ":" = true)
    (hend : Answers (table.typeEnd (afterMark table i + 1)) e) :
    ∃ hlt, s.classMember table i = .ok (some ⟨i + 1, e, hlt⟩, s) := by
  obtain ⟨hlt, hend⟩ := hend
  have hafter := (afterMark table i).2
  refine ⟨by omega, ?_⟩
  unfold classMember
  have hfirst : (if isMarked table i = true then i + 1 else (afterMark table i).val) = i + 1 := by
    by_cases hmarked : isMarked table i = true
    · rw [if_pos hmarked]
    · rw [if_neg hmarked, afterMark, if_neg hmarked]
  simp only [hstarts, hmodifier, methodParameters, hangle, Bool.not_true, Bool.false_eq_true,
    if_false]
  simp only [bind, Except.bind, pure, Except.pure, hcolon, if_true, hend, hfirst]

/-- Behind the mark of a name stands what the annotation starts with. -/
theorem afterMark_eq {i : Nat} (hahead : table.Ahead i (name :: (mark ++ u :: rest)))
    (hmark : MarkTokens mark) (hu : u.is "?" = false ∧ u.is "!" = false) :
    (afterMark table i).val = i + 1 + mark.length := by
  cases hmark with
  | nil =>
    have hnone : isMarked table i = false := by
      simp [isMarked, hahead.tail.is, hu]
    simp [afterMark, hnone]
  | mark ht =>
    have hmarked : isMarked table i = true := by
      rcases ht with ht | ht <;> simp [isMarked, hahead.tail.is, ht.is]
    simp [afterMark, hmarked]

/-- The annotation behind the name of a member is removed, with the mark in front of it. -/
theorem leads_annotation {colon : Token} {grouped : Bool} (htable : tokenize source = .ok table)
    (hname : name.IsName) (hmark : MarkTokens mark) (hcolon : colon.IsMark ":")
    (hts : TypeTokens grouped ts) (hnext : next.EndsType grouped) (hclass : f.kind = .classBody)
    (hstarts : Erasure.StartsMember done) :
    Leads table ⟨done, name :: (mark ++ colon :: (ts ++ next :: behind)), f, outer⟩
      ⟨(allRemoved (mark ++ colon :: ts)).reverse ++ (name, true) :: done, next :: behind, f,
        outer⟩ := by
  refine leads_of_advance (by simp) fun s hs => ?_
  have hahead : table.Ahead done.length (name :: (mark ++ colon :: (ts ++ next :: behind))) :=
    hs.ahead
  have hafter := afterMark_eq hahead hmark (by simp [hcolon.is])
  have hbehind : table.Ahead (done.length + 1 + mark.length) (colon :: (ts ++ next :: behind)) :=
    hahead.tail.append
  have hstop : done.length + 1 + mark.length + 1 + ts.length =
      ((allRemoved (mark ++ colon :: ts)).reverse ++ (name, true) :: done).length := by
    rw [length_allRemoved, List.length_append, List.length_cons, List.length_cons]
    omega
  have hend : Answers (table.typeEnd (afterMark table done.length + 1))
      ((allRemoved (mark ++ colon :: ts)).reverse ++ (name, true) :: done).length := by
    rw [hafter, ← hstop]
    exact hts.typeEnd htable hbehind.tail hnext.outside hnext.arrow
  obtain ⟨hlt, hmember⟩ := classMember_of_annotation (hstarts.startsMember hs.marks)
    (isMemberModifier_eq_false hahead (hname.text_not_mem (by decide)))
    (by rw [hafter, hbehind.is, hcolon.is]; rfl) (by rw [hafter, hbehind.is, hcolon.is]; rfl)
    hend
  have hmarks : s.At table ((name, true) :: done) (mark ++ colon :: ts ++ next :: behind) := by
    simpa using hs.marks.keep
  exact ⟨_, step_classMember hs hname.1 (hname.text_ne (by decide)) (hname.text_not_mem (by decide))
    hclass hstarts hmember, rfl, hmarks.removeTo, hs.frame, hs.outer,
    hs.bodies.mono (by simp; omega)⟩

/-- Nothing but marks has changed. -/
structure SamePlace (s s' : Erasure) : Prop where
  frame : s'.frame = s.frame
  outer : s'.outer = s.outer
  bodies : s'.classBodies = s.classBodies

theorem SamePlace.refl (s : Erasure) : SamePlace s s := ⟨rfl, rfl, rfl⟩

/-- To remove tokens changes nothing but marks. -/
theorem SamePlace.remove {k e : Nat} : SamePlace s (s.remove table k e) := ⟨rfl, rfl, rfl⟩

/-- At a method with type parameters these are removed. -/
theorem classMember_of_typeParameters {i e : Nat} (hstarts : s.startsMember table i = true)
    (hmodifier : isMemberModifier table i = false) (hmarked : isMarked table i = false)
    (hangle : table.is (i + 1) "<" = true) (hend : Answers (table.angleEnd (i + 1)) e)
    (hround : table.is e "(" = true) (hcolon : table.is e ":" = false) :
    s.classMember table i = .ok (none, s.remove table (i + 1) e) := by
  obtain ⟨hlt, hend⟩ := hend
  have hafter : afterMark table i = ⟨i + 1, Nat.lt_succ_self i⟩ := by
    rw [afterMark, if_neg (Bool.eq_false_iff.mp hmarked)]
  have hparameters : s.methodParameters table i ⟨i + 1, Nat.lt_succ_self i⟩ =
      .ok (⟨e, Nat.lt_trans (Nat.lt_succ_self i) hlt⟩, s.remove table (i + 1) e) := by
    simp only [methodParameters, hangle, hend, bind, Except.bind, pure, Except.pure, hround,
      if_true]
  unfold classMember
  rw [hstarts, hmodifier, hafter, hparameters, hmarked]
  simp only [bind, Except.bind, pure, Except.pure, hcolon, Bool.not_true, Bool.false_eq_true,
    if_false, Bool.false_and]

/-- The type parameters of a method are removed at its name. -/
theorem exists_classMember_method {first : Token} (htable : tokenize source = .ok table)
    (hs : s.At table done (name :: (angle ++ first :: rest))) (hname : name.IsName)
    (hangle : AngleTokens angle) (hfirst : first.IsMark "(") (hstarts : Erasure.StartsMember done) :
    ∃ s', s.classMember table done.length = .ok (none, s') ∧ SamePlace s s' ∧
      s'.At table ((allRemoved angle).reverse ++ (name, true) :: done) (first :: rest) := by
  have hahead := hs.ahead
  have hmodifier := isMemberModifier_eq_false hahead (hname.text_not_mem (by decide))
  cases hangle with
  | nil =>
    refine ⟨s, classMember_eq_none hahead (hname.text_not_mem (by decide)) fun _ => ?_, .refl s,
      hs.keep⟩
    exact (hfirst.unmarked (by decide)).continuesMember_eq rest
  | @list opening closing inner hopening hinner hclosing =>
    have hahead' : table.Ahead (done.length + 1)
        (opening :: (inner ++ [closing]) ++ first :: rest) :=
      hahead.tail
    have hbehind := hahead'.append
    have hend :=
      (AngleTokens.list hopening hinner hclosing).angleEnd htable hahead' (by simp [hfirst.is])
    rw [if_pos (by rw [hahead'.is, hopening.is]; rfl)] at hend
    have hmember := classMember_of_typeParameters (hstarts.startsMember hs) hmodifier
      (by simp [isMarked, hahead'.is, hopening.is]) (by rw [hahead'.is, hopening.is]; rfl) hend
      (by rw [hbehind.is, hfirst.is]; rfl) (by rw [hbehind.is, hfirst.is]; rfl)
    have hmarks : s.At table ((name, true) :: done)
        (opening :: (inner ++ [closing]) ++ first :: rest) := hs.keep
    have hremoved := hmarks.removeTo
    rw [length_allRemoved] at hremoved
    exact ⟨_, hmember, .remove, hremoved⟩

/-- The name of a method is kept, and its type parameters are removed. -/
theorem leads_methodName {first : Token} (htable : tokenize source = .ok table)
    (hname : name.IsName) (hangle : AngleTokens angle) (hfirst : first.IsMark "(")
    (hclass : f.kind = .classBody) (hsettled : Settled f) (hstarts : Erasure.StartsMember done) :
    Leads table ⟨done, name :: (angle ++ first :: rest), f, outer⟩
      ⟨(allRemoved angle).reverse ++ (name, true) :: done, first :: rest, f, outer⟩ := by
  intro s hs
  have hf : s.frame = f := hs.frame
  obtain ⟨s', hmember, hsame, hmarks⟩ :=
    exists_classMember_method htable hs.marks hname hangle hfirst hstarts
  have hsettled' : Settled s'.frame := by rwa [hsame.frame, hf]
  have hstep : s.step table done.length = .ok (s'.advance done.length) := by
    rw [step_classMember hs hname.1 (hname.text_ne (by decide))
      (hname.text_not_mem (by decide)) hclass hstarts hmember, Option.elim_none,
      plainWord_eq (hs.ahead.text ▸ hname.text_not_mem (by decide)),
      onFrame_eq_self hsettled'.afterWord_eq]
  have hskipped := run_marked hmarks (by simp) hsettled' (by simp [allRemoved])
  refine ⟨s', ⟨hmarks, hsame.frame.trans hs.frame, hsame.outer.trans hs.outer, ?_⟩, ?_⟩
  · have hbodies : s'.BodiesBefore done.length := by
      rw [BodiesBefore, hsame.bodies]
      exact hs.bodies
    exact hbodies.mono (by simp; omega)
  · rw [run_step hs.marks (by simp) rfl hstep]
    exact hskipped

/-- In a class, the round bracket between a name and a result type with a body opens parameters. -/
theorem opensParameters_of_method {i : Nat} {colon block : Token} {others : List Token}
    {grouped : Bool} (htable : tokenize source = .ok table)
    (h : s.Preceded table i (name :: others)) (hname : name.IsName)
    (hclass : s.frame.kind = .classBody) (hconditionals : s.frame.conditionals = 0)
    (hbehind : table.Ahead (table.closeOf i + 1) (colon :: (ts ++ block :: behind)))
    (hcolon : colon.IsMark ":") (hts : TypeTokens grouped ts) (hblock : block.IsMark "\x7b") :
    s.opensParameters table i = true := by
  obtain ⟨p, hp, htoken, -⟩ := h
  have hmethod : isMethodName table p = true := by
    have hword : table.isWord p = true := by
      simp [TokenTable.isWord, TokenTable.kind, htoken, hname.1]
    have hlisted : table.isOneOf p nonMethods = false := by
      rw [TokenTable.isOneOf, TokenTable.text, htoken]
      exact hname.contains_eq_false (by decide)
    simp [isMethodName, hword, hlisted]
  have hends : block.EndsType grouped := hblock.endsType (by decide) (by simp)
  obtain ⟨hlt, hend⟩ := hts.typeEnd htable hbehind.tail hends.outside hends.arrow
  have htyped : table.is (table.closeOf i + 1) ":" = true := by simp [hbehind.is, hcolon.is]
  have hbody : table.is (table.closeOf i + 1 + 1 + ts.length) "\x7b" = true := by
    simp [hbehind.tail.append.is, hblock.is]
  simp only [opensParameters, hp, Option.any_some, hmethod, htyped, hconditionals]
  rw [hend]
  simp [hbody, hclass]

end Erasure

theorem AngleTokens.balanced (h : AngleTokens angle) : Balanced angle := h.enclosed.balanced

theorem MarkTokens.balanced (h : MarkTokens mark) : Balanced mark := by
  cases h with
  | nil => exact .nil
  | mark ht => exact ht.elim (.of_mark · (by decide) .nil) (.of_mark · (by decide) .nil)

namespace MemberMarks

/-- The tokens of a member are balanced. -/
theorem balanced (h : MemberMarks ms) : Balanced (ms.map Prod.fst) := by
  induction h with
  | @modifier t ms hkind hmem _ ih =>
    have hword : t.IsWord t.text := ⟨hkind, rfl⟩
    have hbracket : ∀ text ∈ typeModifiers, text ∉ ["(", "[", "\x7b", ")", "]", "\x7d"] := by decide
    exact .of_word hword (hbracket _ hmem) ih
  | static ht _ ih => exact .of_word ht (by decide) ih
  | field hname hmark hcolon hts hsemicolon =>
    have htyped := Balanced.of_mark hcolon (by decide)
      (hts.enclosed.balanced.append (.of_mark hsemicolon (by decide) .nil))
    simpa using Balanced.of_name hname (hmark.balanced.append htyped)
  | initialized hname hmark hcolon hts hequals hus _ _ _ hsemicolon =>
    have hvalue := Balanced.of_mark hequals (by decide)
      (hus.balanced.append (.of_mark hsemicolon (by decide) .nil))
    have htyped := Balanced.of_mark hcolon (by decide) (hts.enclosed.balanced.append hvalue)
    simpa using Balanced.of_name hname (hmark.balanced.append htyped)
  | method hname hangle hfirst hms hlast hcolon hts hblock hresult hus hsemicolon hclose =>
    have hvalue := hus.balanced.append (.of_mark hsemicolon (by decide) .nil)
    have hbody := Balanced.group (hblock.opens? .curly) (hclose.closes? .curly)
      (.of_word hresult (by decide) hvalue) .nil
    have htyped := Balanced.of_mark hcolon (by decide) (hts.enclosed.balanced.append hbody)
    have hlist := Balanced.group (hfirst.opens? .round) (hlast.closes? .round) hms.balanced htyped
    simpa using Balanced.of_name hname (hangle.balanced.append hlist)

/-- No kept token of a member gives a bracket a meaning. -/
theorem isCalm (h : MemberMarks ms) : ∀ m ∈ ms, m.2 = true → IsCalm m.1 := by
  induction h with
  | modifier _ _ _ ih => exact List.forall_mem_cons.mpr ⟨nofun, ih⟩
  | static ht _ ih => exact List.forall_mem_cons.mpr ⟨fun _ => isCalm_of_is ht.is (by decide), ih⟩
  | field hname _ _ _ hsemicolon =>
    simp only [List.forall_mem_cons, List.forall_mem_append]
    exact ⟨fun _ => isCalm_of_isName hname, isCalm_allRemoved,
      fun _ => isCalm_of_is hsemicolon.is (by decide), by simp⟩
  | initialized hname _ _ _ hequals hus _ _ _ hsemicolon =>
    simp only [List.forall_mem_cons, List.forall_mem_append]
    exact ⟨fun _ => isCalm_of_isName hname, isCalm_allRemoved,
      fun _ => isCalm_of_is hequals.is (by decide), isCalm_allKept hus.calm,
      fun _ => isCalm_of_is hsemicolon.is (by decide), by simp⟩
  | method hname _ hfirst hms hlast _ _ hblock hresult hus hsemicolon hclose =>
    simp only [List.forall_mem_cons, List.forall_mem_append]
    exact ⟨fun _ => isCalm_of_isName hname, isCalm_allRemoved,
      fun _ => isCalm_of_is hfirst.is (by decide), hms.isCalm,
      fun _ => isCalm_of_is hlast.is (by decide), isCalm_allRemoved,
      fun _ => isCalm_of_is hblock.is (by decide), fun _ => isCalm_of_is hresult.is (by decide),
      isCalm_allKept hus.calm, fun _ => isCalm_of_is hsemicolon.is (by decide),
      fun _ => isCalm_of_is hclose.is (by decide), by simp⟩

/-- A member starts with a word. -/
theorem exists_first (h : MemberMarks ms) :
    ∃ m others, ms = m :: others ∧ m.1.kind = .word ∧ m.1.Unmarked := by
  have hword : ∀ {t : Token} {text : String}, t.IsWord text → text ∉ [":", "<", "?", "!"] →
      t.Unmarked := by
    intro t text ht htext other hmem
    rw [ht.is, beq_eq_false_iff_ne]
    exact fun heq => htext (heq ▸ hmem)
  cases h with
  | modifier hkind hmem _ =>
    have hall : ∀ text ∈ typeModifiers, text ∉ [":", "<", "?", "!"] := by decide
    exact ⟨_, _, rfl, hkind, hword ⟨hkind, rfl⟩ (hall _ hmem)⟩
  | static ht _ => exact ⟨_, _, rfl, ht.1, hword ht (by decide)⟩
  | field hname _ _ _ _ => exact ⟨_, _, rfl, hname.1, hname.unmarked⟩
  | initialized hname _ _ _ _ _ _ _ _ _ => exact ⟨_, _, rfl, hname.1, hname.unmarked⟩
  | method hname _ _ _ _ _ _ _ _ _ _ _ => exact ⟨_, _, rfl, hname.1, hname.unmarked⟩

/-- Behind a member the next one may start. -/
theorem startsMember (h : MemberMarks ms) : Erasure.StartsMember (ms.reverse ++ done) := by
  have hstarts : ∀ {t : Token} {ns : List (Token × Bool)}, t.IsMark ";" ∨ t.IsMark "\x7d" →
      Erasure.StartsMember ((t, true) :: ns) := by
    rintro t ns ht
    refine ⟨t, rfl, ?_⟩
    rcases ht with ht | ht <;> simp [Token.StartsMember, ht.is]
  induction h generalizing done with
  | modifier _ _ _ ih | static _ _ ih => simpa using ih
  | field _ _ _ _ hsemicolon => simpa using hstarts (.inl hsemicolon)
  | initialized _ _ _ _ _ _ _ _ _ hsemicolon => simpa using hstarts (.inl hsemicolon)
  | method _ _ _ _ _ _ _ _ _ _ _ hclose => simpa using hstarts (.inr hclose)

/-- A run over a field keeps its name and the semicolon behind its type. -/
theorem leads_field {colon semicolon : Token} {grouped : Bool}
    (htable : tokenize source = .ok table) (hname : name.IsName) (hmark : MarkTokens mark)
    (hcolon : colon.IsMark ":") (hts : TypeTokens grouped ts) (hsemicolon : semicolon.IsMark ";")
    (hstarts : Erasure.StartsMember done) :
    Leads table
      ⟨done, name :: (mark ++ colon :: (ts ++ semicolon :: next :: behind)), .fresh .classBody,
        outer⟩
      ⟨(semicolon, true) :: ((allRemoved (mark ++ colon :: ts)).reverse ++ (name, true) :: done),
        next :: behind, .fresh .classBody, outer⟩ := by
  have htyped : Leads table
      ⟨done, name :: (mark ++ colon :: (ts ++ semicolon :: next :: behind)), .fresh .classBody,
        outer⟩ _ :=
    leads_annotation htable hname hmark hcolon hts (hsemicolon.endsType (by decide) (by simp)) rfl
      hstarts
  exact htyped.trans (leads_semicolon (by simp) hsemicolon)

/-- Behind the type of a field, no member is met in an initializer that is not misread. -/
theorem noMembers_initializer {equals semicolon : Token} {us : List Token} {ps : List Piece}
    (hequals : equals.IsMark "=") (houtlined : Outlined us ps) (hread : ¬ Misread ps)
    (hline : ∀ t ∈ us, t.startsLine = false) (hsemicolon : semicolon.IsMark ";") :
    NoMembers (recent ((equals, true) :: done)) us (semicolon :: behind) := by
  refine houtlined.noMembers hline hread ?_
    ((hsemicolon.unmarked (by decide)).continuesMember_eq _)
  rintro u ⟨⟩ hstarts
  simp [Token.StartsMember, hequals.is, hequals.2, memberPrefixes] at hstarts

/-- A run over a field with an initializer keeps all but its type. -/
theorem leads_initialized {colon equals semicolon : Token} {us : List Token} {grouped : Bool}
    {ps : List Piece} (htable : tokenize source = .ok table) (hname : name.IsName)
    (hmark : MarkTokens mark) (hcolon : colon.IsMark ":") (hts : TypeTokens grouped ts)
    (hequals : equals.IsMark "=") (hus : Inert .operand us) (houtlined : Outlined us ps)
    (hread : ¬ Misread ps) (hline : ∀ t ∈ us, t.startsLine = false)
    (hsemicolon : semicolon.IsMark ";") (hcalm : Calm (recent done))
    (hstarts : Erasure.StartsMember done) :
    Leads table
      ⟨done, name :: (mark ++ colon :: (ts ++ equals :: (us ++ semicolon :: next :: behind))),
        .fresh .classBody, outer⟩
      ⟨(semicolon, true) :: ((allKept us).reverse ++ (equals, true) ::
        ((allRemoved (mark ++ colon :: ts)).reverse ++ (name, true) :: done)), next :: behind,
        .fresh .classBody, outer⟩ := by
  have htyped : Leads table
      ⟨done, name :: (mark ++ colon :: (ts ++ equals :: (us ++ semicolon :: next :: behind))),
        .fresh .classBody, outer⟩ _ :=
    leads_annotation htable hname hmark hcolon hts (hequals.endsType (by decide) (by simp))
      rfl hstarts
  have hinitializer : Leads table _ ⟨(equals, true) :: _, us ++ semicolon :: next :: behind,
      .fresh .classBody, outer⟩ :=
    htyped.trans (leads_equals (by simp) hequals)
  have hcalm' : Calm (recent ((equals, true) ::
      ((allRemoved (mark ++ colon :: ts)).reverse ++ (name, true) :: done))) := by
    refine Calm.mark ?_ hequals (by decide)
    rw [recent_allRemoved]
    exact hcalm.cons (isCalm_of_isName hname)
  have hvalue := hinitializer.trans (leads_inert htable hus (Place.allows_fresh (by decide))
    (fun _ => noMembers_initializer hequals houtlined hread hline hsemicolon) hcalm'
    (hsemicolon.follows (by decide)))
  exact hvalue.trans (leads_semicolon (by simp) hsemicolon)

/-- A run over the head of a method keeps its name and stands in front of its parameters. -/
theorem leads_methodHead {first last colon block : Token} {grouped : Bool}
    (htable : tokenize source = .ok table) (hname : name.IsName) (hangle : AngleTokens angle)
    (hfirst : first.IsMark "(") (hms : ParameterMarks ms) (hlast : last.IsMark ")")
    (hcolon : colon.IsMark ":") (hts : TypeTokens grouped ts) (hblock : block.IsMark "\x7b")
    (hstarts : Erasure.StartsMember done) :
    Leads table
      ⟨done, name :: (angle ++ first :: (ms.map Prod.fst ++ last :: colon ::
        (ts ++ block :: behind))), .fresh .classBody, outer⟩
      ⟨(first, true) :: ((allRemoved angle).reverse ++ (name, true) :: done),
        ms.map Prod.fst ++ last :: colon :: (ts ++ block :: behind), .fresh .parameters,
        .fresh .classBody :: outer⟩ := by
  have hnamed : Leads table
      ⟨done, name :: (angle ++ first :: (ms.map Prod.fst ++ last :: colon ::
        (ts ++ block :: behind))), .fresh .classBody, outer⟩ _ :=
    leads_methodName htable hname hangle hfirst rfl (.inl rfl) hstarts
  refine hnamed.trans (leads_parameters (by simp) hfirst (.inl rfl) fun s hs => ?_)
  have hf : s.frame = .fresh .classBody := hs.frame
  have hpreceded : s.Preceded table ((allRemoved angle).reverse ++ (name, true) :: done).length
      (recent ((allRemoved angle).reverse ++ (name, true) :: done)) := hs.marks.preceded
  rw [recent_allRemoved] at hpreceded
  have hbehind := hs.ahead.behind_closeOf htable (hfirst.opens? .round) (hlast.closes? .round)
    hms.balanced
  exact opensParameters_of_method htable hpreceded hname (by rw [hf]; rfl)
    (by rw [hf]; rfl) hbehind hcolon hts hblock

/-- A run over a method keeps all but its type parameters, its result type and the types of its
parameters. -/
theorem leads_method {first last colon block result semicolon close : Token} {us : List Token}
    {grouped : Bool} (htable : tokenize source = .ok table) (hname : name.IsName)
    (hangle : AngleTokens angle) (hfirst : first.IsMark "(") (hms : ParameterMarks ms)
    (hlast : last.IsMark ")") (hcolon : colon.IsMark ":") (hts : TypeTokens grouped ts)
    (hblock : block.IsMark "\x7b") (hresult : result.IsWord "return") (hus : Inert .operand us)
    (hsemicolon : semicolon.IsMark ";") (hclose : close.IsMark "\x7d")
    (hcalm : Calm (recent done)) (hstarts : Erasure.StartsMember done)
    (hnext : next.is ":" = false) :
    Leads table
      ⟨done, name :: (angle ++ first :: (ms.map Prod.fst ++ last :: colon ::
        (ts ++ block :: result :: (us ++ semicolon :: close :: next :: behind)))),
        .fresh .classBody, outer⟩
      ⟨(close, true) :: (semicolon, true) :: ((allKept us).reverse ++ (result, true) ::
        (block, true) :: ((allRemoved (colon :: ts)).reverse ++ (last, true) ::
          (ms.reverse ++ (first, true) :: ((allRemoved angle).reverse ++ (name, true) :: done)))),
        next :: behind, .fresh .classBody, outer⟩ := by
  have hopened : Leads table
      ⟨done, name :: (angle ++ first :: (ms.map Prod.fst ++ last :: colon ::
        (ts ++ block :: result :: (us ++ semicolon :: close :: next :: behind)))),
        .fresh .classBody, outer⟩ _ :=
    leads_methodHead htable hname hangle hfirst hms hlast hcolon hts hblock hstarts
  have hparameters := hopened.trans (hms.leads htable hlast (.of_is hfirst.is (by decide)))
  have hresulted := hparameters.trans (leads_result htable hlast hcolon hts
    (hblock.endsType (by decide) (by simp)) rfl (.inl rfl))
  have hcalm' : Calm (recent ((allRemoved (colon :: ts)).reverse ++ (last, true) ::
      (ms.reverse ++ (first, true) ::
        ((allRemoved angle).reverse ++ (name, true) :: done)))) := by
    rw [recent_allRemoved]
    refine Calm.mark (Calm.marks (Calm.mark ?_ hfirst (by decide)) hms.isCalm) hlast (by decide)
    rw [recent_allRemoved]
    exact hcalm.cons (isCalm_of_isName hname)
  exact hresulted.trans (leads_body htable hblock hresult hus hsemicolon hclose (.inl rfl)
    hnext hcalm')

/-- A run keeps of a member what is no type. -/
theorem leads (h : MemberMarks ms) (htable : tokenize source = .ok table)
    (hcalm : Calm (recent done)) (hstarts : Erasure.StartsMember done)
    (hnext : next.is ":" = false) :
    Leads table ⟨done, ms.map Prod.fst ++ next :: behind, .fresh .classBody, outer⟩
      ⟨ms.reverse ++ done, next :: behind, .fresh .classBody, outer⟩ := by
  induction h generalizing done with
  | @modifier t ms hkind hmem hms ih =>
    obtain ⟨m, others, rfl, hword, -⟩ := hms.exists_first
    have hremoved : Leads table
        ⟨done, t :: m.1 :: (others.map Prod.fst ++ next :: behind), .fresh .classBody, outer⟩
        ⟨(t, false) :: done, m.1 :: (others.map Prod.fst ++ next :: behind), .fresh .classBody,
          outer⟩ :=
      leads_modifier hkind hmem hword rfl hstarts
    simpa using hremoved.trans (ih (by simpa using hcalm) hstarts)
  | @static t ms ht hms ih =>
    obtain ⟨m, others, rfl, -, hunmarked⟩ := hms.exists_first
    have hkept : Leads table
        ⟨done, t :: m.1 :: (others.map Prod.fst ++ next :: behind), .fresh .classBody, outer⟩
        ⟨(t, true) :: done, m.1 :: (others.map Prod.fst ++ next :: behind), .fresh .classBody,
          outer⟩ :=
      leads_static ht hunmarked (.inl rfl)
    have hmember : Erasure.StartsMember ((t, true) :: done) :=
      ⟨t, rfl, .inr (.inr (.inr (by rw [ht.2]; decide)))⟩
    simpa using hkept.trans (ih (hcalm.cons (isCalm_of_is ht.is (by decide))) hmember)
  | field hname hmark hcolon hts hsemicolon =>
    simpa using leads_field htable hname hmark hcolon hts hsemicolon hstarts
  | initialized hname hmark hcolon hts hequals hus houtlined hread hline hsemicolon =>
    simpa using leads_initialized htable hname hmark hcolon hts hequals hus houtlined hread hline
      hsemicolon hcalm hstarts
  | method hname hangle hfirst hms hlast hcolon hts hblock hresult hus hsemicolon hclose =>
    simpa using leads_method htable hname hangle hfirst hms hlast hcolon hts hblock hresult hus
      hsemicolon hclose hcalm hstarts hnext

end MemberMarks

namespace MembersMarks

/-- The tokens of members are balanced. -/
theorem balanced (h : MembersMarks ms) : Balanced (ms.map Prod.fst) := by
  induction h with
  | nil => exact .nil
  | cons hms _ ih =>
    rw [List.map_append]
    exact hms.balanced.append ih

/-- A member is followed by another one, or by what closes the class. -/
theorem exists_next (h : MembersMarks ms) (hnext : next.is ":" = false) (behind : List Token) :
    ∃ u rest, ms.map Prod.fst ++ next :: behind = u :: rest ∧ u.is ":" = false := by
  cases h with
  | nil => exact ⟨next, behind, rfl, hnext⟩
  | cons hms _ =>
    obtain ⟨m, others, rfl, -, hunmarked⟩ := hms.exists_first
    exact ⟨m.1, _, rfl, hunmarked ":" (by decide)⟩

/-- A run keeps of the members what is no type. -/
theorem leads (h : MembersMarks ms) (htable : tokenize source = .ok table)
    (hcalm : Calm (recent done)) (hstarts : Erasure.StartsMember done)
    (hnext : next.is ":" = false) :
    Leads table ⟨done, ms.map Prod.fst ++ next :: behind, .fresh .classBody, outer⟩
      ⟨ms.reverse ++ done, next :: behind, .fresh .classBody, outer⟩ := by
  induction h generalizing done with
  | nil => exact .refl _
  | @cons ms ns hms hns ih =>
    obtain ⟨u, rest, hrest, hu⟩ := hns.exists_next hnext behind
    have hmember : Leads table ⟨done, ms.map Prod.fst ++ u :: rest, .fresh .classBody, outer⟩
        ⟨ms.reverse ++ done, u :: rest, .fresh .classBody, outer⟩ :=
      hms.leads htable hcalm hstarts hu
    rw [← hrest] at hmember
    simpa using hmember.trans (ih (hcalm.marks hms.isCalm) hms.startsMember)

end MembersMarks

end Workflow.Script
