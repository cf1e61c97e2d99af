import Workflow.Proofs.Script.ClassHeading
import Workflow.Proofs.Script.TypedStatement

/-!
# Classes with types as they are erased

Every class with types is erased to the class without them, unless the initial value of a field
has a product in it that is taken for a member. The text is read as the marked tokens of a
class, a run marks the tokens in this way, and what is kept of them is written.
-/

namespace Workflow.Script

open Erasure

variable {text : String} {stops : Char → Prop} {S : List Token → Prop}

/-- Tokens that are known to stand on one line. -/
theorem Lexes.onLine (h : Lexes text stops S) :
    Lexes text stops fun ts => S ts ∧ ∀ t ∈ ts, t.startsLine = false := by
  intro start
  obtain ⟨ts, hts, hline, hS⟩ := h start
  exact ⟨ts, hts, hline, hS, hline⟩

/-- A name may stand in a list in angle brackets. -/
theorem PlainName.phrase_enclosed (x : PlainName) : Phrase x.text Delimits Enclosed := by
  refine (phrase_name x).mono (fun _ hc => .inl hc) ?_
  rintro _ ⟨t, rfl, ht⟩
  exact .name ht .nil

/-- A type may stand in a list in angle brackets. -/
theorem Ty.phrase_enclosed (T : Ty) : Phrase T.text Delimits Enclosed :=
  T.phrase.mono (fun _ => id) fun _ hts => hts.enclosed

/-- The tokens of a list in angle brackets, if there is one, all removed. -/
def IsAngle (ms : List (Token × Bool)) : Prop := ∃ angle, ms = allRemoved angle ∧ AngleTokens angle

/-- A list in angle brackets is removed, if there is one. -/
theorem part_angled {α : Type} {f : α → String} (hopens : ∀ x, OpensList (f x))
    (hitems : ∀ x, Phrase (f x) Delimits Enclosed) (xs : List α) :
    ErasesPart (angled (xs.map f)) "" IsAngle := by
  cases xs with
  | nil => exact .absent ⟨[], rfl, .nil⟩
  | cons x xs =>
    have hlisted : ∀ text ∈ f x :: xs.map f, Phrase text Delimits Enclosed := by
      rw [← List.map_cons]
      intro text htext
      obtain ⟨y, -, rfl⟩ := List.mem_map.mp htext
      exact hitems y
    have hlist := (lexes_angle (hopens x) hlisted).remove
    rw [List.map_cons, angled, String.append_assoc]
    refine Erases.part (hlist.mono (fun _ => id) ?_) (fun _ _ => trivial)
      (by simp [Delimits, delimiters])
    rintro _ ⟨_, rfl, less, inner, last, rfl, hless, -, hinner, hlast⟩
    exact ⟨_, rfl, .list hless hinner hlast⟩

/-- The tokens of a name with a list in angle brackets. -/
def IsNamed (ms : List (Token × Bool)) : Prop :=
  ∃ name angle, ms = (name, true) :: allRemoved angle ∧ name.IsName ∧ AngleTokens angle

/-- A name is kept without the list in angle brackets behind it. -/
theorem erases_named (x : PlainName) {text : String} (htext : ErasesPart text "" IsAngle) :
    Erases (" " ++ x.text ++ text) (" " ++ x.text) Delimits IsNamed := by
  have hname : Erases (" " ++ x.text) (" " ++ x.text) Delimits fun ms =>
      ∃ ts, ms = allKept ts ∧ ∃ t, ts = [t] ∧ t.IsName :=
    (phrase_name x).keep.spaced.mono (fun _ hc => .inl hc) fun _ => id
  have hnamed : Erases (" " ++ x.text ++ text) (" " ++ x.text ++ "") Delimits IsNamed := by
    refine hname.joinPart htext ?_
    rintro _ _ ⟨_, rfl, name, rfl, hname⟩ ⟨angle, rfl, hangle⟩
    exact ⟨name, angle, rfl, hname, hangle⟩
  rwa [String.append_empty] at hnamed

/-- A base class is kept without its type arguments. -/
theorem part_base (base : Option (PlainName × List Ty)) :
    ErasesPart (baseSource base) (baseErased base) BaseMarks := by
  rcases base with - | ⟨x, Ts⟩
  · exact .absent .nil
  · have hword := (phrase_word "extends" (by decide)).spaced.keep
    have hnamed := erases_named x (part_angled Ty.opensList Ty.phrase_enclosed Ts)
    have hsplit : ∀ text,
        " extends " ++ x.text ++ text = " " ++ "extends" ++ (" " ++ x.text ++ text) := by
      intro text
      rw [show " extends " = " " ++ "extends" ++ " " from rfl]
      simp only [String.append_assoc]
    rw [baseSource, baseErased, hsplit,
      show " extends " ++ x.text = " " ++ "extends" ++ (" " ++ x.text) by
        simpa using hsplit ""]
    refine Erases.part (hword.join hnamed (by simp) ?_) (fun _ => id)
      (by simp [Delimits, delimiters])
    rintro _ _ ⟨_, rfl, word, rfl, hword⟩ ⟨name, angle, rfl, hname, hangle⟩
    exact .base hword hname hangle

/-- Types with commas between them are read as a list of types. -/
theorem phrase_typeList (T : Ty) (Ts : List Ty) :
    Phrase (", ".intercalate ((T :: Ts).map Ty.text)) Delimits TypeListTokens := by
  induction Ts generalizing T with
  | nil => simpa using T.phrase.mono (fun _ => id) fun _ => TypeListTokens.last
  | cons U Us ih =>
    have hrest : Lexes ("," ++ (" " ++ ", ".intercalate ((U :: Us).map Ty.text))) Delimits fun ts =>
        ∃ comma us, ts = comma :: us ∧ comma.IsMark "," ∧ TypeListTokens us := by
      refine (phrase_bracket "," (by decide)).plain.join (ih U).spaced (by simp) ?_
      rintro _ us ⟨comma, rfl, hcomma, -⟩ hus
      exact ⟨comma, us, rfl, hcomma, hus⟩
    rw [List.map_cons, List.map_cons, String.intercalate_cons_cons, ← List.map_cons,
      String.append_assoc, show ", " = "," ++ " " from rfl, String.append_assoc]
    refine T.phrase.join hrest (by simp [Delimits, delimiters]) ?_
    rintro ts _ hts ⟨comma, us, rfl, hcomma, hus⟩
    exact .cons hts hcomma hus

/-- The tokens of what a class implements, all removed. -/
def IsInterfaces (ms : List (Token × Bool)) : Prop :=
  ∃ listed, ms = allRemoved listed ∧ InterfaceTokens listed

/-- What a class implements is removed. -/
theorem part_interfaces (Ts : List Ty) : ErasesPart (interfaceList Ts) "" IsInterfaces := by
  cases Ts with
  | nil => exact .absent ⟨[], rfl, .nil⟩
  | cons T Ts =>
    have hlisted : Lexes (" " ++ "implements" ++ (" " ++ ", ".intercalate ((T :: Ts).map Ty.text)))
        Delimits InterfaceTokens := by
      refine (phrase_word "implements" (by decide)).spaced.join (phrase_typeList T Ts).spaced
        (by simp) ?_
      rintro _ us ⟨word, rfl, hword⟩ hus
      exact .list hword hus
    rw [interfaceList, show " implements " = " " ++ "implements" ++ " " from rfl,
      String.append_assoc]
    exact hlisted.remove.part (fun _ => id) (by simp [Delimits, delimiters])

/-- The tokens of an annotation, with the mark in front of it. -/
def IsMarked (grouped : Bool) (ts : List Token) : Prop :=
  ∃ mark colon us, ts = mark ++ colon :: us ∧ MarkTokens mark ∧ colon.IsMark ":" ∧
    TypeTokens grouped us

/-- The annotation of a field is read with the mark in front of it. -/
theorem FieldMark.lexes_annotated (mark : FieldMark) (T : Ty) :
    Lexes (mark.text ++ (": " ++ T.text)) Delimits (IsMarked T.endsGrouped) := by
  have hmarked : ∀ text ∈ ["?", "!"],
      Lexes (text ++ (": " ++ T.text)) Delimits (IsMarked T.endsGrouped) := by
    intro text htext
    refine (phrase_mark text htext).plain.join T.lexes_annotated (by simp) ?_
    rintro _ _ ⟨t, rfl, ht, -⟩ ⟨colon, us, rfl, hcolon, hus⟩
    refine ⟨[t], colon, us, rfl, .mark ?_, hcolon, hus⟩
    simp only [List.mem_cons, List.not_mem_nil, or_false] at htext
    rcases htext with rfl | rfl
    · exact .inl ht
    · exact .inr ht
  cases mark with
  | absent =>
    rw [FieldMark.text, String.empty_append]
    refine T.lexes_annotated.mono ?_
    rintro _ ⟨colon, us, rfl, hcolon, hus⟩
    exact ⟨[], colon, us, rfl, .nil, hcolon, hus⟩
  | optional => exact hmarked "?" (by decide)
  | definite => exact hmarked "!" (by decide)

/-- The tokens of the name of a field with its annotation, which is removed. -/
def IsDeclared (grouped : Bool) (ms : List (Token × Bool)) : Prop :=
  ∃ name ts, ms = (name, true) :: allRemoved ts ∧ name.IsName ∧ IsMarked grouped ts

/-- The name of a field is kept without its annotation. -/
theorem erases_declared (x : PlainName) (mark : FieldMark) (T : Ty) :
    Erases (" " ++ x.text ++ (mark.text ++ (": " ++ T.text))) (" " ++ x.text) Delimits
      (IsDeclared T.endsGrouped) := by
  have hhead : ∀ c ∈ (mark.text ++ (": " ++ T.text)).toList.head?, Delimits c ∨ c = '.' := by
    cases mark <;> simp [FieldMark.text, Delimits, delimiters]
  have hdeclared : Erases (" " ++ x.text ++ (mark.text ++ (": " ++ T.text))) (" " ++ x.text ++ "")
      Delimits (IsDeclared T.endsGrouped) := by
    refine (phrase_name x).spaced.keep.join (mark.lexes_annotated T).remove hhead ?_
    rintro _ _ ⟨_, rfl, name, rfl, hname⟩ ⟨ts, rfl, hts⟩
    exact ⟨name, ts, rfl, hname, hts⟩
  rwa [String.append_empty] at hdeclared

/-- The semicolon behind a member is kept. -/
theorem erases_memberEnd :
    Erases ";" ";" Delimits fun ms => ∃ t, ms = [(t, true)] ∧ t.IsMark ";" := by
  refine (phrase_bracket ";" (by decide)).plain.keep.mono (fun _ _ => trivial) ?_
  rintro _ ⟨_, rfl, t, rfl, ht, -⟩
  exact ⟨t, rfl, ht⟩

namespace MemberBody

theorem erases_field (x : PlainName) (mark : FieldMark) (type : Ty) :
    Erases (" " ++ source (.field x mark type)) (" " ++ erased (.field x mark type)) Delimits
      MemberMarks := by
  rw [show " " ++ source (.field x mark type) =
    " " ++ x.text ++ (mark.text ++ (": " ++ type.text)) ++ ";" by
      simp only [source, String.append_assoc],
    show " " ++ erased (.field x mark type) = " " ++ x.text ++ ";" by
      simp only [erased, String.append_assoc]]
  refine (erases_declared x mark type).join erases_memberEnd (by simp [Delimits, delimiters]) ?_
  rintro _ _ ⟨name, _, rfl, hname, mark, colon, us, rfl, hmark, hcolon, hus⟩
    ⟨semicolon, rfl, hsemicolon⟩
  exact .field hname hmark hcolon hus hsemicolon

/-- A field with an initial value that is not misread keeps the value. -/
theorem erases_initialized (x : PlainName) (mark : FieldMark) (type : Ty) (value : Expr)
    (hread : ¬ Misread value.outline) :
    Erases (" " ++ source (.initialized x mark type value))
      (" " ++ erased (.initialized x mark type value)) Delimits MemberMarks := by
  have hequals : " = " = " " ++ "=" ++ " " := rfl
  have hvalue := (lexes_operator "=" (by decide) value.takesMembers.phrase).onLine.keep
  have hvalued : Erases
      (" " ++ x.text ++ (mark.text ++ (": " ++ type.text)) ++ (" " ++ "=" ++ " " ++ value.text))
      (" " ++ x.text ++ (" " ++ "=" ++ " " ++ value.text)) Delimits fun ms =>
        ∃ name ts equals us, ms =
          (name, true) :: (allRemoved ts ++ (equals, true) :: allKept us) ∧
          name.IsName ∧ IsMarked type.endsGrouped ts ∧ equals.IsMark "=" ∧
          ExprTokens value.outline us ∧ ∀ t ∈ us, t.startsLine = false := by
    refine (erases_declared x mark type).join hvalue (by simp [Delimits, delimiters]) ?_
    rintro _ _ ⟨name, ts, rfl, hname, hts⟩ ⟨_, rfl, ⟨equals, us, rfl, hequals, hus⟩, hline⟩
    exact ⟨name, ts, equals, us, rfl, hname, hts, hequals, hus, (List.forall_mem_cons.mp hline).2⟩
  rw [show " " ++ source (.initialized x mark type value) =
    " " ++ x.text ++ (mark.text ++ (": " ++ type.text)) ++
      (" " ++ "=" ++ " " ++ value.text) ++ ";" by
      simp only [source, hequals, String.append_assoc],
    show " " ++ erased (.initialized x mark type value) =
      " " ++ x.text ++ (" " ++ "=" ++ " " ++ value.text) ++ ";" by
      simp only [erased, hequals, String.append_assoc]]
  refine hvalued.join erases_memberEnd (by simp [Delimits, delimiters]) ?_
  rintro _ _ ⟨name, _, equals, us, rfl, hname, ⟨mark, colon, ts, rfl, hmark, hcolon, hts⟩,
    hequals, hus, hline⟩ ⟨semicolon, rfl, hsemicolon⟩
  have hmarks := MemberMarks.initialized hname hmark hcolon hts hequals hus.inert hus.outlined
    hread hline hsemicolon
  simpa using hmarks

/-- The tokens of the name of a method and of its type parameters, up to the bracket behind them. -/
def IsMethodHeading (ms : List (Token × Bool)) : Prop :=
  ∃ name angle first, ms = (name, true) :: (allRemoved angle ++ [(first, true)]) ∧ name.IsName ∧
    AngleTokens angle ∧ first.IsMark "("

/-- The name of a method is kept without its type parameters. -/
theorem erases_methodHeading (x : PlainName) (typeParameters : List PlainName) :
    Erases (" " ++ x.text ++ angled (typeParameters.map PlainName.text) ++ "(")
      (" " ++ x.text ++ "(") (fun _ => True) IsMethodHeading := by
  have hnamed :=
    erases_named x (part_angled PlainName.opensList PlainName.phrase_enclosed typeParameters)
  refine hnamed.join (phrase_bracket "(" (by decide)).plain.keep (by simp [Delimits, delimiters]) ?_
  rintro _ _ ⟨name, angle, rfl, hname, hangle⟩ ⟨_, rfl, first, rfl, hfirst, -⟩
  exact ⟨name, angle, first, rfl, hname, hangle, hfirst⟩

/-- A method is a heading, a signature and a body, one behind the other. -/
theorem erases_method (x : PlainName) (typeParameters : List PlainName)
    (parameters : List Parameter) (result : Ty) (value : Expr) :
    Erases (" " ++ source (.method x typeParameters parameters result value))
      (" " ++ erased (.method x typeParameters parameters result value)) Delimits MemberMarks := by
  have hreturn : " \x7b return " = " " ++ "\x7b" ++ (" " ++ "return" ++ " ") := rfl
  have hclose : "; \x7d" = ";" ++ (" " ++ "\x7d") := rfl
  have hsignature := erases_signature parameters result (lexes_body value)
    (by simp [bodyText, Delimits, delimiters])
  rw [show " " ++ source (.method x typeParameters parameters result value) =
    " " ++ x.text ++ angled (typeParameters.map PlainName.text) ++ "(" ++
      (", ".intercalate (parameters.map Parameter.source) ++ ")" ++
        (": " ++ result.text ++ bodyText value)) by
      simp only [source, parameterList, bodyText, hreturn, hclose, String.append_assoc],
    show " " ++ erased (.method x typeParameters parameters result value) =
      " " ++ x.text ++ "(" ++
        (", ".intercalate (parameters.map Parameter.erased) ++ ")" ++ ("" ++ bodyText value)) by
      simp only [erased, parameterList, bodyText, hreturn, hclose, String.append_assoc,
        String.empty_append]]
  refine ((erases_methodHeading x typeParameters).join hsignature (by simp) ?_).mono
    (fun _ _ => trivial) fun _ => id
  rintro _ _ ⟨name, angle, first, rfl, hname, hangle, hfirst⟩
    ⟨inner, last, colon, ts, _, rfl, hinner, hlast, hcolon, hts, block, result, us, semicolon,
      close, rfl, hblock, hresult, hus, hsemicolon, hclose⟩
  have hmarks := MemberMarks.method hname hangle hfirst hinner hlast hcolon hts hblock hresult hus
    hsemicolon hclose
  simpa [allKept] using hmarks

/-- A member without its modifiers is read as marked tokens of which the kept ones are written as
the member without types. -/
theorem erases (b : MemberBody) (hread : ∀ e ∈ b.initializer?, ¬ Misread e.outline) :
    Erases (" " ++ b.source) (" " ++ b.erased) Delimits MemberMarks := by
  cases b with
  | field x mark type => exact erases_field x mark type
  | initialized x mark type value => exact erases_initialized x mark type value (hread value rfl)
  | method x typeParameters parameters result value =>
    exact erases_method x typeParameters parameters result value

end MemberBody

/-- A member is erased as what stands behind its modifiers, of which `static` is kept. -/
theorem ClassMember.erases (m : ClassMember)
    (hread : ∀ e ∈ m.body.initializer?, ¬ Misread e.outline) :
    Erases (" " ++ m.source) (" " ++ m.erased) Delimits MemberMarks := by
  obtain ⟨modifiers, body⟩ := m
  induction modifiers with
  | nil => simpa [source, erased] using body.erases hread
  | cons w ws ih =>
    have hword := (phrase_word w.text (by cases w <;> decide)).spaced
    have hsplit : " " ++ source ⟨w :: ws, body⟩ = " " ++ w.text ++ (" " ++ source ⟨ws, body⟩) := by
      simp [source, String.append_assoc]
    rw [hsplit]
    cases hkept : w.isKept with
    | true =>
      rw [show " " ++ erased ⟨w :: ws, body⟩ = " " ++ w.text ++ (" " ++ erased ⟨ws, body⟩) by
        simp [erased, hkept, String.append_assoc]]
      refine hword.keep.join (ih hread) (by simp) ?_
      rintro _ ms ⟨_, rfl, t, rfl, ht⟩ hms
      have hstatic : w.text = "static" := by
        revert hkept
        cases w <;> decide
      exact .static (hstatic ▸ ht) hms
    | false =>
      rw [show " " ++ erased ⟨w :: ws, body⟩ = "" ++ (" " ++ erased ⟨ws, body⟩) by
        simp [erased, hkept]]
      refine hword.remove.join (ih hread) (by simp) ?_
      rintro _ ms ⟨_, rfl, t, rfl, ht⟩ hms
      have htype : w.text ∈ typeModifiers := by
        revert hkept
        cases w <;> decide
      exact .modifier ht.1 (ht.2 ▸ htype) hms

/-- Members are erased one by one. -/
theorem part_members (members : List ClassMember)
    (hread : ∀ e ∈ members.filterMap fun m => m.body.initializer?, ¬ Misread e.outline) :
    ErasesPart (String.join (members.map fun m => " " ++ m.source))
      (String.join (members.map fun m => " " ++ m.erased)) MembersMarks := by
  induction members with
  | nil => exact .absent .nil
  | cons m members ih =>
    have hmember := m.erases fun e he =>
      hread e (List.mem_filterMap.mpr ⟨m, List.mem_cons_self, he⟩)
    have hmembers := ih fun e he => hread e (by
      obtain ⟨n, hn, hvalue⟩ := List.mem_filterMap.mp he
      exact List.mem_filterMap.mpr ⟨n, List.mem_cons_of_mem m hn, hvalue⟩)
    have hjoined := hmember.joinPart hmembers fun _ _ => MembersMarks.cons
    simp only [List.map_cons, String.join_cons]
    exact hjoined.part (fun _ => id) (by simp [Delimits, delimiters])

/-- The heading of a class. -/
theorem TypedClass.erases_heading (c : TypedClass) :
    Erases ("class " ++ c.name.text ++ angled (c.typeParameters.map PlainName.text) ++
        baseSource c.base ++ interfaceList c.interfaces)
      ("class " ++ c.name.text ++ baseErased c.base) Delimits HeadingMarks := by
  have hclass : "class " = "class" ++ " " := rfl
  have hnamed : Erases
      ("class" ++ (" " ++ c.name.text ++ angled (c.typeParameters.map PlainName.text)))
      ("class" ++ (" " ++ c.name.text)) Delimits fun ms => ∃ word name angle,
        ms = (word, true) :: (name, true) :: allRemoved angle ∧ word.IsWord "class" ∧ name.IsName ∧
          AngleTokens angle := by
    refine (phrase_word "class" (by decide)).plain.keep.join (erases_named c.name
      (part_angled PlainName.opensList PlainName.phrase_enclosed c.typeParameters)) (by simp) ?_
    rintro _ _ ⟨_, rfl, word, rfl, hword⟩ ⟨name, angle, rfl, hname, hangle⟩
    exact ⟨word, name, angle, rfl, hword, hname, hangle⟩
  have hbased := hnamed.joinPart (R := fun ms => ∃ word name angle bs,
      ms = (word, true) :: (name, true) :: (allRemoved angle ++ bs) ∧ word.IsWord "class" ∧
        name.IsName ∧ AngleTokens angle ∧ BaseMarks bs) (part_base c.base) <| by
    rintro _ bs ⟨word, name, angle, rfl, hword, hname, hangle⟩ hbs
    exact ⟨word, name, angle, bs, rfl, hword, hname, hangle, hbs⟩
  have hheading := hbased.joinPart (R := HeadingMarks) (part_interfaces c.interfaces) <| by
    rintro _ _ ⟨word, name, angle, bs, rfl, hword, hname, hangle, hbs⟩ ⟨listed, rfl, hlisted⟩
    simpa using HeadingMarks.mk hword hname hangle hbs hlisted
  simpa only [hclass, String.append_assoc, String.append_empty] using hheading

/-- Every class is read as marked tokens of which the kept ones are written as the class without
types. -/
theorem TypedClass.erases (c : TypedClass) (hread : ∀ e ∈ c.initializers, ¬ Misread e.outline) :
    Erases c.source c.erased (fun _ => True) ClassMarks := by
  have hblock := (phrase_bracket "\x7b" (by decide)).spaced.keep
  have hclose := (phrase_bracket "\x7d" (by decide)).spaced.keep
  have hopened := c.erases_heading.join (R := fun ms => ∃ hs block,
      ms = hs ++ [(block, true)] ∧ HeadingMarks hs ∧ block.IsMark "\x7b") hblock
    (by simp [Delimits, delimiters]) <| by
    rintro hs _ hhs ⟨_, rfl, block, rfl, hblock, -⟩
    exact ⟨hs, block, rfl, hhs, hblock⟩
  have hmembers := (hopened.mono (fun _ _ => trivial) fun _ => id).joinPart (R := fun ms =>
      ∃ hs block ns, ms = hs ++ (block, true) :: ns ∧ HeadingMarks hs ∧ block.IsMark "\x7b" ∧
        MembersMarks ns) (part_members c.members hread) <| by
    rintro _ ns ⟨hs, block, rfl, hhs, hblock⟩ hns
    exact ⟨hs, block, ns, by simp, hhs, hblock, hns⟩
  refine hmembers.join hclose (by simp [Delimits, delimiters]) ?_
  rintro _ _ ⟨hs, block, ns, rfl, hhs, hblock, hns⟩ ⟨_, rfl, close, rfl, hclose, -⟩
  simpa [allKept] using ClassMarks.mk hhs hblock hns hclose

/-- A class with types is erased to the class without modifiers, type parameters, interfaces,
marks, annotations and result types. -/
theorem eraseTypes_typedClass (c : TypedClass) (hread : ∀ e ∈ c.initializers, ¬ Misread e.outline) :
    eraseTypes c.source = .ok c.erased := by
  have hstart : ¬ ['#', '!'] <+: c.source.toList := by
    simp only [TypedClass.source, String.append_assoc]
    exact starts_no_mark (by decide) _
  obtain ⟨table, s, -, -, htable, hrun, -, -, -, hemit⟩ := (c.erases hread).exists_run hstart
    (fun _ hms => hms.balanced) fun _ _ _ htable hms hlast => ⟨_, _, hms.leads htable hlast⟩
  simp only [eraseTypes, htable, hrun, hemit]

/-- A class with a field that starts with the given value. -/
def fieldClass (value : Expr) : TypedClass where
  name := .ofText "C" (by decide)
  typeParameters := []
  base := none
  interfaces := []
  members := [⟨[], .initialized (.ofText "x" (by decide)) .absent
    (.name (.ofText "number" (by decide)) []) value⟩]

/-- The product of `a` and `b`. -/
def someProduct : Expr :=
  .binary .multiply (.name (.ofText "a" (by decide))) (.name (.ofText "b" (by decide)))

theorem eraseTypes_typedClass_product :
    (∀ e ∈ (fieldClass someProduct).initializers, ¬ Misread e.outline) ∧
      (fieldClass someProduct).source = "class C \x7b x: number = a * b; \x7d" ∧
      eraseTypes (fieldClass someProduct).source = .ok "class C \x7b x = a * b; \x7d" := by
  have hread : ∀ e ∈ (fieldClass someProduct).initializers, ¬ Misread e.outline := by decide +kernel
  refine ⟨hread, by decide +kernel, ?_⟩
  rw [eraseTypes_typedClass (fieldClass someProduct) hread]
  decide +kernel

/-- A conditional expression with a product between its marks. -/
def chosenProduct : Expr :=
  .conditional (.name (.ofText "c" (by decide))) someProduct (.name (.ofText "d" (by decide)))

/-- The second factor of the product is taken for a member, and what stands behind the colon for
its type. -/
theorem initializer_cut_product :
    (fieldClass chosenProduct).source = "class C \x7b x: number = c ? a * b : d; \x7d" ∧
      (fieldClass chosenProduct).erased = "class C \x7b x = c ? a * b : d; \x7d" ∧
      eraseTypes (fieldClass chosenProduct).source = .ok "class C \x7b x = c ? a * b; \x7d" ∧
      ((tokenize "class C \x7b x = c ? a * b; \x7d").map
        (·.tokens.toList.map Token.spelling)).toOption ≠
        ((tokenize (fieldClass chosenProduct).erased).map
          (·.tokens.toList.map Token.spelling)).toOption := by
  decide +kernel

end Workflow.Script
