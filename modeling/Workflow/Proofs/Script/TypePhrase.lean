import Workflow.Proofs.Script.Phrase
import Workflow.Proofs.Script.TypeOperand

/-!
# Types as they are read

A type is read as the tokens of a type, in front of everything that may follow it.
-/

namespace Workflow.Script

variable {text front : String}

/-- The text begins with a character that is no part of an operator behind `<`. -/
def OpensList (text : String) : Prop :=
  ∃ c rest, text.toList = c :: rest ∧ c ∉ continuations "<".toList

theorem OpensList.append (h : OpensList front) (back : String) : OpensList (front ++ back) := by
  obtain ⟨c, rest, htext, hc⟩ := h
  exact ⟨c, rest ++ back.toList, by rw [String.toList_append, htext, List.cons_append], hc⟩

theorem OpensList.head? (h : OpensList text) :
    ∀ c ∈ text.toList.head?, c ∉ continuations "<".toList := by
  obtain ⟨d, rest, htext, hd⟩ := h
  rw [htext]
  rintro _ ⟨⟩
  exact hd

theorem PlainName.opensList (x : PlainName) : OpensList x.text := by
  refine ⟨x.first, x.rest, x.text_eq, fun hmem => ?_⟩
  have hall : ∀ c ∈ continuations "<".toList, (!isLetter c) = true :=
    List.all_eq_true.mp (by decide)
  simpa [x.first_isLetter] using hall _ hmem

theorem Ty.opensList (T : Ty) : OpensList T.text := by
  have hbracket : ∀ text ∈ ["(", "[", "\x7b", "-"], OpensList text := by
    intro text hmem
    simp only [List.mem_cons, List.not_mem_nil, or_false] at hmem
    rcases hmem with rfl | rfl | rfl | rfl <;> exact ⟨_, _, rfl, by decide⟩
  induction T with
  | name first members => exact first.opensList.append _
  | string s =>
    refine ⟨s.quote, _, String.toList_ofList, ?_⟩
    rcases s.isQuote with h | h <;> rw [h] <;> decide
  | number negative n =>
    have hdigit : OpensList n.text := by
      refine ⟨n.first, _, String.toList_ofList, fun hmem => ?_⟩
      have hall : ∀ c ∈ continuations "<".toList, (!c.isDigit) = true :=
        List.all_eq_true.mp (by decide)
      simpa [n.first_isDigit] using hall _ hmem
    cases negative with
    | false => simpa [Ty.text] using hdigit
    | true => exact (hbracket "-" (by decide)).append _
  | group T _ => exact ((hbracket "(" (by decide)).append _).append _
  | tuple items _ => exact ((hbracket "[" (by decide)).append _).append _
  | object fields _ => exact ((hbracket "\x7b" (by decide)).append _).append _
  | function parameters result _ _ =>
    exact (((hbracket "(" (by decide)).append _).append _).append _
  | applied T first others ih _ _ => exact ((ih.append _).append _).append _
  | array T ih => exact ih.append _
  | indexed T key ih => exact ((ih.append _).append _).append _
  | prefixed word T _ =>
    have hword : OpensList word.text := by
      cases word with
      | keyof => exact ⟨'k', _, rfl, by decide⟩
      | readonly => exact ⟨'r', _, rfl, by decide⟩
      | typeof => exact ⟨'t', _, rfl, by decide⟩
    exact (hword.append _).append _
  | joined operator left right ih _ => exact (((ih.append _).append _).append _).append _

/-- A list of types or of names with types up to the bracket that closes it. -/
theorem lexes_balanced (separator close : String) {items : List String}
    (hseparator : separator ∈ [",", ";"]) (hclose : close ∈ closers)
    (hitems : ∀ x ∈ items, Phrase x Delimits Balanced) :
    Lexes ((separator ++ " ").intercalate items ++ close) (fun _ => True)
      (IsClosed Balanced close) := by
  refine lexes_intercalate separator close hseparator hclose hitems .nil .nil ?_
    fun _ _ hus hvs => hus.append hvs
  intro t us vs ht hus hvs
  refine .of_mark ht ?_ (hus.append hvs)
  simp only [List.mem_cons, List.not_mem_nil, or_false] at hseparator
  rcases hseparator with rfl | rfl <;> decide

theorem phrase_balanced_texts {items : List Ty}
    (h : ∀ T ∈ items, Phrase T.text Delimits T.ReadAs) :
    ∀ x ∈ Ty.texts items, Phrase x Delimits Balanced := by
  rw [Ty.texts_eq_map]
  intro x hx
  obtain ⟨T, hT, rfl⟩ := List.mem_map.mp hx
  exact (h T hT).mono (fun _ => id) fun _ hts => hts.type.enclosed.balanced

theorem phrase_balanced_fieldTexts {fields : List (PlainName × Ty)}
    (h : ∀ p ∈ fields, Phrase p.2.text Delimits p.2.ReadAs) :
    ∀ x ∈ Ty.fieldTexts fields, Phrase x Delimits Balanced := by
  rw [Ty.fieldTexts_eq_map]
  intro x hx
  obtain ⟨p, hp, rfl⟩ := List.mem_map.mp hx
  refine (phrase_entry p.1 (h p hp)).mono (fun _ => id) ?_
  rintro _ ⟨name, colon, us, rfl, hname, hcolon, hus⟩
  exact .other hname.isNoBracket.1 hname.isNoBracket.2
    (.of_mark hcolon (by decide) hus.type.enclosed.balanced)

theorem phrase_minus : Phrase "-" (fun c => c.isDigit = true) (IsMarkToken "-") := by
  have hall : ∀ c ∈ continuations "-".toList, (!c.isDigit) = true :=
    List.all_eq_true.mp (by decide)
  refine (phrase_punctuator "-" (by decide) (by decide) (by decide)).mono (fun c hc => ⟨?_, ?_⟩)
    fun _ => id
  · intro hmem
    simpa [hc] using hall c hmem
  · exact fun hpoint => absurd hpoint (by decide)

theorem phrase_less : Phrase "<" (· ∉ continuations "<".toList) (IsMarkToken "<") :=
  (phrase_punctuator "<" (by decide) (by decide) (by decide)).mono
    (fun _ hc => ⟨hc, fun hpoint => absurd hpoint (by decide)⟩) fun _ => id

/-- A list in angle brackets is read as a list between its brackets. -/
theorem lexes_angle {first : String} {others : List String} (hopens : OpensList first)
    (hitems : ∀ x ∈ first :: others, Phrase x Delimits Enclosed) :
    Lexes ("<" ++ (", ".intercalate (first :: others) ++ ">")) (fun _ => True) fun ts =>
      ∃ less inner last, ts = less :: (inner ++ [last]) ∧ less.IsMark "<" ∧
        less.startsLine = false ∧ Enclosed inner ∧ last.IsMark ">" := by
  have hlist := lexes_intercalate "," ">" (by decide) (by decide) hitems Enclosed.nil
    Enclosed.nil (fun _ _ _ ht hus hvs => .mark ht (by decide) (hus.append hvs))
    fun _ _ => Enclosed.append
  refine phrase_less.plain.join hlist ?_ ?_
  · rw [intercalate_cons, String.append_assoc]
    exact (hopens.append _).head?
  · rintro _ _ ⟨less, rfl, hless, hline⟩ ⟨inner, last, rfl, hinner, hlast⟩
    exact ⟨less, inner, last, rfl, hless, hline, hinner, hlast⟩

theorem Ty.phrase_readAs_name (first : PlainName) (members : List PlainName) :
    Phrase (Ty.name first members).text Delimits (Ty.name first members).ReadAs := by
  refine ((phrase_name first).members members).mono (fun _ => id) ?_
  rintro _ ⟨_, rest, rfl, ⟨t, rfl, ht⟩, hrest, -⟩
  exact .of_operand rfl (.name ht hrest)

theorem Ty.phrase_readAs_string (s : StringLiteral) :
    Phrase (Ty.string s).text Delimits (Ty.string s).ReadAs := by
  refine (phrase_string s).mono (fun _ _ => trivial) ?_
  rintro _ ⟨t, rfl, hkind, -⟩
  exact .of_operand rfl (.literal (.inl hkind))

/-- A number with a minus in front of it is one operand of two tokens. -/
theorem Ty.phrase_readAs_number (negative : Bool) (n : NumberLiteral) :
    Phrase (Ty.number negative n).text Delimits (Ty.number negative n).ReadAs := by
  cases negative with
  | false =>
    rw [Ty.text, if_neg Bool.false_ne_true, String.empty_append]
    refine (phrase_number n).mono (fun _ => id) ?_
    rintro _ ⟨t, rfl, hkind, -⟩
    exact .of_operand rfl (.literal (.inr hkind))
  | true =>
    rw [Ty.text, if_pos rfl]
    refine phrase_minus.join (phrase_number n).plain ?_ ?_
    · simp [NumberLiteral.text, n.first_isDigit]
    · rintro _ _ ⟨minus, rfl, hminus, -⟩ ⟨t, rfl, hkind, -⟩
      exact .of_operand rfl (.negative hminus hkind)

theorem Ty.phrase_readAs_group {T : Ty} (h : Phrase T.text Delimits T.ReadAs) :
    Phrase (Ty.group T).text Delimits (Ty.group T).ReadAs := by
  refine (phrase_between "(" ")" (by decide) (lexes_closed ")" (by decide) h)).mono
    (fun _ _ => trivial) ?_
  rintro _ ⟨first, inner, last, rfl, hfirst, -, hinner, hlast⟩
  exact .of_operand rfl (.bracketed .round hfirst hlast hinner.type.enclosed.balanced)

theorem Ty.phrase_readAs_tuple {items : List Ty}
    (h : ∀ T ∈ items, Phrase T.text Delimits T.ReadAs) :
    Phrase (Ty.tuple items).text Delimits (Ty.tuple items).ReadAs := by
  refine (phrase_between "[" "]" (by decide) (lexes_balanced "," "]" (by decide) (by decide)
    (phrase_balanced_texts h))).mono (fun _ _ => trivial) ?_
  rintro _ ⟨first, inner, last, rfl, hfirst, -, hinner, hlast⟩
  exact .of_operand rfl (.bracketed .square hfirst hlast hinner)

theorem Ty.phrase_readAs_object {fields : List (PlainName × Ty)}
    (h : ∀ p ∈ fields, Phrase p.2.text Delimits p.2.ReadAs) :
    Phrase (Ty.object fields).text Delimits (Ty.object fields).ReadAs := by
  refine (phrase_between "\x7b" "\x7d" (by decide)
    (lexes_balanced ";" "\x7d" (by decide) (by decide)
    (phrase_balanced_fieldTexts h))).mono (fun _ _ => trivial) ?_
  rintro _ ⟨first, inner, last, rfl, hfirst, -, hinner, hlast⟩
  exact .of_operand rfl (.bracketed .curly hfirst hlast hinner)

/-- A function type is one operand: its parameters in brackets, an arrow and a whole type. -/
theorem Ty.phrase_readAs_function {parameters : List (PlainName × Ty)} {result : Ty}
    (hparameters : ∀ p ∈ parameters, Phrase p.2.text Delimits p.2.ReadAs)
    (h : Phrase result.text Delimits result.ReadAs) :
    Phrase (Ty.function parameters result).text Delimits
      (Ty.function parameters result).ReadAs := by
  have hlist := phrase_between "(" ")" (by decide) (lexes_balanced "," ")" (by decide)
    (by decide) (phrase_balanced_fieldTexts hparameters))
  have hresult := lexes_operator "=>" (by decide) h
  have hmark : ") => " = ")" ++ (" " ++ "=>" ++ " ") := rfl
  rw [show (Ty.function parameters result).text = "(" ++ ", ".intercalate
    (Ty.fieldTexts parameters) ++ ")" ++ (" " ++ "=>" ++ " " ++ result.text) by
      simp only [Ty.text, hmark, String.append_assoc]]
  refine hlist.join hresult (by simp) ?_
  rintro _ _ ⟨first, inner, last, rfl, hfirst, -, hinner, hlast⟩ ⟨arrow, us, rfl, harrow, hus⟩
  rw [List.cons_append, List.append_assoc, List.singleton_append]
  exact .of_operand rfl (.function hfirst hlast hinner harrow hus.type)

/-- The list of arguments stands between angle brackets behind the type they are given to. -/
theorem Ty.phrase_readAs_applied {T first : Ty} {others : List Ty}
    (h : Phrase T.text Delimits T.ReadAs) (hfirst : Phrase first.text Delimits first.ReadAs)
    (hothers : ∀ U ∈ others, Phrase U.text Delimits U.ReadAs) :
    Phrase (Ty.applied T first others).text Delimits (Ty.applied T first others).ReadAs := by
  have hitem : ∀ U : Ty, Phrase U.text Delimits U.ReadAs → Phrase U.text Delimits Enclosed :=
    fun U hU => hU.mono (fun _ => id) fun _ hts => hts.type.enclosed
  have hitems : ∀ x ∈ first.text :: Ty.texts others, Phrase x Delimits Enclosed := by
    rw [Ty.texts_eq_map]
    intro x hx
    rcases List.mem_cons.mp hx with rfl | hx
    · exact hitem first hfirst
    · obtain ⟨U, hU, rfl⟩ := List.mem_map.mp hx
      exact hitem U (hothers U hU)
  have hangle := lexes_angle first.opensList hitems
  rw [Ty.text, String.append_assoc, String.append_assoc]
  refine Phrase.mono (h.join hangle (by simp [Delimits, delimiters]) ?_) (fun _ _ => trivial)
    fun _ => id
  rintro us _ hus ⟨less, inner, last, rfl, hless, hline, hinner, hlast⟩
  exact hus.applied hless hline hlast hinner

theorem Ty.phrase_readAs_array {T : Ty} (h : Phrase T.text Delimits T.ReadAs) :
    Phrase (Ty.array T).text Delimits (Ty.array T).ReadAs := by
  have hclose : Lexes ("" ++ "]") (fun _ => True) (IsClosed (· = []) "]") := by
    refine (phrase_close "]" (by decide)).plain.mono ?_
    rintro _ ⟨last, rfl, hlast, -⟩
    exact ⟨[], last, rfl, rfl, hlast⟩
  have hpair := phrase_between "[" "]" (by decide) hclose
  refine Phrase.mono (h.join hpair.plain (by simp [Delimits, delimiters]) ?_)
    (fun _ _ => trivial) fun _ => id
  rintro us _ hus ⟨first, inner, last, rfl, hfirst, hline, rfl, hlast⟩
  exact hus.indexed (.inl rfl) hfirst hline hlast .nil

theorem Ty.phrase_readAs_indexed {T : Ty} (key : StringLiteral)
    (h : Phrase T.text Delimits T.ReadAs) :
    Phrase (Ty.indexed T key).text Delimits (Ty.indexed T key).ReadAs := by
  have hkey := phrase_between "[" "]" (by decide) (lexes_closed "]" (by decide)
    ((phrase_string key).mono (fun _ _ => trivial) fun _ => id))
  rw [show (Ty.indexed T key).text = T.text ++ ("[" ++ key.text ++ "]") by
    simp only [Ty.text, String.append_assoc]]
  refine Phrase.mono (h.join hkey.plain (by simp [Delimits, delimiters]) ?_) (fun _ _ => trivial)
    fun _ => id
  rintro us _ hus ⟨first, inner, last, rfl, hfirst, hline, ⟨t, rfl, hkind, -⟩, hlast⟩
  exact hus.indexed (.inr ⟨key, rfl⟩) hfirst hline hlast
    (.other (Token.isNoBracket_of_literal (.inl hkind)).1
      (Token.isNoBracket_of_literal (.inl hkind)).2 .nil)

theorem Ty.phrase_readAs_prefixed (word : TypePrefix) {T : Ty}
    (h : Phrase T.text Delimits T.ReadAs) :
    Phrase (Ty.prefixed word T).text Delimits (Ty.prefixed word T).ReadAs := by
  have hword := phrase_word word.text (by cases word <;> decide)
  rw [Ty.text, String.append_assoc]
  refine hword.join h.spaced (by simp) ?_
  rintro _ us ⟨t, rfl, ht⟩ hus
  exact hus.prefixed ht.1 (by rw [ht.2]; cases word <;> decide)

/-- The first operand of two types with an operator between them is that of the left one. -/
theorem Ty.phrase_readAs_joined (operator : TypeOperator) {left right : Ty}
    (hleft : Phrase left.text Delimits left.ReadAs)
    (hright : Phrase right.text Delimits right.ReadAs) :
    Phrase (Ty.joined operator left right).text Delimits
      (Ty.joined operator left right).ReadAs := by
  have hback := lexes_operator operator.text (by cases operator <;> decide) hright
  rw [show (Ty.joined operator left right).text =
    left.text ++ (" " ++ operator.text ++ " " ++ right.text) by
      simp only [Ty.text, String.append_assoc]]
  refine hleft.join hback (by simp [Delimits, delimiters]) ?_
  rintro us _ hus ⟨t, vs, rfl, ht, hvs⟩
  refine hus.join ?_ hvs
  cases operator with
  | union => exact .inl ht
  | intersection => exact .inr ht

/-- Every type is read as the tokens of a type, of which the first operand is known. -/
theorem Ty.phrase_readAs (T : Ty) : Phrase T.text Delimits T.ReadAs := by
  induction T with
  | name first members => exact Ty.phrase_readAs_name first members
  | string s => exact Ty.phrase_readAs_string s
  | number negative n => exact Ty.phrase_readAs_number negative n
  | group T ih => exact Ty.phrase_readAs_group ih
  | tuple items ih => exact Ty.phrase_readAs_tuple ih
  | object fields ih => exact Ty.phrase_readAs_object ih
  | function parameters result ihParameters ih => exact Ty.phrase_readAs_function ihParameters ih
  | applied T first others ih ihFirst ihOthers =>
    exact Ty.phrase_readAs_applied ih ihFirst ihOthers
  | array T ih => exact Ty.phrase_readAs_array ih
  | indexed T key ih => exact Ty.phrase_readAs_indexed key ih
  | prefixed word T ih => exact Ty.phrase_readAs_prefixed word ih
  | joined operator left right ih ih' => exact Ty.phrase_readAs_joined operator ih ih'

/-- Every type is read as the tokens of a type. -/
theorem Ty.phrase (T : Ty) : Phrase T.text Delimits (TypeTokens T.endsGrouped) :=
  T.phrase_readAs.mono (fun _ => id) fun _ hts => hts.type

end Workflow.Script
