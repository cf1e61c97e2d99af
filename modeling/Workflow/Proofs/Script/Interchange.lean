import Workflow.Proofs.Script.Spans
import Workflow.Proofs.Script.Lookahead

/-!
# Names that are told apart by no test

Reading and erasing compare a member name with some words only: those behind which a slash starts a
regular expression, those that end no operand, those that name no method, and a few more. Two tables
that differ in one member name are looked at here side by side. Where the name stands in the same
ones of these lists, every search for an end fails in both tables, or has the same answer in both.
-/

namespace Workflow.Script

/-- The lists of words by which member names are told apart. -/
def memberTests : List (List String) := [
  wordsBeforeRegex, Erasure.nonOperands, Erasure.nonMethods, Erasure.memberPrefixes,
  ["function"], ["catch"], ["new"], ["async"], ["implements"], ["import"], ["export"],
  ["interface"], ["type"], ["declare"], ["abstract"], ["enum"], ["const"]]

/-- Two names stand in the same ones of the lists. -/
def Interchangeable (name other : String) : Prop :=
  ∀ words ∈ memberTests, words.contains name = words.contains other

instance (name other : String) : Decidable (Interchangeable name other) :=
  inferInstanceAs (Decidable (∀ words ∈ memberTests, _))

/-- Names that stand in none of the lists are interchangeable. -/
theorem interchangeable_of_notMem {name other : String}
    (hname : ∀ words ∈ memberTests, name ∉ words) (hother : ∀ words ∈ memberTests, other ∉ words) :
    Interchangeable name other := by
  intro words hwords
  rw [Bool.eq_iff_iff, List.contains_iff_mem, List.contains_iff_mem]
  exact iff_of_false (hname words hwords) (hother words hwords)

/-- What a token is apart from its text and its place. -/
def Token.outline (t : Token) : TokenKind × String := (t.kind, t.leading)

/-- The text starts like a name. -/
def StartsName (text : String) : Prop := text.toList.head?.any isNameStart = true

/-- Two tables differ in a member name only, which stands behind the point at `p`. -/
structure TokenTable.Renamed (table table' : TokenTable) (p : Nat) : Prop where
  outline : table'.tokens.toList.map Token.outline = table.tokens.toList.map Token.outline
  partner : table'.partner = table.partner
  text : ∀ k, k ≠ p + 1 → table'.text k = table.text k
  point : table.kind p = .punctuator ∧ table.text p ∈ [".", "?."]
  name : table.kind (p + 1) = .word
  starts : StartsName (table.text (p + 1)) ∧ StartsName (table'.text (p + 1))
  interchangeable : Interchangeable (table.text (p + 1)) (table'.text (p + 1))
  /-- The point pairs with no token. -/
  unpaired : ∀ k : Nat, table.partner[k]? ≠ some (some p)
  inside : p + 1 < table.finish

/-- Both computations fail, or both have results, which are related. -/
inductive BothGive {α β : Type} (R : α → β → Prop) : Except Fault α → Except Fault β → Prop
  | fail {f g : Fault} : BothGive R (.error f) (.error g)
  | result {a : α} {b : β} : R a b → BothGive R (.ok a) (.ok b)

namespace BothGive

variable {α β α' β' : Type} {R : α → β → Prop} {S : α' → β' → Prop} {x : Except Fault α}
  {y : Except Fault β} {f : α → Except Fault α'} {g : β → Except Fault β'} {a : α}

/-- What goes on with related results has related results. -/
theorem bind (h : BothGive R x y) (hnext : ∀ a b, R a b → BothGive S (f a) (g b)) :
    BothGive S (x >>= f) (y >>= g) := by
  cases h with
  | fail => exact .fail
  | result hab => exact hnext _ _ hab

/-- If one of the computations has a result, so has the other one. -/
theorem exists_of_ok (h : BothGive R x y) (hx : x = .ok a) : ∃ b, y = .ok b ∧ R a b := by
  subst hx
  cases h with
  | result hab => exact ⟨_, rfl, hab⟩

end BothGive

/-- Two ends are the same, and no member of the point stands there. -/
def SameEnd (p : Nat) {q q' : Nat → Prop} (a : { e : Nat // q e }) (b : { e : Nat // q' e }) :
    Prop := a.val = b.val ∧ a.val ≠ p + 1

/-- Computations that go on behind the same end need to match only where no member of the point
stands. -/
theorem BothGive.bindEnd {α β : Type} {R : α → β → Prop} {p : Nat} {q q' : Nat → Prop}
    {x : Except Fault { e : Nat // q e }} {y : Except Fault { e : Nat // q' e }}
    {f : { e : Nat // q e } → Except Fault α} {g : { e : Nat // q' e } → Except Fault β}
    (h : BothGive (SameEnd p) x y)
    (hnext : ∀ e he he', e ≠ p + 1 → BothGive R (f ⟨e, he⟩) (g ⟨e, he'⟩)) :
    BothGive R (x >>= f) (y >>= g) := by
  refine h.bind ?_
  rintro ⟨e, he⟩ ⟨e', he'⟩ ⟨heq, hne⟩
  obtain rfl : e = e' := heq
  exact hnext e he he' hne

namespace TokenTable

/-- Whether a token is a given word or mark can be told by its kind and its text. -/
theorem is_eq (table : TokenTable) (k : Nat) (text : String) : table.is k text =
    ((table.kind k == .word || table.kind k == .punctuator) && table.text k == text) := by
  unfold TokenTable.is TokenTable.kind TokenTable.text
  cases table.tokens[k]? with
  | none => simp
  | some t => simp [Token.is]

namespace Renamed

variable {table table' : TokenTable} {p k : Nat} {text : String} {words : List String}
  (h : table.Renamed table' p)
include h

/-! ## What is seen of a single token -/

/-- Of each token, all but the text is the same in both tables. -/
theorem getElem?_outline (k : Nat) :
    table'.tokens[k]?.map Token.outline = table.tokens[k]?.map Token.outline := by
  simpa using congrArg (·[k]?) h.outline

/-- Both tables have the same number of tokens. -/
theorem size : table'.tokens.size = table.tokens.size := by
  simpa using congrArg List.length h.outline

theorem finish : table'.finish = table.finish := by
  rw [TokenTable.finish, TokenTable.finish, h.size]

/-- Each token is of the same kind in both tables. -/
theorem kind (k : Nat) : table'.kind k = table.kind k := by
  have hk := congrArg (Option.map Prod.fst) (h.getElem?_outline k)
  simp only [Option.map_map] at hk
  exact congrArg (Option.getD · TokenKind.finish) hk

/-- What stands in front of a token is the same in both tables. -/
theorem leading (k : Nat) (q : String → Bool) :
    (table'.tokens[k]?.any fun t => q t.leading) = table.tokens[k]?.any fun t => q t.leading := by
  have hk := congrArg (Option.any fun o => q o.2) (h.getElem?_outline k)
  rw [Option.any_map, Option.any_map] at hk
  exact hk

theorem startsLine (k : Nat) : table'.startsLine k = table.startsLine k :=
  h.leading k fun leading => leading.toList.contains '\n'

theorem isWord (k : Nat) : table'.isWord k = table.isWord k := by
  rw [TokenTable.isWord, TokenTable.isWord, h.kind]

/-- Each group closes at the same place in both tables. -/
theorem closeOf (k : Nat) : table'.closeOf k = table.closeOf k := by
  rw [TokenTable.closeOf, TokenTable.closeOf, h.partner]

/-- Away from the name each token is the same mark or word. -/
theorem is_of_ne (hk : k ≠ p + 1) (text : String) : table'.is k text = table.is k text := by
  rw [is_eq, is_eq, h.kind, h.text k hk]

theorem isOneOf_of_ne (hk : k ≠ p + 1) (words : List String) :
    table'.isOneOf k words = table.isOneOf k words := by
  rw [isOneOf, isOneOf, h.text k hk]

/-- A mark is no name. -/
theorem is_mark (htext : text.toList.head?.any isNameStart = false) (k : Nat) :
    table'.is k text = table.is k text := by
  by_cases hk : k = p + 1
  · have hother : ∀ name, StartsName name → (name == text) = false := by
      rintro name hname
      rw [beq_eq_false_iff_ne]
      rintro rfl
      rw [StartsName, htext] at hname
      cases hname
    rw [is_eq, is_eq, hk, hother _ h.starts.1, hother _ h.starts.2, Bool.and_false, Bool.and_false]
  · exact h.is_of_ne hk text

/-- The words of a list tell the names from no other ones. -/
theorem isOneOf_test (hwords : words ∈ memberTests) (k : Nat) :
    table'.isOneOf k words = table.isOneOf k words := by
  by_cases hk : k = p + 1
  · rw [hk]
    exact (h.interchangeable words hwords).symm
  · exact h.isOneOf_of_ne hk words

/-- A word that alone makes up one of the lists is told in both tables alike. -/
theorem is_test (hword : [text] ∈ memberTests) (k : Nat) : table'.is k text = table.is k text := by
  have hcontains := h.isOneOf_test hword k
  simp only [isOneOf, List.contains_cons, List.contains_nil, Bool.or_false] at hcontains
  rw [is_eq, is_eq, h.kind, hcontains]

/-- A mark has the same text in both tables. -/
theorem text_of_mark (hk : table.kind k = .punctuator) : table'.text k = table.text k := by
  refine h.text k ?_
  rintro rfl
  cases hk.symm.trans h.name

/-- A type may start at a place in both tables or in none. -/
theorem startsType (k : Nat) : table'.startsType k = table.startsType k := by
  unfold TokenTable.startsType
  rw [h.kind]
  split
  · rfl
  · rfl
  · rfl
  · rfl
  · rename_i hk
    rw [h.text_of_mark hk]
  · rfl

/-! ## Where the name cannot stand -/

/-- Behind a token that is no point stands no member. -/
theorem succ_ne (hk : table.kind k = .punctuator → table.text k ∉ [".", "?."]) : k + 1 ≠ p + 1 := by
  intro heq
  obtain rfl := Nat.succ.inj heq
  exact hk h.point.1 h.point.2

theorem succ_ne_of_kind (hk : table.kind k ≠ .punctuator) : k + 1 ≠ p + 1 :=
  h.succ_ne fun hmark => absurd hmark hk

theorem succ_ne_of_text (hk : table.text k = text) (htext : text ∉ [".", "?."]) : k + 1 ≠ p + 1 :=
  h.succ_ne fun _ => hk ▸ htext

/-- Behind a mark or word that is no point stands no member. -/
theorem succ_ne_of_is (hk : table.is k text = true) (htext : text ∉ [".", "?."]) : k + 1 ≠ p + 1 :=
  h.succ_ne_of_text (text_of_is hk) htext

theorem succ_ne_of_isWord (hk : table.isWord k = true) : k + 1 ≠ p + 1 :=
  h.succ_ne_of_kind fun hmark => by simp [TokenTable.isWord, hmark] at hk

/-- Behind a group stands no member of a point. -/
theorem closeOf_succ_ne (hk : table.kind k = .punctuator → table.text k ∉ [".", "?."]) :
    table.closeOf k + 1 ≠ p + 1 := by
  have hne := h.succ_ne hk
  unfold TokenTable.closeOf
  split
  · rename_i j hj
    have hp : j ≠ p := fun heq => h.unpaired k (heq ▸ hj)
    omega
  · exact hne

/-- Behind a group that no point opens stands no member. -/
theorem closeOf_succ_ne_of_text (hk : table.text k = text) (htext : text ∉ [".", "?."]) :
    table.closeOf k + 1 ≠ p + 1 := h.closeOf_succ_ne fun _ => hk ▸ htext

theorem closeOf_succ_ne_of_is (hk : table.is k text = true) (htext : text ∉ [".", "?."]) :
    table.closeOf k + 1 ≠ p + 1 := h.closeOf_succ_ne_of_text (text_of_is hk) htext

/-! ## Where types end -/

/-- A mark that is required stands in both tables or in none. -/
theorem expect (htext : text.toList.head?.any isNameStart = false) (hpoint : text ∉ [".", "?."]) :
    BothGive (SameEnd p) (table.expect k text) (table'.expect k text) := by
  unfold TokenTable.expect
  rw [h.is_mark htext]
  split
  case isTrue hk => exact .result ⟨rfl, h.succ_ne_of_is hk hpoint⟩
  case isFalse => exact .fail

/-- The search for a closing angle bracket passes over words. -/
theorem angleEndFrom (first depth m : Nat) : BothGive (SameEnd p)
    (table.angleEndFrom first depth m) (table'.angleEndFrom first depth m) := by
  induction hn : table.tokens.size - m using Nat.strongRecOn generalizing depth m with
  | _ n ih =>
    by_cases hfinish : table.kind m = .finish
    · rw [angleEndFrom_finish hfinish, angleEndFrom_finish ((h.kind m).trans hfinish)]
      exact .fail
    have hsize := table.lt_size_of_kind_ne hfinish
    have hnext : ∀ depth, BothGive (SameEnd p) (table.angleEndFrom first depth (m + 1))
        (table'.angleEndFrom first depth (m + 1)) := fun depth => ih _ (by omega) depth _ rfl
    by_cases hmark : table.kind m = .punctuator
    · have hgroup : BothGive (SameEnd p) (table.angleEndFrom first depth (table.closeOf m + 1))
          (table'.angleEndFrom first depth (table'.closeOf m + 1)) := by
        have := table.le_closeOf m
        rw [h.closeOf]
        exact ih _ (by omega) depth _ rfl
      rw [angleEndFrom_mark hmark, angleEndFrom_mark ((h.kind m).trans hmark), h.text_of_mark hmark]
      split
      case h_1 | h_10 => exact (hnext _).bind fun _ _ he => .result he
      case h_2 htext =>
        split
        · exact .result ⟨rfl, h.succ_ne_of_text htext (by decide)⟩
        · exact (hnext _).bind fun _ _ he => .result he
      case h_3 | h_4 | h_5 => exact hgroup.bind fun _ _ he => .result he
      case h_6 | h_7 | h_8 | h_9 => exact .fail
    · have hmark' : table'.kind m ≠ .punctuator := h.kind m ▸ hmark
      have hfinish' : table'.kind m ≠ .finish := h.kind m ▸ hfinish
      rw [angleEndFrom_eq hmark hfinish, angleEndFrom_eq hmark' hfinish']
      exact (hnext _).bind fun _ _ he => .result he

/-- A list in angle brackets ends at the same place in both tables. -/
theorem angleEnd (k : Nat) : BothGive (SameEnd p) (table.angleEnd k) (table'.angleEnd k) :=
  h.angleEndFrom k 0 k

/-- The prefixes of an operand end at the same place in both tables. -/
theorem afterTypePrefixes (hk : k ≠ p + 1) :
    SameEnd p (table.afterTypePrefixes k) (table'.afterTypePrefixes k) := by
  fun_induction TokenTable.afterTypePrefixes table k with
  | case1 k hprefix m hm heq ih =>
    obtain ⟨hword, hlisted, hstarts, hangle⟩ := hprefix
    have hrest := ih (h.succ_ne_of_isWord hword)
    rw [heq] at hrest
    rw [SameEnd, afterTypePrefixes_eq (by rwa [h.isWord]) (by rwa [h.isOneOf_of_ne hk])
      (by rwa [h.startsType]) (by rw [h.is_mark (by decide)]; exact Bool.not_eq_true _ ▸ hangle)]
    exact hrest
  | case2 k hprefix =>
    have hprefix' : ¬ (table'.isWord k ∧ table'.isOneOf k typePrefixes ∧ table'.startsType (k + 1) ∧
        ¬ table'.is (k + 1) "<") := by
      rwa [h.isWord, h.isOneOf_of_ne hk, h.startsType, h.is_mark (by decide)]
    rw [TokenTable.afterTypePrefixes, dif_neg hprefix']
    exact ⟨rfl, hk⟩

/-- The word `new` in front of an operand stands in both tables or in none. -/
theorem afterNew (hk : k ≠ p + 1) : SameEnd p (table.afterNew k) (table'.afterNew k) := by
  unfold TokenTable.afterNew
  rw [h.is_test (by decide), h.is_mark (by decide), h.is_mark (by decide)]
  split
  case isTrue hnew =>
    exact ⟨rfl, h.succ_ne_of_is (Bool.and_eq_true_iff.mp hnew).1 (by decide)⟩
  case isFalse => exact ⟨rfl, hk⟩

/-- The members of a name end at the same place in both tables. -/
theorem afterMembers (hk : k ≠ p + 1) :
    SameEnd p (table.afterMembers k) (table'.afterMembers k) := by
  fun_induction TokenTable.afterMembers table k with
  | case1 k hmember m hm heq ih =>
    have hrest := ih (h.succ_ne_of_isWord hmember.2)
    rw [heq] at hrest
    rw [SameEnd, afterMembers_eq (by rw [h.is_mark (by decide)]; exact hmember.1)
      (by rw [h.isWord]; exact hmember.2)]
    exact hrest
  | case2 k hmember =>
    have hmember' : ¬ (table'.is k "." ∧ table'.isWord (k + 1)) := by
      rwa [h.is_mark (by decide), h.isWord]
    rw [TokenTable.afterMembers, dif_neg hmember']
    exact ⟨rfl, hk⟩

/-- What an operand goes on with ends at the same place in both tables. -/
theorem postfixEnd (hk : k ≠ p + 1) :
    BothGive (SameEnd p) (table.postfixEnd k) (table'.postfixEnd k) := by
  induction hn : table.tokens.size - k using Nat.strongRecOn generalizing k with
  | _ n ih =>
    rw [postfixEnd.eq_def table, postfixEnd.eq_def table']
    simp (disch := decide) only [h.startsLine, h.is_mark, h.isWord]
    split
    case isTrue => exact .result ⟨rfl, hk⟩
    split
    case isTrue hangle =>
      refine (h.angleEnd k).bindEnd fun m hm hm' hne => ?_
      have := table.lt_size_of_is hangle
      exact (ih _ (by omega) hne rfl).bind fun _ _ he => .result he
    split
    case isTrue hsquare =>
      have hgroup : BothGive (SameEnd p) (table.postfixEnd (table.closeOf k + 1))
          (table'.postfixEnd (table'.closeOf k + 1)) := by
        have := table.lt_size_of_is hsquare
        have := table.le_closeOf k
        rw [h.closeOf]
        exact ih _ (by omega) (h.closeOf_succ_ne_of_is hsquare (by decide)) rfl
      exact hgroup.bind fun _ _ he => .result he
    split
    case isTrue hmember =>
      have := table.lt_size_of_is hmember.1
      exact (ih _ (by omega) (h.succ_ne_of_isWord hmember.2) rfl).bind fun _ _ he => .result he
    case isFalse => exact .result ⟨rfl, hk⟩

/-- An operator in front of a type stands in both tables or in none. -/
theorem afterLeadingOperator (hk : k ≠ p + 1) :
    SameEnd p (table.afterLeadingOperator k) (table'.afterLeadingOperator k) := by
  unfold TokenTable.afterLeadingOperator
  rw [h.is_mark (by decide), h.is_mark (by decide)]
  split
  case isTrue hoperator =>
    rcases Bool.or_eq_true_iff.mp hoperator with hoperator | hoperator
    · exact ⟨rfl, h.succ_ne_of_is hoperator (by decide)⟩
    · exact ⟨rfl, h.succ_ne_of_is hoperator (by decide)⟩
  case isFalse => exact ⟨rfl, hk⟩

end Renamed

/-- The types that start behind a token have the same ends in both tables. -/
def TypesMatch (table table' : TokenTable) (p k : Nat) : Prop :=
  ∀ m, k < m → m ≠ p + 1 → k < table.tokens.size →
    BothGive (SameEnd p) (table.typeEnd m) (table'.typeEnd m)

/-- Types that match behind a token match behind every later one. -/
theorem TypesMatch.of_le {table table' : TokenTable} {p k m : Nat} (h : TypesMatch table table' p k)
    (hle : k ≤ m) : TypesMatch table table' p m :=
  fun n hn hne hsize => h n (Nat.lt_of_le_of_lt hle hn) hne (Nat.lt_of_le_of_lt hle hsize)

namespace Renamed

variable {table table' : TokenTable} {p k : Nat} (h : table.Renamed table' p)
include h

/-- Behind a group, an operand goes on in both tables alike. -/
theorem postfixEnd_closeOf (hk : table.kind k = .punctuator → table.text k ∉ [".", "?."]) :
    BothGive (SameEnd p) (table.postfixEnd (table.closeOf k + 1))
      (table'.postfixEnd (table'.closeOf k + 1)) := by
  rw [h.closeOf]
  exact h.postfixEnd (h.closeOf_succ_ne hk)

/-- A name is read with its members in both tables, and is a predicate in both or in none. -/
theorem plainOperandEnd_word (htypes : TypesMatch table table' p k) (hkind : table.kind k = .word) :
    BothGive (SameEnd p) (table.plainOperandEnd k) (table'.plainOperandEnd k) := by
  rw [plainOperandEnd_of_word hkind, plainOperandEnd_of_word ((h.kind k).trans hkind)]
  have hsucc : k + 1 ≠ p + 1 := h.succ_ne_of_kind (by simp [hkind])
  obtain ⟨hmembers, hne⟩ := h.afterMembers hsucc
  have hlt := (table.afterMembers (k + 1)).2
  simp only [← hmembers, h.is_of_ne hne, h.startsLine]
  split
  case isTrue his =>
    have hpredicate : BothGive (SameEnd p) (table.typeEnd (table.afterMembers (k + 1) + 1))
        (table'.typeEnd (table'.afterMembers (k + 1) + 1)) := by
      rw [← hmembers]
      exact htypes _ (by omega) (h.succ_ne_of_is (Bool.and_eq_true_iff.mp his).1 (by decide))
        (table.lt_size_of_kind_ne (by simp [hkind]))
    exact hpredicate.bind fun _ _ he => .result he
  case isFalse =>
    have hpostfix : BothGive (SameEnd p) (table.postfixEnd (table.afterMembers (k + 1)))
        (table'.postfixEnd (table'.afterMembers (k + 1))) := by
      rw [← hmembers]
      exact h.postfixEnd hne
    exact hpostfix.bind fun _ _ he => .result he

/-- What a mark begins is of the same shape in both tables, as no mark is the member of a point. -/
theorem plainOperandEnd_mark (htypes : TypesMatch table table' p k)
    (hkind : table.kind k = .punctuator) :
    BothGive (SameEnd p) (table.plainOperandEnd k) (table'.plainOperandEnd k) := by
  have hsize := table.lt_size_of_kind_ne (i := k) (by simp [hkind])
  have hle := table.le_closeOf k
  rw [plainOperandEnd_of_mark hkind, plainOperandEnd_of_mark ((h.kind k).trans hkind),
    h.text_of_mark hkind]
  split
  case h_1 =>
    rw [h.kind]
    split
    case isTrue hnumber =>
      exact (h.postfixEnd (h.succ_ne_of_kind (by simp [hnumber]))).bind fun _ _ he => .result he
    case isFalse => exact .fail
  case h_2 htext | h_3 htext =>
    exact (h.postfixEnd_closeOf fun _ => by rw [htext]; decide).bind fun _ _ he => .result he
  case h_4 htext =>
    have harrow : table'.is (table'.closeOf k + 1) "=>" = table.is (table.closeOf k + 1) "=>" := by
      rw [h.closeOf, h.is_mark (by decide)]
    rw [harrow]
    split
    case isTrue harrow =>
      have hresult : BothGive (SameEnd p) (table.typeEnd (table.closeOf k + 2))
          (table'.typeEnd (table'.closeOf k + 2)) := by
        rw [h.closeOf]
        exact htypes _ (by omega) (h.succ_ne_of_is harrow (by decide)) hsize
      exact hresult.bind fun _ _ he => .result he
    case isFalse =>
      exact (h.postfixEnd_closeOf fun _ => by rw [htext]; decide).bind fun _ _ he => .result he
  case h_5 =>
    refine (h.angleEnd k).bindEnd fun params hparams hparams' _ => ?_
    have harrow : BothGive (SameEnd p) (table.expect (table.closeOf params + 1) "=>")
        (table'.expect (table'.closeOf params + 1) "=>") := by
      rw [h.closeOf]
      exact h.expect (by decide) (by decide)
    simp (disch := decide) only [h.is_mark]
    split
    case isTrue =>
      refine harrow.bindEnd fun result hresult hresult' hne => ?_
      have := table.le_closeOf params
      exact (htypes _ (by omega) hne hsize).bind fun _ _ he => .result he
    case isFalse => exact .fail
  case h_6 => exact .fail

/-- An operand has the same end in both tables, if the types further on have. -/
theorem plainOperandEnd (htypes : TypesMatch table table' p k) :
    BothGive (SameEnd p) (table.plainOperandEnd k) (table'.plainOperandEnd k) := by
  have hkind' := h.kind k
  cases hkind : table.kind k with
  | word => exact h.plainOperandEnd_word htypes hkind
  | string | number | template =>
    rw [plainOperandEnd_of_literal (by simp [hkind]),
      plainOperandEnd_of_literal (by simp [hkind', hkind])]
    exact (h.postfixEnd (h.succ_ne_of_kind (by simp [hkind]))).bind fun _ _ he => .result he
  | punctuator => exact h.plainOperandEnd_mark htypes hkind
  | regex | finish =>
    rw [plainOperandEnd_of_other (by simp [hkind]),
      plainOperandEnd_of_other (by simp [hkind', hkind])]
    exact .fail

/-- An operand ends at the same place in both tables, with its prefixes. -/
theorem operandEnd (hk : k ≠ p + 1) (htypes : TypesMatch table table' p k) :
    BothGive (SameEnd p) (table.operandEnd k) (table'.operandEnd k) := by
  obtain ⟨hprefixes, hne⟩ := h.afterTypePrefixes hk
  have hle := (table.afterTypePrefixes k).2
  have hle' := (table.afterNew (table.afterTypePrefixes k)).2
  have hplain : BothGive (SameEnd p)
      (table.plainOperandEnd (table.afterNew (table.afterTypePrefixes k)))
      (table'.plainOperandEnd (table'.afterNew (table'.afterTypePrefixes k))) := by
    rw [← hprefixes, ← (h.afterNew hne).1]
    exact h.plainOperandEnd (htypes.of_le (Nat.le_trans hle hle'))
  rw [operandEnd.eq_def table, operandEnd.eq_def table']
  exact hplain.bind fun _ _ he => .result he

/-- What a type goes on with ends at the same place in both tables. -/
theorem typeEndFrom (hk : k ≠ p + 1) (htypes : TypesMatch table table' p k) :
    BothGive (SameEnd p) (table.typeEndFrom k) (table'.typeEndFrom k) := by
  induction hn : table.tokens.size - k using Nat.strongRecOn generalizing k with
  | _ n ih =>
    have hbehind : TypesMatch table table' p (k + 1) := htypes.of_le (Nat.le_succ k)
    have hrest : ∀ {m}, k < m → m ≠ p + 1 → k < table.tokens.size →
        BothGive (SameEnd p) (table.typeEndFrom m) (table'.typeEndFrom m) :=
      fun hm hne hsize => ih _ (by omega) hne (htypes.of_le (Nat.le_of_lt hm)) rfl
    rw [typeEndFrom.eq_def table, typeEndFrom.eq_def table']
    simp (disch := decide) only [h.is_mark, h.is_of_ne hk, h.startsLine]
    split
    case isTrue hoperator =>
      have hsize : k < table.tokens.size :=
        (Bool.or_eq_true_iff.mp hoperator).elim table.lt_size_of_is table.lt_size_of_is
      have hsucc : k + 1 ≠ p + 1 := (Bool.or_eq_true_iff.mp hoperator).elim
        (h.succ_ne_of_is · (by decide)) (h.succ_ne_of_is · (by decide))
      refine (h.operandEnd hsucc hbehind).bindEnd fun m hm hm' hne => ?_
      exact (hrest (Nat.lt_of_succ_lt hm) hne hsize).bind fun _ _ he => .result he
    split
    case isTrue hextends =>
      have hsize := table.lt_size_of_is hextends.1
      have hsucc : k + 1 ≠ p + 1 := h.succ_ne_of_is hextends.1 (by decide)
      refine (h.operandEnd hsucc hbehind).bindEnd fun bound hBound hBound' _ => ?_
      refine (h.expect (k := bound) (by decide) (by decide)).bindEnd fun yes hYes hYes' hne => ?_
      refine (htypes yes (by omega) hne hsize).bindEnd fun colon hColon hColon' _ => ?_
      refine (h.expect (k := colon) (by decide) (by decide)).bindEnd fun no hNo hNo' hne => ?_
      refine (htypes no (by omega) hne hsize).bindEnd fun m hm hm' hne => ?_
      exact (hrest (by omega) hne hsize).bind fun _ _ he => .result he
    case isFalse => exact .result ⟨rfl, hk⟩

/-- A type ends in both tables at the same place. -/
theorem typeEnd (hk : k ≠ p + 1) : BothGive (SameEnd p) (table.typeEnd k) (table'.typeEnd k) := by
  induction hn : table.tokens.size - k using Nat.strongRecOn generalizing k with
  | _ n ih =>
    have htypes : TypesMatch table table' p k := fun m hm hne hsize => ih _ (by omega) hne rfl
    have hleading := h.afterLeadingOperator hk
    rw [typeEnd.eq_def table, typeEnd.eq_def table']
    generalize table.afterLeadingOperator k = s at hleading
    generalize table'.afterLeadingOperator k = s' at hleading
    obtain ⟨s, hs⟩ := s
    obtain ⟨_, hs'⟩ := s'
    obtain ⟨rfl, hne⟩ := hleading
    refine (h.operandEnd hne (htypes.of_le hs)).bindEnd fun m hm hm' hne => ?_
    exact (h.typeEndFrom hne (htypes.of_le (Nat.le_trans hs (Nat.le_of_lt hm)))).bind
      fun _ _ he => .result he

end Renamed

end TokenTable

end Workflow.Script
