import Workflow.Proofs.Script.InterchangeStatement
import Workflow.Script.Erasure.Class

/-!
# What is known of a token in tables that differ in a member name

Two erasures that stand in the same state answer every question about the tokens before a bracket
or an operator in the same way, and remove the same tokens from the heading of a class and from the
start of its members. The state never has a member name kept whose point is removed, because no
removal stops between the two; so the erasures find the name behind its point.
-/

namespace Workflow.Script

namespace Erasure

/-- With the token behind `p` the token `p` is kept. -/
def KeepsPoint (p : Nat) (s : Erasure) : Prop := s.keeps (p + 1) = true → s.keeps p = true

/-- The kept token in front of the member is the point. -/
theorem KeepsPoint.previous {p : Nat} {s : Erasure} (hs : s.KeepsPoint p)
    (hkept : s.keeps (p + 1) = true) : s.previous (p + 1) = some p := by
  rw [Erasure.previous, if_pos (hs hkept)]

/-- Two states are the same, and a member name has its point. -/
def SameState (p : Nat) (a b : Erasure) : Prop := a = b ∧ a.KeepsPoint p

/-- Two states with the index to go on at are the same. -/
def SameNext (p : Nat) (a b : Nat × Erasure) : Prop := a = b ∧ a.2.KeepsPoint p

end Erasure

namespace TokenTable.Renamed

open Erasure

variable {table table' : TokenTable} {p i k : Nat} {s : Erasure} (h : table.Renamed table' p)
include h

/-- To remove tokens is the same in both tables. -/
theorem remove (s : Erasure) (first stop : Nat) :
    s.remove table' first stop = s.remove table first stop := by
  rw [Erasure.remove, Erasure.remove, h.finish]

/-- A removal that does not stop between a point and its member leaves no member without point. -/
theorem keepsPoint_remove (hs : s.KeepsPoint p) {stop : Nat} (hstop : stop ≠ p + 1) (first : Nat) :
    (s.remove table first stop).KeepsPoint p := by
  have hinside := h.inside
  unfold KeepsPoint
  simp only [keeps_remove, Bool.and_eq_true, Bool.not_eq_true', Bool.and_eq_false_iff,
    decide_eq_false_iff_not]
  rintro ⟨hkept, hrange⟩
  exact ⟨hs hkept, by omega⟩

/-! ## What stands before a token -/

/-- Steps up and down stand at the same places in both tables. -/
theorem isStep (i : Nat) : Erasure.isStep table' i = Erasure.isStep table i := by
  rw [Erasure.isStep, Erasure.isStep, h.is_mark (by decide), h.is_mark (by decide)]

/-- Operands end at the same places in both tables. -/
theorem endsPlainOperand (i : Nat) :
    Erasure.endsPlainOperand table' i = Erasure.endsPlainOperand table i := by
  unfold Erasure.endsPlainOperand
  rw [h.kind, h.isOneOf_test (by decide), h.is_mark (by decide), h.is_mark (by decide)]

/-- What is kept ends with an operand in both tables or in none. -/
theorem endsOperand (s : Erasure) (i : Nat) : s.endsOperand table' i = s.endsOperand table i := by
  unfold Erasure.endsOperand
  simp only [h.isStep, h.endsPlainOperand]

/-- A mark is followed in both tables or in none. -/
theorem follows_mark {text : String} (htext : text.toList.head?.any isNameStart = false)
    (s : Erasure) (i : Nat) : s.follows table' i text = s.follows table i text := by
  unfold Erasure.follows
  simp only [h.is_mark htext]

/-- A word that alone makes up one of the lists is followed in both tables or in none. -/
theorem follows_test {text : String} (htext : [text] ∈ memberTests) (s : Erasure) (i : Nat) :
    s.follows table' i text = s.follows table i text := by
  unfold Erasure.follows
  simp only [h.is_test htext]

/-- A word may name a method in both tables or in none. -/
theorem isMethodName (i : Nat) : Erasure.isMethodName table' i = Erasure.isMethodName table i := by
  rw [Erasure.isMethodName, Erasure.isMethodName, h.isWord, h.isOneOf_test (by decide)]

/-- A statement starts at the same places in both tables. -/
theorem startsStatement (s : Erasure) (i : Nat) :
    s.startsStatement table' i = s.startsStatement table i := by
  unfold Erasure.startsStatement
  simp (disch := decide) only [h.isWord, h.is_mark, h.startsLine]

theorem followsFunction (s : Erasure) (i : Nat) :
    s.followsFunction table' i = s.followsFunction table i := by
  unfold Erasure.followsFunction
  simp (disch := decide) only [h.is_test, h.isWord, h.is_mark, h.follows_test]

/-- A round bracket opens parameters in both tables or in none. -/
theorem opensParameters (s : Erasure) (i : Nat) :
    s.opensParameters table' i = s.opensParameters table i := by
  unfold Erasure.opensParameters
  rw [h.closeOf, funext h.isMethodName, h.followsFunction]
  simp (disch := decide) only [h.is_mark]
  cases hcolon : table.is (table.closeOf i + 1) ":" with
  | false => simp only [Bool.false_and]
  | true =>
    have htype := h.typeEnd (k := table.closeOf i + 2) (h.succ_ne_of_is hcolon (by decide))
    generalize table.typeEnd (table.closeOf i + 2) = x at htype
    generalize table'.typeEnd (table.closeOf i + 2) = y at htype
    cases htype with
    | fail => rfl
    | result hend => simp only [hend.1]

/-- A brace opens a clause of a module in both tables or in none. -/
theorem opensModuleClause (s : Erasure) (i : Nat) :
    s.opensModuleClause table' i = s.opensModuleClause table i := by
  unfold Erasure.opensModuleClause
  simp (disch := decide) only [h.is_test, h.is_mark, h.follows_test]

theorem followsConstructor (s : Erasure) (i : Nat) :
    s.followsConstructor table' i = s.followsConstructor table i := by
  induction i using Nat.strongRecOn with
  | _ i ih =>
    rw [Erasure.followsConstructor.eq_def s table', Erasure.followsConstructor.eq_def s table]
    split
    · rfl
    · rename_i n hn
      rw [h.isWord]
      split
      · rfl
      · rename_i q hq
        have hlt : q < i := Nat.lt_trans (previous_lt hq) (previous_lt hn)
        rw [h.is_mark (by decide), h.is_test (by decide), ih q hlt]

/-- Type arguments end in both tables at the same place. -/
theorem typeArgumentsEndFrom (hk : k ≠ p + 1) :
    typeArgumentsEndFrom table' k = typeArgumentsEndFrom table k ∧
      ∀ e ∈ typeArgumentsEndFrom table k, e.val ≠ p + 1 := by
  induction hn : table.tokens.size - k using Nat.strongRecOn generalizing k with
  | _ n ih =>
    have htype := h.typeEnd hk
    rw [typeArgumentsEndFrom.eq_def table', typeArgumentsEndFrom.eq_def table]
    generalize table.typeEnd k = x at htype
    generalize table'.typeEnd k = y at htype
    cases htype with
    | fail => exact ⟨rfl, by simp⟩
    | @result a b hend =>
      obtain ⟨m, hm⟩ := a
      obtain ⟨m', hm'⟩ := b
      obtain ⟨heq, hne⟩ := hend
      obtain rfl : m = m' := heq
      simp (disch := decide) only [h.is_mark]
      split
      case isTrue hclose => exact ⟨rfl, by simpa using h.succ_ne_of_is hclose (by decide)⟩
      split
      case isTrue hcomma =>
        have := table.lt_size_of_is hcomma
        obtain ⟨hrest, hends⟩ := ih _ (by omega) (h.succ_ne_of_is hcomma (by decide)) rfl
        rw [hrest]
        refine ⟨rfl, ?_⟩
        cases hlist : Erasure.typeArgumentsEndFrom table (m + 1) with
        | none => simp
        | some e => simpa using hends e hlist
      case isFalse => exact ⟨rfl, by simp⟩

/-- Type arguments end at the same place in both tables, at which no member stands. -/
theorem typeArgumentsEnd (hi : i + 1 ≠ p + 1) :
    typeArgumentsEnd table' i = typeArgumentsEnd table i ∧
      ∀ e ∈ typeArgumentsEnd table i, e.val ≠ p + 1 := by
  obtain ⟨hrest, hends⟩ := h.typeArgumentsEndFrom hi
  unfold Erasure.typeArgumentsEnd
  rw [hrest]
  refine ⟨rfl, ?_⟩
  cases hlist : Erasure.typeArgumentsEndFrom table (i + 1) with
  | none => simp
  | some e => simpa using hends e hlist

/-! ## Headings and members of classes -/

/-- The same list of types is removed in both tables. -/
theorem removeTypeList (hs : s.KeepsPoint p) (hk : k ≠ p + 1) :
    BothGive (fun a b => SameNext p a b ∧ a.1 ≠ p + 1) (s.removeTypeList table k)
      (s.removeTypeList table' k) := by
  unfold Erasure.removeTypeList
  rw [h.is_mark (by decide)]
  split
  case isTrue =>
    refine (h.angleEnd k).bindEnd fun e _ _ hne => ?_
    simp only [h.remove]
    exact .result ⟨⟨rfl, h.keepsPoint_remove hs hne k⟩, hne⟩
  case isFalse => exact .result ⟨⟨rfl, hs⟩, hk⟩

/-- The same is removed from the heading of a function. -/
theorem functionHeading (hs : s.KeepsPoint p) (hi : table.text i = "function") :
    BothGive (SameState p) (s.functionHeading table i) (s.functionHeading table' i) := by
  unfold Erasure.functionHeading
  simp (disch := decide) only [h.is_mark, h.isWord]
  have hstar : (if table.is (i + 1) "*" then i + 2 else i + 1) ≠ p + 1 := by
    split
    case isTrue hstar => exact h.succ_ne_of_is hstar (by decide)
    case isFalse => exact h.succ_ne_of_text hi (by decide)
  generalize (if table.is (i + 1) "*" then i + 2 else i + 1) = k at hstar
  have hname : (if table.isWord k then k + 1 else k) ≠ p + 1 := by
    split
    case isTrue hword => exact h.succ_ne_of_isWord hword
    case isFalse => exact hstar
  refine (h.removeTypeList hs hname).bind ?_
  rintro ⟨m, s'⟩ _ ⟨⟨rfl, hs'⟩, -⟩
  exact .result ⟨rfl, hs'⟩

/-- The same is removed from a base and its type arguments. -/
theorem extendsClause (hs : s.KeepsPoint p) (k : Nat) :
    BothGive (SameNext p) (Erasure.extendsClause table s k) (Erasure.extendsClause table' s k) := by
  induction hn : table.finish - k using Nat.strongRecOn generalizing s k with
  | _ n ih =>
    rw [Erasure.extendsClause.eq_def table, Erasure.extendsClause.eq_def table']
    simp (disch := decide) only [h.finish, h.is_mark, h.is_test, h.isWord]
    split
    case isFalse => exact .result ⟨rfl, hs⟩
    split
    case isTrue =>
      refine (h.angleEnd k).bindEnd fun e _ _ hne => ?_
      simp only [h.remove]
      exact ih _ (by omega) (h.keepsPoint_remove hs hne k) e rfl
    split
    case isTrue =>
      have := table.le_closeOf k
      rw [h.closeOf]
      exact ih _ (by omega) hs _ rfl
    case isFalse => exact ih _ (by omega) hs (k + 1) rfl

/-- A list of types ends at the same place in both tables. -/
theorem typeListEnd (hk : k ≠ p + 1) :
    BothGive (SameEnd p) (Erasure.typeListEnd table k) (Erasure.typeListEnd table' k) := by
  induction hn : table.tokens.size - k using Nat.strongRecOn generalizing k with
  | _ n ih =>
    rw [typeListEnd.eq_def table, typeListEnd.eq_def table']
    refine (h.typeEnd hk).bindEnd fun m hm hm' hne => ?_
    simp (disch := decide) only [h.is_mark]
    split
    case isTrue hcomma =>
      have := table.lt_size_of_is hcomma
      exact (ih _ (by omega) (h.succ_ne_of_is hcomma (by decide)) rfl).bind fun _ _ he => .result he
    case isFalse => exact .result ⟨rfl, hne⟩

/-- The same type parameters of a class are removed. -/
theorem classParameters (hs : s.KeepsPoint p) (hi : table.text i = "class") :
    BothGive (fun a b => SameNext p a b ∧ a.1 ≠ p + 1) (s.classParameters table i)
      (s.classParameters table' i) := by
  have hne : i + 1 ≠ p + 1 := h.succ_ne_of_text hi (by decide)
  unfold Erasure.classParameters
  rw [h.isWord, h.is_of_ne hne, h.is_of_ne hne]
  dsimp only
  split
  case isTrue hnamed =>
    simp only [Bool.and_eq_true] at hnamed
    exact h.removeTypeList hs (h.succ_ne_of_isWord hnamed.1.1)
  case isFalse => exact .result ⟨⟨rfl, hs⟩, hne⟩

/-- The same is removed from the base of a class. -/
theorem classBase (hs : s.KeepsPoint p) (hk : k ≠ p + 1) :
    BothGive (SameNext p) (s.classBase table k) (s.classBase table' k) := by
  unfold Erasure.classBase
  rw [h.is_of_ne hk]
  split
  case isTrue => exact h.extendsClause hs (k + 1)
  case isFalse => exact .result ⟨rfl, hs⟩

/-- The same interfaces of a class are removed. -/
theorem classInterfaces (hs : s.KeepsPoint p) (k : Nat) :
    BothGive (SameNext p) (s.classInterfaces table k) (s.classInterfaces table' k) := by
  unfold Erasure.classInterfaces
  rw [h.is_test (by decide)]
  split
  case isTrue himplements =>
    refine (h.typeListEnd (h.succ_ne_of_is himplements (by decide))).bindEnd fun e _ _ hne => ?_
    simp only [h.remove]
    exact .result ⟨rfl, h.keepsPoint_remove hs hne k⟩
  case isFalse => exact .result ⟨rfl, hs⟩

/-- The body of a class opens at the same place in both tables. -/
theorem openBody (hs : s.KeepsPoint p) (k : Nat) :
    SameState p (s.openBody table k) (s.openBody table' k) := by
  unfold Erasure.openBody
  rw [h.is_mark (by decide)]
  split
  · exact ⟨rfl, hs⟩
  · exact ⟨rfl, hs⟩

/-- The same is removed from the whole heading of a class. -/
theorem classHeading (hs : s.KeepsPoint p) (hi : table.text i = "class") :
    BothGive (SameState p) (s.classHeading table i) (s.classHeading table' i) := by
  unfold Erasure.classHeading
  refine (h.classParameters hs hi).bind ?_
  rintro ⟨k, s₁⟩ _ ⟨⟨rfl, hs₁⟩, hk⟩
  refine (h.classBase hs₁ hk).bind ?_
  rintro ⟨k, s₂⟩ _ ⟨rfl, hs₂⟩
  refine (h.classInterfaces hs₂ k).bind ?_
  rintro ⟨k, s₃⟩ _ ⟨rfl, hs₃⟩
  exact .result (h.openBody hs₃ k)

/-- A member starts at the same places in both tables. -/
theorem startsMember (s : Erasure) (i : Nat) :
    s.startsMember table' i = s.startsMember table i := by
  unfold Erasure.startsMember
  simp (disch := decide) only [h.is_mark, h.isOneOf_test, h.startsLine, h.endsOperand]

/-- A word is the modifier of a member in both tables, away from the name. -/
theorem isMemberModifier (hi : i ≠ p + 1) :
    Erasure.isMemberModifier table' i = Erasure.isMemberModifier table i := by
  unfold Erasure.isMemberModifier
  rw [h.isOneOf_of_ne hi, h.isWord, h.kind, h.is_mark (by decide), h.is_mark (by decide)]

/-- Behind a modifier stands no member of a point. -/
theorem succ_ne_of_isMemberModifier (hi : Erasure.isMemberModifier table i = true) :
    i + 1 ≠ p + 1 := by
  have hmodifier : modifiers.contains (table.text i) = true := (Bool.and_eq_true_iff.mp hi).1
  refine h.succ_ne fun _ hpoint => ?_
  simp only [List.mem_cons, List.not_mem_nil, or_false] at hpoint
  rcases hpoint with hpoint | hpoint
  · exact absurd (hpoint ▸ hmodifier) (by decide)
  · exact absurd (hpoint ▸ hmodifier) (by decide)

theorem isMarked (i : Nat) : Erasure.isMarked table' i = Erasure.isMarked table i := by
  rw [Erasure.isMarked, Erasure.isMarked, h.is_mark (by decide), h.is_mark (by decide)]

/-- Behind a marked name stands no member of a point. -/
theorem succ_ne_of_isMarked (hi : Erasure.isMarked table i = true) : i + 2 ≠ p + 1 := by
  rcases Bool.or_eq_true_iff.mp hi with hmark | hmark
  · exact h.succ_ne_of_is hmark (by decide)
  · exact h.succ_ne_of_is hmark (by decide)

/-- A mark behind a name is passed over in both tables or in none. -/
theorem afterMark (i : Nat) : Erasure.afterMark table' i = Erasure.afterMark table i := by
  rw [Erasure.afterMark, Erasure.afterMark, h.isMarked]

/-- The same type parameters of a method are removed. -/
theorem methodParameters (hs : s.KeepsPoint p) (k : { k : Nat // i < k }) :
    BothGive (fun a b => a = b ∧ a.2.KeepsPoint p) (s.methodParameters table i k)
      (s.methodParameters table' i k) := by
  unfold Erasure.methodParameters
  simp (disch := decide) only [h.is_mark]
  split
  case isTrue =>
    refine (h.angleEnd k).bindEnd fun e _ _ hne => ?_
    simp only [h.remove]
    split
    case isTrue => exact .result ⟨rfl, h.keepsPoint_remove hs hne k⟩
    case isFalse => exact .result ⟨rfl, hs⟩
  case isFalse => exact .result ⟨rfl, hs⟩

/-- At a member of a class, the same is removed in both tables. -/
theorem classMember (hs : s.KeepsPoint p) (hi : i ≠ p + 1) :
    BothGive (fun a b => SameRemoval p a.1 b.1 ∧ SameState p a.2 b.2) (s.classMember table i)
      (s.classMember table' i) := by
  unfold Erasure.classMember
  rw [h.startsMember, h.isMemberModifier hi, h.isMarked, h.afterMark]
  split
  case isTrue => exact .result ⟨.none, rfl, hs⟩
  split
  case isTrue hmodifier =>
    exact .result ⟨.some (h.succ_ne_of_isMemberModifier hmodifier), rfl, hs⟩
  refine (h.methodParameters hs _).bind ?_
  rintro ⟨⟨m, hm⟩, s'⟩ _ ⟨rfl, hs'⟩
  simp (disch := decide) only [h.is_mark, h.remove]
  split
  case isTrue hcolon =>
    refine (h.typeEnd (h.succ_ne_of_is hcolon (by decide))).bindEnd fun e _ _ hne => ?_
    exact .result ⟨.some hne, rfl, hs'⟩
  split
  case isTrue hmarked =>
    have hmark := h.succ_ne_of_isMarked (Bool.and_eq_true_iff.mp hmarked).1
    exact .result ⟨.none, rfl, h.keepsPoint_remove hs' hmark (i + 1)⟩
  case isFalse => exact .result ⟨.none, rfl, hs'⟩

end TokenTable.Renamed

end Workflow.Script
