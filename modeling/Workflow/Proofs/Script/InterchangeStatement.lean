import Workflow.Proofs.Script.Interchange
import Workflow.Script.StatementExtent

/-!
# Statements in tables that differ in a member name

Of the words that start a statement which only declares types, each is a test for member names of
its own, because a member name that is the first token on its line is taken for the start of a
statement. So such a statement is removed from both tables or from none, and it never ends directly
behind a point.
-/

namespace Workflow.Script.TokenTable

/-- Two ends are the same, and a curly bracket opens there. -/
def SameBrace (table : TokenTable) {q q' : Nat → Prop} (a : { e : Nat // q e })
    (b : { e : Nat // q' e }) : Prop := a.val = b.val ∧ table.is a "\x7b" = true

/-- Two answers have the same removal, if any, and it does not stop at the member of the point. -/
def SameRemoval (p : Nat) {i : Nat} (a b : Option (Removal i)) : Prop :=
  a = b ∧ ∀ r ∈ a, r.stop ≠ p + 1

theorem SameRemoval.none {p i : Nat} : SameRemoval p (none : Option (Removal i)) none :=
  ⟨rfl, by simp⟩

theorem SameRemoval.some {p i : Nat} {r : Removal i} (hr : r.stop ≠ p + 1) :
    SameRemoval p (some r) (some r) := ⟨rfl, by simpa using hr⟩

/-- Under a condition that both tables meet or none the same is removed from both. -/
theorem bothRemove_if {p i : Nat} {c : Prop} [Decidable c]
    {x y : Except Fault (Option (Removal i))} (h : c → BothGive (SameRemoval p) x y) :
    BothGive (SameRemoval p) (if c then x else pure none) (if c then y else pure none) := by
  split
  case isTrue hc => exact h hc
  case isFalse => exact .result .none

namespace Renamed

variable {table table' : TokenTable} {p k i : Nat} {text : String}
  (h : table.Renamed table' p)
include h

/-- A semicolon behind a statement belongs to it in both tables or in none. -/
theorem afterSemicolon (hk : k ≠ p + 1) :
    SameEnd p (table.afterSemicolon k) (table'.afterSemicolon k) := by
  unfold TokenTable.afterSemicolon
  rw [h.is_mark (by decide)]
  split
  case isTrue hsemicolon => exact ⟨rfl, h.succ_ne_of_is hsemicolon (by decide)⟩
  case isFalse => exact ⟨rfl, hk⟩

/-- A brace is found at the same place in both tables, or in none. -/
theorem braceFrom (first m : Nat) :
    BothGive table.SameBrace (table.braceFrom first m) (table'.braceFrom first m) := by
  induction hn : table.finish - m using Nat.strongRecOn generalizing m with
  | _ n ih =>
    rw [braceFrom.eq_def table, braceFrom.eq_def table']
    simp (disch := decide) only [h.finish, h.is_mark]
    split
    case isFalse => exact .fail
    split
    case isTrue hbrace => exact .result ⟨rfl, hbrace⟩
    split
    case isTrue =>
      exact (h.angleEnd m).bindEnd fun n hn hn' _ => (ih _ (by omega) n rfl).bind
        fun _ _ he => .result he
    split
    case isTrue =>
      have hgroup : BothGive table.SameBrace
          (table.braceFrom first (table.closeOf m + 1))
          (table'.braceFrom first (table'.closeOf m + 1)) := by
        have := table.le_closeOf m
        rw [h.closeOf]
        exact ih _ (by omega) _ rfl
      exact hgroup.bind fun _ _ he => .result he
    case isFalse => exact (ih _ (by omega) (m + 1) rfl).bind fun _ _ he => .result he

/-- A body ends at the same place in both tables. -/
theorem bodyEnd (k : Nat) : BothGive (SameEnd p) (table.bodyEnd k) (table'.bodyEnd k) := by
  unfold TokenTable.bodyEnd
  refine (h.braceFrom k k).bind ?_
  rintro ⟨brace, hk⟩ ⟨brace', hk'⟩ ⟨heq, hbrace⟩
  obtain rfl : brace = brace' := heq
  exact .result ⟨by simp only [h.closeOf], h.closeOf_succ_ne_of_is hbrace (by decide)⟩

/-- The type behind the name of an alias ends at the same place in both tables. -/
theorem aliasEnd (k : Nat) : BothGive (SameEnd p) (table.aliasEnd k) (table'.aliasEnd k) := by
  unfold TokenTable.aliasEnd
  rw [h.is_mark (by decide)]
  extract_lets assigned assigned'
  have hassigned : ∀ m hm, BothGive (SameEnd p) (assigned ⟨m, hm⟩) (assigned' ⟨m, hm⟩) := by
    intro m hm
    refine (h.expect (k := m) (by decide) (by decide)).bindEnd fun q hq hq' hne => ?_
    refine (h.typeEnd hne).bindEnd fun r hr hr' hne => ?_
    exact .result (h.afterSemicolon hne)
  split
  case isTrue => exact (h.angleEnd k).bindEnd fun m hm _ _ => hassigned m (Nat.le_of_lt hm)
  case isFalse => exact hassigned k (Nat.le_refl k)

/-- The type behind a colon ends at the same place in both tables. -/
theorem annotationEnd (hk : k ≠ p + 1) :
    BothGive (SameEnd p) (table.annotationEnd k) (table'.annotationEnd k) := by
  unfold TokenTable.annotationEnd
  rw [h.is_mark (by decide)]
  split
  case isTrue hcolon =>
    exact (h.typeEnd (h.succ_ne_of_is hcolon (by decide))).bind fun _ _ he => .result he
  case isFalse => exact .result ⟨rfl, hk⟩

theorem bindingEnd (k : Nat) : BothGive (SameEnd p) (table.bindingEnd k) (table'.bindingEnd k) := by
  unfold TokenTable.bindingEnd
  simp (disch := decide) only [h.is_mark, h.isWord]
  split
  case isTrue hpattern =>
    refine .result ⟨by simp only [h.closeOf], ?_⟩
    exact (Bool.or_eq_true_iff.mp hpattern).elim (h.closeOf_succ_ne_of_is · (by decide))
      (h.closeOf_succ_ne_of_is · (by decide))
  split
  case isTrue hword => exact .result ⟨rfl, h.succ_ne_of_isWord hword⟩
  case isFalse => exact .fail

/-- Declared variables end at the same place in both tables. -/
theorem bindingsEnd (k : Nat) :
    BothGive (SameEnd p) (table.bindingsEnd k) (table'.bindingsEnd k) := by
  induction hn : table.tokens.size - k using Nat.strongRecOn generalizing k with
  | _ n ih =>
    rw [bindingsEnd.eq_def table, bindingsEnd.eq_def table']
    refine (h.bindingEnd k).bindEnd fun m hm hm' hne => ?_
    refine (h.annotationEnd hne).bindEnd fun q hq hq' hne => ?_
    simp (disch := decide) only [h.is_mark]
    split
    case isTrue hcomma =>
      have := table.lt_size_of_is hcomma
      exact (ih _ (by omega) (q + 1) rfl).bind fun _ _ he => .result he
    case isFalse => exact .result ⟨rfl, hne⟩

/-- The head of a declared function ends at the same place in both tables. -/
theorem signatureEnd (k : Nat) :
    BothGive (SameEnd p) (table.signatureEnd k) (table'.signatureEnd k) := by
  unfold TokenTable.signatureEnd
  rw [h.isWord]
  generalize (if table.isWord k = true then _ else _ : { m : Nat // k ≤ m }) = name
  obtain ⟨m, hm⟩ := name
  dsimp -zeta only
  rw [h.is_mark (by decide)]
  extract_lets parameters parameters'
  have hparameters : ∀ q hq, BothGive (SameEnd p) (parameters ⟨q, hq⟩) (parameters' ⟨q, hq⟩) := by
    intro q hq
    have hresult : table.is q "(" = true →
        BothGive (SameEnd p) (table.annotationEnd (table.closeOf q + 1))
          (table'.annotationEnd (table'.closeOf q + 1)) := fun hround => by
      rw [h.closeOf]
      exact h.annotationEnd (h.closeOf_succ_ne_of_is hround (by decide))
    dsimp only [parameters, parameters']
    rw [h.is_mark (by decide)]
    split
    case isTrue hround => exact (hresult hround).bind fun _ _ he => .result he
    case isFalse => exact .fail
  split
  case isTrue => exact (h.angleEnd m).bindEnd fun q hq _ _ => hparameters q (Nat.le_of_lt hq)
  case isFalse => exact hparameters m (Nat.le_refl m)

/-- What is declared for other code ends at the same place in both tables. -/
theorem ambientEnd (hk : k ≠ p + 1) :
    BothGive (SameEnd p) (table.ambientEnd k) (table'.ambientEnd k) := by
  unfold TokenTable.ambientEnd
  rw [h.text k hk]
  split
  case h_1 => exact (h.aliasEnd (k + 2)).bind fun _ _ he => .result he
  case h_2 | h_3 | h_4 =>
    exact (h.bindingsEnd (k + 1)).bindEnd fun m hm hm' hne => .result (h.afterSemicolon hne)
  case h_5 =>
    exact (h.signatureEnd (k + 1)).bindEnd fun m hm hm' hne => .result (h.afterSemicolon hne)
  case h_6 =>
    exact (h.bodyEnd (k + 1)).bindEnd fun m hm hm' hne => .result (h.afterSemicolon hne)

/-- The name of a module ends an import at the same place in both tables. -/
theorem moduleEnd (first m : Nat) :
    BothGive (SameEnd p) (table.moduleEnd first m) (table'.moduleEnd first m) := by
  induction hn : table.finish - m using Nat.strongRecOn generalizing m with
  | _ n ih =>
    rw [moduleEnd.eq_def table, moduleEnd.eq_def table']
    simp (disch := decide) only [h.finish, h.kind, h.is_mark]
    split
    case isFalse => exact .fail
    split
    case isTrue hstring => exact .result ⟨rfl, h.succ_ne_of_kind (by simp [hstring])⟩
    split
    case isTrue =>
      have hgroup : BothGive (SameEnd p) (table.moduleEnd first (table.closeOf m + 1))
          (table'.moduleEnd first (table'.closeOf m + 1)) := by
        have := table.le_closeOf m
        rw [h.closeOf]
        exact ih _ (by omega) _ rfl
      exact hgroup.bind fun _ _ he => .result he
    case isFalse => exact (ih _ (by omega) (m + 1) rfl).bind fun _ _ he => .result he

/-- An import is one of types in both tables or in none. -/
theorem importsTypes (hk : k ≠ p + 1) : table'.importsTypes k = table.importsTypes k := by
  unfold TokenTable.importsTypes
  rw [h.is_of_ne hk, h.is_of_ne hk, h.is_of_ne hk, h.isWord, h.kind]

/-- A list of exported types ends at the same place in both tables. -/
theorem exportEnd (hk : table.is k "\x7b" = true) :
    SameEnd p (table.exportEnd k) (table'.exportEnd k) := by
  have hclose : table.closeOf k + 1 ≠ p + 1 := h.closeOf_succ_ne_of_is hk (by decide)
  change SameEnd p
    (table.afterSemicolon (if table.is (table.closeOf k + 1) "from" &&
      table.kind (table.closeOf k + 1 + 1) == .string then table.closeOf k + 1 + 2
      else table.closeOf k + 1))
    (table'.afterSemicolon (if table'.is (table'.closeOf k + 1) "from" &&
      table'.kind (table'.closeOf k + 1 + 1) == .string then table'.closeOf k + 1 + 2
      else table'.closeOf k + 1))
  rw [h.closeOf, h.is_of_ne hclose, h.kind]
  refine h.afterSemicolon ?_
  split
  case isTrue hfrom =>
    refine h.succ_ne_of_kind ?_
    simp [beq_iff_eq.mp (Bool.and_eq_true_iff.mp hfrom).2]
  case isFalse => exact hclose

/-- A word that is a test for names is the text of a token in both tables or in none. -/
theorem text_eq_iff (htext : [text] ∈ memberTests) (k : Nat) :
    table'.text k = text ↔ table.text k = text := by
  have hcontains := h.isOneOf_test htext k
  simp only [isOneOf, List.contains_cons, List.contains_nil, Bool.or_false] at hcontains
  rw [← beq_iff_eq, hcontains, beq_iff_eq]

/-- The token behind the name of an interface is no member name. -/
theorem interfaceHeading (j : Nat) :
    (table'.isWord (j + 1) &&
      (table'.is (j + 2) "\x7b" || table'.is (j + 2) "extends" || table'.is (j + 2) "<")) =
    (table.isWord (j + 1) &&
      (table.is (j + 2) "\x7b" || table.is (j + 2) "extends" || table.is (j + 2) "<")) := by
  rw [h.isWord]
  cases hword : table.isWord (j + 1) with
  | false => rfl
  | true =>
    have hne : j + 2 ≠ p + 1 := h.succ_ne_of_isWord hword
    simp only [h.is_of_ne hne]

theorem importHeading (exported : Bool) (j : Nat) :
    (!exported && table'.is (j + 1) "type" && table'.importsTypes (j + 2)) =
      (!exported && table.is (j + 1) "type" && table.importsTypes (j + 2)) := by
  rw [h.is_test (by decide)]
  cases htype : table.is (j + 1) "type" with
  | false => simp only [Bool.and_false, Bool.false_and]
  | true => rw [h.importsTypes (h.succ_ne_of_is htype (by decide))]

/-- A statement that only declares types is removed from both tables or from none. -/
theorem statementRemoval (i : Nat) :
    BothGive (SameRemoval p) (table.statementRemoval i) (table'.statementRemoval i) := by
  unfold TokenTable.statementRemoval
  rw [h.is_test (by decide)]
  generalize table.is i "export" = exported
  dsimp only
  generalize (if exported = true then _ else _ : { j : Nat // i ≤ j }) = first
  obtain ⟨j, hj⟩ := first
  dsimp only
  split
  case h_8 =>
    -- Another word than the ones above stands there in the second table, too.
    split
    case h_8 => exact .result .none
    all_goals
      rename_i htext
      rw [h.text_eq_iff (by decide)] at htext
      contradiction
  all_goals
    rename_i htext
    have hne : j + 1 ≠ p + 1 := h.succ_ne_of_text htext (by decide)
    simp only [(h.text_eq_iff (by decide) j).mpr htext]
  case h_1 =>
    rw [h.interfaceHeading]
    exact bothRemove_if fun _ => (h.bodyEnd (j + 2)).bindEnd fun _ _ _ hne => .result (.some hne)
  case h_2 =>
    simp (disch := decide) only [h.isWord, h.is_mark]
    split
    case isTrue => exact (h.aliasEnd (j + 2)).bindEnd fun _ _ _ hne => .result (.some hne)
    case isFalse =>
      refine bothRemove_if fun hclause => ?_
      obtain ⟨hend, hne⟩ := h.exportEnd (Bool.and_eq_true_iff.mp hclause).2
      simp only [← hend]
      exact .result (.some hne)
  case h_3 =>
    rw [h.importHeading]
    refine bothRemove_if fun _ => (h.moduleEnd j (j + 2)).bindEnd fun m _ _ hne => ?_
    obtain ⟨hend, hne⟩ := h.afterSemicolon hne
    simp only [← hend]
    exact .result (.some hne)
  case h_4 =>
    rw [h.isOneOf_of_ne hne]
    exact bothRemove_if fun _ => (h.ambientEnd hne).bindEnd fun _ _ _ hne => .result (.some hne)
  case h_5 =>
    rw [h.is_of_ne hne]
    exact bothRemove_if fun _ => .result (.some hne)
  case h_6 =>
    rw [h.isWord, h.is_mark (by decide)]
    exact bothRemove_if fun _ => .fail
  case h_7 =>
    rw [h.is_of_ne hne]
    exact bothRemove_if fun _ => .fail

end Renamed

end Workflow.Script.TokenTable
