import Workflow.Proofs.Script.Rereading
import Workflow.Proofs.Script.Sought

/-!
# Brackets are removed in pairs

Brackets nest, so a chain of whole groups and other tokens holds a bracket exactly if it
holds the partner of the bracket. Erasure removes such chains, and statements that only
declare types. A statement whose end is searched for is such a range exactly if the body or
the module that is found stands on the level of the statement. If those that are removed do,
each bracket is kept exactly if its partner is, and the brackets of the tokens that are
written out pair up again.
-/

namespace Workflow.Script

/-- The token is a bracket. -/
def Token.IsBracket (t : Token) : Prop := t.opens? ≠ none ∨ t.closes? ≠ none

theorem Token.text_mem_of_isBracket {t : Token} (h : t.IsBracket) : t.text ∈ bracketMarks := by
  by_contra htext
  obtain ⟨hopen, hclose⟩ := Token.isNoBracket_of_is (t := t) fun text hmem => by
    have hne : t.text ≠ text := fun heq => htext (heq ▸ hmem)
    simp [Token.is, hne]
  exact h.elim (fun h => h hopen) (fun h => h hclose)

theorem Token.opens?_ne_none_of_is {t : Token} {text : String} (h : t.is text = true)
    (htext : text ∈ ["(", "[", "\x7b"]) : t.opens? ≠ none := by
  intro hnone
  rw [Token.opens?_eq_none_iff] at hnone
  simp only [List.mem_cons, List.not_mem_nil, or_false] at htext
  rcases htext with rfl | rfl | rfl <;> simp [h] at hnone

/-- No other token begins like a bracket of any kind. -/
theorem Token.Formed.kind_of_mark {t : Token} (h : t.Formed)
    (hmark : t.text ∈ "<" :: bracketMarks) : t.kind = .punctuator := by
  obtain ⟨c, rest, earlier, htext, -, hread⟩ := h
  rw [tokenTail_eq_ok_iff] at hread
  have hmarks : ∀ text ∈ "<" :: bracketMarks, (text.toList.head?.all fun c =>
      !isNameStart c && !c.isDigit && decide (c ∉ ['.', '"', '\'', '\x60', '/'])) = true := by
    decide
  have hfirst := hmarks _ hmark
  rw [htext, List.head?_cons, Option.all_some] at hfirst
  simp only [Bool.and_eq_true, Bool.not_eq_true', decide_eq_true_eq, List.mem_cons,
    List.not_mem_nil, or_false, not_or] at hfirst
  obtain ⟨⟨hname, hdigit⟩, hother⟩ := hfirst
  rw [← hread.1]
  simp [leadingKind, hname, hdigit, hother]

/-- Only punctuators are brackets, for a name begins with a letter. -/
theorem Token.Formed.kind_of_isBracket {t : Token} (h : t.Formed) (hbracket : t.IsBracket) :
    t.kind = .punctuator :=
  h.kind_of_mark (List.mem_cons_of_mem _ (text_mem_of_isBracket hbracket))

/-- The tokens from an index on nest as the partners say: the first bracket of a group and
the last one are partners, and a token that is no bracket has none. -/
inductive Nested (partner : Array (Option Nat)) : Nat → List Token → Prop
  | nil {k : Nat} : Nested partner k []
  | other {k : Nat} {t : Token} {ts : List Token} : t.opens? = none → t.closes? = none →
      partner[k]? = some none → Nested partner (k + 1) ts → Nested partner k (t :: ts)
  | group {k : Nat} {first last : Token} {inner ts : List Token} {shape : Bracket} :
      first.opens? = some shape → last.closes? = some shape →
      partner[k]? = some (some (k + inner.length + 1)) →
      partner[k + inner.length + 1]? = some (some k) →
      Nested partner (k + 1) inner → Nested partner (k + inner.length + 1 + 1) ts →
      Nested partner k (first :: (inner ++ last :: ts))

/-- Balanced tokens of a table nest as its partners say. -/
theorem Balanced.nested {source : String} {table : TokenTable}
    (htable : tokenize source = .ok table) {ts : List Token} (h : Balanced ts)
    (before behind : List Token) (htokens : table.tokens.toList = before ++ (ts ++ behind)) :
    Nested table.partner before.length ts := by
  induction h generalizing before behind with
  | nil => exact .nil
  | @other t ts hopen hclose _ ih =>
    have hrest := ih (before ++ [t]) behind (by simp [htokens])
    rw [List.length_append] at hrest
    exact .other hopen hclose (partner_of_other htable htokens hopen hclose) hrest
  | @group first last inner ts shape hopen hclose hbalanced _ ihInner ih =>
    have htokens' : table.tokens.toList = before ++ first :: (inner ++ last :: (ts ++ behind)) := by
      simp [htokens]
    obtain ⟨hfirst, hlast⟩ := partner_of_group htable htokens' hopen hclose hbalanced
    have hinner := ihInner (before ++ [first]) (last :: (ts ++ behind))
      (by simp [htokens])
    have hrest := ih (before ++ first :: (inner ++ [last])) behind
      (by simp [htokens])
    simp only [List.length_append, List.length_cons, List.length_nil] at hinner hrest
    exact .group hopen hclose hfirst hlast hinner (by simpa [Nat.add_assoc] using hrest)

namespace Nested

variable {partner : Array (Option Nat)} {k i j : Nat} {ts : List Token}

/-- Partners are partners of each other, and lie between the same tokens. -/
theorem partner_mem (h : Nested partner k ts) (hi : k ≤ i) (hlt : i < k + ts.length)
    (hpartner : partner[i]? = some (some j)) :
    k ≤ j ∧ j < k + ts.length ∧ partner[j]? = some (some i) := by
  induction h with
  | nil =>
    rw [List.length_nil] at hlt
    omega
  | @other k t ts _ _ hnone _ ih =>
    rw [List.length_cons] at hlt ⊢
    have hne : i ≠ k := by
      rintro rfl
      rw [hnone] at hpartner
      cases hpartner
    obtain ⟨hle, hlt', hback⟩ := ih (by omega) (by omega)
    exact ⟨by omega, by omega, hback⟩
  | @group k first last inner ts _ _ _ hfirst hlast _ _ ihInner ih =>
    simp only [List.length_cons, List.length_append] at hlt ⊢
    by_cases hend : k + inner.length + 1 < i
    · obtain ⟨hle, hlt', hback⟩ := ih (by omega) (by omega)
      exact ⟨by omega, by omega, hback⟩
    · by_cases hinner : k < i ∧ i < k + inner.length + 1
      · obtain ⟨hle, hlt', hback⟩ := ihInner (by omega) (by omega)
        exact ⟨by omega, by omega, hback⟩
      · obtain rfl | rfl : i = k ∨ i = k + inner.length + 1 := by omega
        · rw [hfirst] at hpartner
          cases hpartner
          exact ⟨by omega, by omega, hlast⟩
        · rw [hlast] at hpartner
          cases hpartner
          exact ⟨by omega, by omega, hfirst⟩

/-- A token is no bracket and has no partner, or opens a group whose tokens nest and is the
partner of the bracket behind them, or closes one. -/
theorem cases_getElem? (h : Nested partner k ts) {t : Token} (ht : ts[i]? = some t) :
    (¬ t.IsBracket ∧ partner[k + i]? = some none) ∨
    (t.opens? ≠ none ∧ ∃ inner, Nested partner (k + i + 1) inner ∧
      partner[k + i]? = some (some (k + i + inner.length + 1)) ∧
      partner[k + i + inner.length + 1]? = some (some (k + i))) ∨
    (t.opens? = none ∧ t.closes? ≠ none ∧ ∃ j, partner[k + i]? = some (some j)) := by
  induction h generalizing i with
  | nil => simp at ht
  | @other k u ts hopen hclose hnone _ ih =>
    cases i with
    | zero =>
      obtain rfl := Option.some.inj ht
      exact .inl ⟨by simp [Token.IsBracket, hopen, hclose], hnone⟩
    | succ i =>
      rw [show k + (i + 1) = k + 1 + i by omega]
      exact ih ht
  | @group k first last inner ts shape hopen hclose hfirst hlast hinner _ ihInner ih =>
    cases i with
    | zero =>
      obtain rfl := Option.some.inj ht
      exact .inr (.inl ⟨by simp [hopen], inner, hinner, hfirst, hlast⟩)
    | succ i =>
      rw [List.getElem?_cons_succ] at ht
      rw [show k + (i + 1) = k + 1 + i by omega]
      rcases Nat.lt_trichotomy i inner.length with hlt | rfl | hgt
      · rw [List.getElem?_append_left hlt] at ht
        exact ihInner ht
      · rw [List.getElem?_append_right (Nat.le_refl _), Nat.sub_self] at ht
        obtain rfl := Option.some.inj ht
        rw [show k + 1 + inner.length = k + inner.length + 1 by omega]
        exact .inr (.inr ⟨Token.opens?_eq_none_of_closes? hclose, by simp [hclose], k, hlast⟩)
      · obtain ⟨n, rfl⟩ := Nat.exists_eq_add_of_lt hgt
        rw [List.getElem?_append_right (by omega),
          show inner.length + n + 1 - inner.length = n + 1 by omega] at ht
        rw [show k + 1 + (inner.length + n + 1) = k + inner.length + 1 + 1 + n by omega]
        exact ih ht

/-- The tokens with a partner are the brackets. -/
theorem exists_partner_iff (h : Nested partner k ts) {t : Token} (ht : ts[i]? = some t) :
    (∃ j, partner[k + i]? = some (some j)) ↔ t.IsBracket := by
  rcases h.cases_getElem? ht with ⟨hother, hnone⟩ | ⟨hopen, inner, -, hpartner, -⟩ |
    ⟨-, hclose, j, hpartner⟩
  · simp [hnone, hother]
  · simp [hpartner, Token.IsBracket, hopen]
  · simp [hpartner, Token.IsBracket, hclose]

/-- If a bracket is kept exactly if its partner is, the kept tokens are balanced. -/
theorem balanced_filter (h : Nested partner k ts) {keeps : Nat → Bool}
    (hkeeps : ∀ i j, partner[i]? = some (some j) → keeps i = keeps j) :
    Balanced (((ts.zipIdx k).filter fun m => keeps m.2).map Prod.fst) := by
  induction h with
  | nil => exact .nil
  | @other k t ts hopen hclose _ _ ih =>
    rw [List.zipIdx_cons, List.filter_cons]
    split
    · exact .other hopen hclose ih
    · exact ih
  | @group k first last inner ts shape hopen hclose hfirst _ _ _ ihInner ih =>
    have hsame := hkeeps _ _ hfirst
    rw [List.zipIdx_cons, List.zipIdx_append, List.zipIdx_cons,
      show k + 1 + inner.length = k + inner.length + 1 by omega, List.filter_cons]
    simp only [List.filter_append, List.filter_cons, ← hsame]
    cases keeps k with
    | true => simpa using .group hopen hclose ihInner ih
    | false => simpa using ihInner.append ih

end Nested

/-- The range holds a bracket exactly if it holds the partner of the bracket. -/
def TokenTable.Whole (table : TokenTable) (first stop : Nat) : Prop :=
  ∀ i j, table.partner[i]? = some (some j) → (first ≤ i ∧ i < stop ↔ first ≤ j ∧ j < stop)

namespace TokenTable

variable {table : TokenTable} {k m e : Nat}

theorem Whole.trans (h : table.Whole k m) (h' : table.Whole m e) (hkm : k ≤ m) (hme : m ≤ e) :
    table.Whole k e := by
  intro i j hij
  have := h i j hij
  have := h' i j hij
  omega

theorem whole_self : table.Whole k k := by
  intro i j _
  omega

end TokenTable

section

variable {source : String} {table : TokenTable} (htable : tokenize source = .ok table)
  {i j k e : Nat}

include htable

theorem nested_of_tokenize : Nested table.partner 0 table.tokens.toList := by
  obtain ⟨-, hbalanced⟩ := exists_tokenize_iff.mp ⟨table, htable, rfl⟩
  exact hbalanced.nested htable [] [] (by simp)

/-- Only a token has a partner. -/
theorem lt_size_of_partner (h : table.partner[i]? = some (some j)) : i < table.tokens.size := by
  obtain ⟨-, q, hq, -, hpartner⟩ := tokenize_eq_ok_iff.mp htable
  have hlt := (Array.getElem?_eq_some_iff.mp h).1
  rwa [← hpartner, Pairing.size_partner_of_takeAll hq, Array.size_replicate] at hlt

/-- Tokens are partners of each other. -/
theorem partner_symm (h : table.partner[i]? = some (some j)) :
    table.partner[j]? = some (some i) := by
  have hlt := lt_size_of_partner htable h
  exact ((nested_of_tokenize htable).partner_mem (Nat.zero_le i) (by simpa using hlt) h).2.2

/-- A token with a partner is a bracket in front of the end of the source. -/
theorem bracket_of_partner (h : table.partner[i]? = some (some j)) :
    table.kind i = .punctuator ∧ table.text i ∈ bracketMarks ∧ i < table.finish := by
  have hlt := lt_size_of_partner htable h
  have htoken : table.tokens.toList[i]? = some table.tokens[i] := by
    simp [hlt]
  have hbracket : table.tokens[i].IsBracket :=
    ((nested_of_tokenize htable).exists_partner_iff htoken).mp ⟨j, by rwa [Nat.zero_add]⟩
  obtain ⟨t, ts, htokens, hof⟩ := readTokens_eq_iff.mp (tokenize_eq_ok_iff.mp htable).1
  obtain ⟨front, last, heq, -, htext, hformed, -⟩ := readsOn_iff.mp hof.reads
  have hsize : table.tokens.size = front.length + 1 := by
    rw [← Array.length_toList, htokens, heq, List.length_append, List.length_singleton]
  have hmem := Token.text_mem_of_isBracket hbracket
  rw [htokens, heq] at htoken
  have hfront : i < front.length := by
    by_contra hle
    obtain rfl : i = front.length := by omega
    rw [List.getElem?_append_right (Nat.le_refl _), Nat.sub_self] at htoken
    obtain rfl := Option.some.inj htoken
    rw [htext] at hmem
    revert hmem
    decide
  rw [List.getElem?_append_left hfront] at htoken
  have hkind := (hformed _ (List.mem_of_getElem? htoken)).kind_of_isBracket hbracket
  refine ⟨?_, ?_, ?_⟩
  · simpa [TokenTable.kind, hlt] using hkind
  · simpa [TokenTable.text, hlt] using hmem
  · rw [TokenTable.finish]
    omega

/-- A bracketed group holds brackets with their partners. -/
theorem whole_group {text : String} (h : table.is k text = true)
    (htext : text ∈ ["(", "[", "\x7b"]) : table.Whole k (table.closeOf k + 1) := by
  have hlt := table.lt_size_of_is h
  have htoken : table.tokens.toList[k]? = some table.tokens[k] := by
    simp [hlt]
  have his : table.tokens[k].is text = true := by simpa [TokenTable.is, hlt] using h
  have hopen : table.tokens[k].opens? ≠ none := Token.opens?_ne_none_of_is his htext
  have hgroup := (nested_of_tokenize htable).cases_getElem? htoken
  rw [Nat.zero_add] at hgroup
  rcases hgroup with ⟨hother, -⟩ | ⟨-, inner, hinner, hfirst, hlast⟩ | ⟨hnone, -⟩
  · exact absurd (.inl hopen) hother
  · have hclose : table.closeOf k = k + inner.length + 1 := by
      rw [TokenTable.closeOf, hfirst]
      exact Nat.max_eq_right (by omega)
    have hmem : ∀ i j, table.partner[i]? = some (some j) → k ≤ i → i ≤ k + inner.length + 1 →
        k ≤ j ∧ j ≤ k + inner.length + 1 := by
      intro i j hij hki hic
      by_cases hin : k < i ∧ i < k + inner.length + 1
      · obtain ⟨hle, hlt, -⟩ := hinner.partner_mem (by omega) (by omega) hij
        omega
      · obtain rfl | rfl : i = k ∨ i = k + inner.length + 1 := by omega
        · rw [hfirst] at hij
          cases hij
          omega
        · rw [hlast] at hij
          cases hij
          omega
    intro i j hij
    have hforward := hmem i j hij
    have hback := hmem j i (partner_symm htable hij)
    omega
  · exact absurd hnone hopen

/-- A token that is no bracket. -/
theorem whole_plain (h : table.kind k = .punctuator → table.text k ∉ bracketMarks) :
    table.Whole k (k + 1) := by
  have hnone : ∀ j, table.partner[k]? ≠ some (some j) := by
    intro j hj
    obtain ⟨hkind, hmem, -⟩ := bracket_of_partner htable hj
    exact h hkind hmem
  intro i j hij
  have hi : i ≠ k := fun heq => hnone j (heq ▸ hij)
  have hj : j ≠ k := fun heq => hnone i (heq ▸ partner_symm htable hij)
  omega

/-- A chain of whole groups and other tokens holds brackets with their partners. -/
theorem TokenTable.Span.whole (h : table.Span k e) : table.Whole k e := by
  induction h with
  | nil => exact whole_self
  | @plain k e _ hk hspan ih =>
    have hother : table.Whole k (k + 1) :=
      whole_plain htable fun hkind hmem => hk hkind (List.mem_append_left _ hmem)
    exact hother.trans ih (Nat.le_succ k) hspan.le
  | @group k e text hk htext hspan ih =>
    have hle := table.le_closeOf k
    exact (whole_group htable hk htext).trans ih (by omega) hspan.le

theorem whole_afterSemicolon (h : table.Span k m) : table.Whole k (table.afterSemicolon m) := by
  unfold TokenTable.afterSemicolon
  split
  · rename_i hsemicolon
    have hplain : table.Whole m (m + 1) :=
      whole_plain htable fun _ => by rw [TokenTable.text_of_is hsemicolon]; decide
    exact (h.whole htable).trans hplain h.le (Nat.le_succ m)
  · exact h.whole htable

/-- A range is whole up to a token from which on it is, exactly if the token is on the level of
the first one. -/
theorem whole_iff_around_eq {first a stop : Nat} (hfirst : table.Whole first (first + 1))
    (hwhole : table.Whole a stop) (hlt : first < a) (hstop : a < stop) :
    table.Whole first stop ↔ table.around a = table.around first := by
  constructor
  · intro h
    refine List.filter_congr fun g _ => decide_eq_decide.mpr ⟨?_, ?_⟩
    · rintro ⟨hga, hac⟩
      have hpartner := TokenTable.partner_of_lt_closeOf (Nat.lt_trans hga hac)
      have := h _ _ hpartner
      have := hwhole _ _ hpartner
      omega
    · rintro ⟨hgf, hfc⟩
      have := h _ _ (TokenTable.partner_of_lt_closeOf (Nat.lt_trans hgf hfc))
      omega
  · intro hlevel
    have hin : ∀ i j, table.partner[i]? = some (some j) → first ≤ i → i < a →
        first ≤ j ∧ j < a := by
      intro i j hij hi hia
      have hji := partner_symm htable hij
      have hclose {g c : Nat} (h : table.partner[g]? = some (some c)) (hgc : g ≤ c) :
          table.closeOf g = c := by
        rw [TokenTable.closeOf, h]
        exact Nat.max_eq_right hgc
      by_contra hout
      rcases Nat.lt_or_ge j first with hj | hj
      · -- A group around the first token ends in front of `a`.
        have hne : i ≠ first := by
          rintro rfl
          have := hfirst _ _ hij
          omega
        have hmem : j ∈ table.around first := by
          rw [TokenTable.mem_around_iff, hclose hji (by omega)]
          exact ⟨lt_size_of_partner htable hji, hj, by omega⟩
        rw [← hlevel, TokenTable.mem_around_iff, hclose hji (by omega)] at hmem
        omega
      · -- A group that starts in the range ends behind `a`.
        have hne : j ≠ a := by
          rintro rfl
          have := hwhole _ _ hji
          omega
        have hmem : i ∈ table.around a := by
          rw [TokenTable.mem_around_iff, hclose hij (by omega)]
          exact ⟨lt_size_of_partner htable hij, hia, by omega⟩
        rw [hlevel, TokenTable.mem_around_iff] at hmem
        omega
    have hfront : table.Whole first a := fun i j hij =>
      ⟨fun hi => hin i j hij hi.1 hi.2, fun hj => hin j i (partner_symm htable hij) hj.1 hj.2⟩
    exact hfront.trans hwhole (Nat.le_of_lt hlt) (Nat.le_of_lt hstop)

/-- What is removed of a statement holds brackets with their partners, exactly if the token that
its end is searched by, if there is one, is on the level of the statement. -/
theorem whole_iff_of_statementRemoval {r : TokenTable.Removal i}
    (h : table.statementRemoval i = .ok (some r)) : table.Whole r.first r.stop ↔
      ∀ a ∈ table.sought? i, table.around a = table.around r.first := by
  cases hsearch : table.endsBySearch i with
  | false =>
    obtain ⟨m, hspan, hstop⟩ := TokenTable.span_of_statementRemoval h hsearch
    have hwhole : table.Whole r.first r.stop := hstop ▸ whole_afterSemicolon htable hspan
    simp [TokenTable.sought?_of_not_endsBySearch hsearch, hwhole]
  | true =>
    obtain ⟨a, ha, hends⟩ := TokenTable.exists_sought h hsearch
    have hchain : table.Whole a r.stop := by
      obtain ⟨m, hspan, hstop | hstop⟩ := hends.chain
      · exact hstop ▸ hspan.whole htable
      · exact hstop ▸ whole_afterSemicolon htable hspan
    rw [whole_iff_around_eq htable (hends.front.whole htable) hchain hends.first_lt hends.lt_stop]
    simp [ha]

/-- Removing brackets with their partners keeps it so that a bracket is kept exactly if its
partner is. -/
theorem keeps_partner_remove {s : Erasure} {first stop : Nat} (hwhole : table.Whole first stop)
    (hs : ∀ i j, table.partner[i]? = some (some j) → s.keeps i = s.keeps j)
    (hij : table.partner[i]? = some (some j)) :
    (s.remove table first stop).keeps i = (s.remove table first stop).keeps j := by
  have hrange := hwhole i j hij
  obtain ⟨-, -, hi⟩ := bracket_of_partner htable hij
  obtain ⟨-, -, hj⟩ := bracket_of_partner htable (partner_symm htable hij)
  have heq : (decide (first ≤ i) && decide (i < min stop table.finish)) =
      (decide (first ≤ j) && decide (j < min stop table.finish)) := by
    rw [Bool.eq_iff_iff]
    simp only [Bool.and_eq_true, decide_eq_true_eq]
    omega
  rw [Erasure.keeps_remove, Erasure.keeps_remove, hs i j hij, heq]

/-- If the token that the end of a removed statement is searched by is on the level of the
statement, each bracket of a script that is accepted is kept exactly if its partner is, and the
brackets of what is written out pair up. -/
theorem partners_kept_of_run {s : Erasure} (hrun : Erasure.run table (.start table) 0 = .ok s)
    (hlevel : ∀ i r, table.statementRemoval i = .ok (some r) →
      (∀ k, r.first ≤ k → k < r.stop → k < table.finish → s.keeps k = false) →
      ∀ a ∈ table.sought? i, table.around a = table.around r.first) :
    eraseTypes source = .ok (table.emit s) ∧
      (∀ i t, table.tokens[i]? = some t → t.IsBracket →
        ∃ j, table.partner[i]? = some (some j) ∧ s.keeps i = s.keeps j) ∧
      Balanced (table.written s) := by
  -- What the run has removed at any time is removed at its end, so it is enough to look at marks
  -- of which those at the end are left.
  have hP : KeptByRemoval table fun kept =>
      (∀ k, s.keeps k = true → (kept[k]? == some true) = true) →
      ∀ i j : Nat, table.partner[i]? = some (some j) →
        (kept[i]? == some true) = (kept[j]? == some true) := by
    intro s' first stop hremovable hs' hleft i j hij
    have hkept : ∀ k, s.keeps k = true → (s'.remove table first stop).keeps k = true := hleft
    simp only [Erasure.keeps_remove, Bool.and_eq_true, Bool.not_eq_true', Bool.and_eq_false_iff,
      decide_eq_false_iff_not] at hkept
    have hwhole : table.Whole first stop := by
      cases hremovable with
      | span hspan => exact hspan.whole htable
      | @statement i r hremoval =>
        refine (whole_iff_of_statementRemoval htable hremoval).mpr
          (hlevel i r hremoval fun k hfirst hstop hfinish => ?_)
        by_contra hk
        have := (hkept k (by simpa using hk)).2
        omega
    exact keeps_partner_remove htable hwhole (hs' fun k hk => (hkept k hk).1) hij
  have hkeeps : ∀ i j, table.partner[i]? = some (some j) → s.keeps i = s.keeps j := by
    refine hP.run hrun (fun _ i j hij => ?_) fun _ hk => hk
    obtain ⟨-, -, hi⟩ := bracket_of_partner htable hij
    obtain ⟨-, -, hj⟩ := bracket_of_partner htable (partner_symm htable hij)
    rw [TokenTable.finish] at hi hj
    simp [Erasure.start, show i < table.tokens.size by omega, show j < table.tokens.size by omega]
  have hnested := nested_of_tokenize htable
  refine ⟨by simp only [eraseTypes, htable, hrun], fun i t ht hbracket => ?_, ?_⟩
  · obtain ⟨j, hj⟩ := (hnested.exists_partner_iff (by simpa using ht)).mpr hbracket
    rw [Nat.zero_add] at hj
    exact ⟨j, hj, hkeeps i j hj⟩
  · have hkept : table.keptTokens s =
        ((table.tokens.toList.zipIdx.filter fun m => s.keeps m.2).map Prod.fst) := by
      simp only [TokenTable.keptTokens, TokenTable.marked, List.mapIdx_eq_zipIdx_map,
        List.filter_map, List.map_map]
      rfl
    have hbalanced := hnested.balanced_filter hkeeps
    rw [← hkept] at hbalanced
    exact hbalanced.of_spelling TokenTable.map_spelling_written.symm

end

/-- The search for a body or a module starts at a token. -/
theorem TokenTable.lt_size_of_sought {table : TokenTable} {i a : Nat} (h : a ∈ table.sought? i) :
    i < table.tokens.size := by
  cases hsearch : table.endsBySearch i with
  | false => simp [sought?_of_not_endsBySearch hsearch] at h
  | true =>
    by_contra hi
    have hnone : table.tokens[i]? = none := Array.getElem?_eq_none (Nat.le_of_not_lt hi)
    simp [endsBySearch, TokenTable.is, TokenTable.text, hnone] at hsearch

/-- An interface and a type annotation are removed with all their brackets. -/
theorem partners_kept_interface : ∃ table s,
    tokenize "interface A \x7b f(x: number[]): string \x7d\nconst a = [g(b as A[])];" = .ok table ∧
    Erasure.run table (.start table) 0 = .ok s ∧ Balanced (table.written s) := by
  obtain ⟨table, s, htable, hrun, hcheck⟩ := exists_run_of_bind
    "interface A \x7b f(x: number[]): string \x7d\nconst a = [g(b as A[])];"
    (fun table s => (List.range table.tokens.size).all fun i =>
      (table.statementRemoval i).toOption.join.all fun r =>
        (table.sought? i).all fun a => table.around a == table.around r.first) (by decide +kernel)
  refine ⟨table, s, htable, hrun, (partners_kept_of_run htable hrun fun i r hr _ a ha => ?_).2.2⟩
  have hi := TokenTable.lt_size_of_sought ha
  have hlevel := List.all_eq_true.mp hcheck i (List.mem_range.mpr hi)
  simpa [hr, Option.mem_def.mp ha, Except.toOption] using hlevel

/-- A type-only import of a whole module ends at the module's name, so that the bracket
behind the name is kept and the one in front of it is not. -/
theorem exists_lone_bracket : ∃ table s i j,
    tokenize "import type fs = require(\"fs\");" = .ok table ∧
      Erasure.run table (.start table) 0 = .ok s ∧
      eraseTypes "import type fs = require(\"fs\");" = .ok ");" ∧
      table.partner[i]? = some (some j) ∧ s.keeps i = false ∧ s.keeps j = true ∧
      ¬ Balanced (table.written s) := by
  obtain ⟨table, s, htable, hrun, hcheck⟩ := exists_run_of_bind
    "import type fs = require(\"fs\");"
    (fun table s => table.partner[5]? == some (some 7) && !s.keeps 5 && s.keeps 7 &&
      ((Pairing.mk #[] []).takeAll 0 (table.written s)).toOption.isNone) (by decide +kernel)
  simp only [Bool.and_eq_true, beq_iff_eq, Bool.not_eq_true'] at hcheck
  obtain ⟨⟨⟨hpartner, hopen⟩, hclose⟩, hfault⟩ := hcheck
  refine ⟨table, s, 5, 7, htable, hrun, by decide +kernel, hpartner, hopen, hclose,
    fun hbalanced => ?_⟩
  obtain ⟨q, hq, -⟩ := hbalanced.takeAll_eq_ok ⟨#[], []⟩ 0
  simp [hq, Except.toOption] at hfault

end Workflow.Script
