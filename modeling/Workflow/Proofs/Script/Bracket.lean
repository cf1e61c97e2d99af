import Mathlib.Tactic.Common
import Workflow.Proofs.Script.Reading
import Workflow.Script.TokenTable

/-!
# Brackets that pair up

Tokens are balanced if their brackets nest and every bracket is closed by one of its
shape. The stack of open brackets accepts exactly the balanced tokens, and it pairs the
first bracket of a balanced group with the last one. So a source has a table exactly if
it can be read and its tokens are balanced.
-/

namespace Workflow.Script

/-- The brackets of the tokens nest, and each is closed by one of its shape. -/
inductive Balanced : List Token → Prop
  | nil : Balanced []
  | other {t : Token} {ts : List Token} : t.opens? = none → t.closes? = none → Balanced ts →
      Balanced (t :: ts)
  | group {first last : Token} {inner ts : List Token} {shape : Bracket} :
      first.opens? = some shape → last.closes? = some shape → Balanced inner → Balanced ts →
      Balanced (first :: (inner ++ last :: ts))

/-- Balanced tokens may follow each other. -/
theorem Balanced.append {ts us : List Token} (h : Balanced ts) (hu : Balanced us) :
    Balanced (ts ++ us) := by
  induction h with
  | nil => exact hu
  | other hopen hclose _ ih => exact .other hopen hclose ih
  | group hopen hclose hinner _ _ ih =>
    rw [List.cons_append, List.append_assoc, List.cons_append]
    exact .group hopen hclose hinner ih

/-- A token that is one word or mark is no other. -/
theorem Token.is_eq_of_is {t : Token} {text : String} (h : t.is text = true) (other : String) :
    t.is other = (text == other) := by
  simp only [Token.is, Bool.and_eq_true, beq_iff_eq] at h ⊢
  rw [h.1, h.2, Bool.true_and]

/-- A token that opens a bracket is the opening mark of its shape. -/
theorem Token.is_of_opens? {t : Token} {shape : Bracket} (h : t.opens? = some shape)
    (text : String) : t.is text = (String.singleton shape.opening == text) := by
  unfold Token.opens? at h
  split_ifs at h with hround hsquare hcurly <;> cases h
  · exact is_eq_of_is hround text
  · exact is_eq_of_is hsquare text
  · exact is_eq_of_is hcurly text

/-- A token that closes a bracket is the closing mark of its shape. -/
theorem Token.is_of_closes? {t : Token} {shape : Bracket} (h : t.closes? = some shape)
    (text : String) : t.is text = (String.singleton shape.closing == text) := by
  unfold Token.closes? at h
  split_ifs at h with hround hsquare hcurly <;> cases h
  · exact is_eq_of_is hround text
  · exact is_eq_of_is hsquare text
  · exact is_eq_of_is hcurly text

/-- A token opens nothing if it is none of the three opening brackets. -/
theorem Token.opens?_eq_none_iff {t : Token} :
    t.opens? = none ↔ t.is "(" = false ∧ t.is "[" = false ∧ t.is "\x7b" = false := by
  unfold Token.opens?
  cases t.is "(" <;> cases t.is "[" <;> cases t.is "\x7b" <;> simp

/-- A token closes nothing if it is none of the three closing brackets. -/
theorem Token.closes?_eq_none_iff {t : Token} :
    t.closes? = none ↔ t.is ")" = false ∧ t.is "]" = false ∧ t.is "\x7d" = false := by
  unfold Token.closes?
  cases t.is ")" <;> cases t.is "]" <;> cases t.is "\x7d" <;> simp

/-- A closing bracket opens none. -/
theorem Token.opens?_eq_none_of_closes? {t : Token} {shape : Bracket}
    (h : t.closes? = some shape) : t.opens? = none := by
  rw [opens?_eq_none_iff, is_of_closes? h, is_of_closes? h, is_of_closes? h]
  cases shape <;> decide

/-- No token opens a group and closes one. -/
theorem Token.closes?_eq_none_of_opens? {t : Token} {shape : Bracket}
    (h : t.opens? = some shape) : t.closes? = none := by
  refine Option.eq_none_iff_forall_not_mem.mpr fun other hcloses => ?_
  rw [opens?_eq_none_of_closes? hcloses] at h
  cases h

/-- The token is no bracket. -/
def Token.IsNoBracket (t : Token) : Prop := t.opens? = none ∧ t.closes? = none

theorem Token.isNoBracket_of_is {t : Token}
    (h : ∀ text ∈ ["(", "[", "\x7b", ")", "]", "\x7d"], t.is text = false) : t.IsNoBracket := by
  simp only [List.mem_cons, List.not_mem_nil, or_false, forall_eq_or_imp, forall_eq] at h
  obtain ⟨h₁, h₂, h₃, h₄, h₅, h₆⟩ := h
  exact ⟨opens?_eq_none_iff.mpr ⟨h₁, h₂, h₃⟩, closes?_eq_none_iff.mpr ⟨h₄, h₅, h₆⟩⟩

/-- A token without the text of a bracket is none. -/
theorem Token.isNoBracket_of_text {t : Token}
    (h : t.text ∉ ["(", "[", "\x7b", ")", "]", "\x7d"]) : t.IsNoBracket := by
  refine isNoBracket_of_is fun text hmem => ?_
  have hne : t.text ≠ text := fun heq => h (heq ▸ hmem)
  simp [Token.is, hne]

/-- How much deeper in brackets it is behind the token than in front of it. -/
def Token.weight (t : Token) : Int :=
  if t.opens?.isSome then 1 else if t.closes?.isSome then -1 else 0

/-- An opening bracket takes the depth up by one. -/
theorem Token.weight_of_opens? {t : Token} {shape : Bracket} (h : t.opens? = some shape) :
    t.weight = 1 := by
  simp [weight, h]

theorem Token.weight_of_closes? {t : Token} {shape : Bracket} (h : t.closes? = some shape) :
    t.weight = -1 := by
  simp [weight, opens?_eq_none_of_closes? h, h]

/-- A token that is no bracket leaves the depth as it is. -/
theorem Token.IsNoBracket.weight_eq {t : Token} (h : t.IsNoBracket) : t.weight = 0 := by
  simp [weight, h.1, h.2]

/-- The number of brackets that the tokens open less the number of those that they close. -/
def depth : List Token → Int
  | [] => 0
  | t :: ts => t.weight + depth ts

@[simp] theorem depth_nil : depth [] = 0 := rfl

@[simp] theorem depth_cons (t : Token) (ts : List Token) :
    depth (t :: ts) = t.weight + depth ts := rfl

/-- The depth behind two parts is the sum of what they take it up by. -/
@[simp] theorem depth_append (ts us : List Token) : depth (ts ++ us) = depth ts + depth us := by
  induction ts with
  | nil => simp
  | cons t ts ih => simp [ih, Int.add_assoc]

namespace Balanced

variable {t first last : Token} {ts inner front back : List Token} {shape : Bracket}

/-- Balanced tokens leave the depth as it is. -/
theorem depth_eq (h : Balanced ts) : depth ts = 0 := by
  induction h with
  | nil => rfl
  | other hopen hclose _ ih => simp [Token.IsNoBracket.weight_eq ⟨hopen, hclose⟩, ih]
  | group hopen hclose _ _ ihInner ih =>
    simp [Token.weight_of_opens? hopen, Token.weight_of_closes? hclose, ihInner, ih]

/-- Balanced tokens close no bracket that they have not opened. -/
theorem depth_nonneg (h : Balanced ts) (hsplit : ts = front ++ back) : 0 ≤ depth front := by
  induction h generalizing front back with
  | nil => simp [(List.nil_eq_append_iff.mp hsplit).1]
  | other hopen hclose _ ih =>
    rcases List.cons_eq_append_iff.mp hsplit with ⟨rfl, -⟩ | ⟨front, rfl, hrest⟩
    · simp
    · have hfront := ih hrest
      simpa [Token.IsNoBracket.weight_eq ⟨hopen, hclose⟩] using hfront
  | group hopen hclose hinner _ ihInner ih =>
    rcases List.cons_eq_append_iff.mp hsplit with ⟨rfl, -⟩ | ⟨front, rfl, hrest⟩
    · simp
    have hfirst := Token.weight_of_opens? hopen
    rcases List.append_eq_append_iff.mp hrest with ⟨a, rfl, ha⟩ | ⟨c, hc, -⟩
    · rcases List.cons_eq_append_iff.mp ha with ⟨rfl, -⟩ | ⟨b, rfl, hb⟩
      · simp [hfirst, hinner.depth_eq]
      · have hbehind := ih hb
        simp only [depth_cons, depth_append, hfirst, hinner.depth_eq,
          Token.weight_of_closes? hclose]
        omega
    · have hinside := ihInner hc
      rw [depth_cons, hfirst]
      omega

/-- Between the brackets of a group it is deeper than in front of it. -/
theorem depth_pos_of_group (hinner : Balanced inner) (hopen : first.opens? = some shape)
    (hsplit : first :: (inner ++ [last]) = front ++ back) (hfront : front ≠ [])
    (hback : back ≠ []) : 0 < depth front := by
  rcases List.cons_eq_append_iff.mp hsplit with ⟨rfl, -⟩ | ⟨front, rfl, hrest⟩
  · exact absurd rfl hfront
  have hprefix : ∃ c, inner = front ++ c := by
    rcases List.append_eq_append_iff.mp hrest with ⟨a, rfl, ha⟩ | ⟨c, hc, -⟩
    · rcases List.cons_eq_append_iff.mp ha with ⟨rfl, -⟩ | ⟨b, rfl, hb⟩
      · exact ⟨[], by simp⟩
      · exact absurd (List.append_eq_nil_iff.mp hb.symm).2 hback
    · exact ⟨c, hc⟩
  obtain ⟨c, hc⟩ := hprefix
  have hinside := hinner.depth_nonneg hc
  rw [depth_cons, Token.weight_of_opens? hopen]
  omega

end Balanced

namespace Pairing

variable {p q : Pairing} {index : Nat} {t : Token} {ts us : List Token}

/-- An opening bracket waits for its partner, innermost first. -/
theorem take_open {shape : Bracket} (h : t.opens? = some shape) :
    p.take index t = .ok ⟨p.partner, ⟨shape, index, t.start⟩ :: p.opened⟩ := by
  simp [take, h]

/-- A closing bracket is paired with the innermost open one, if that is of its shape. -/
theorem take_close {shape : Bracket} {inner : OpenBracket} {outer : List OpenBracket}
    (h : t.closes? = some shape) (hopened : p.opened = inner :: outer)
    (hshape : inner.shape = shape) :
    p.take index t = .ok ⟨p.link inner.index index, outer⟩ := by
  simp [take, Token.opens?_eq_none_of_closes? h, h, hopened, hshape]

/-- Any other token leaves the pairs and the open brackets as they are. -/
theorem take_other (hopen : t.opens? = none) (hclose : t.closes? = none) :
    p.take index t = .ok p := by
  simp [take, hopen, hclose]

/-- What a closing bracket that is accepted pairs with. -/
theorem exists_of_take_close {shape : Bracket} (h : t.closes? = some shape)
    (htake : p.take index t = .ok q) : ∃ inner outer, p.opened = inner :: outer ∧
      inner.shape = shape ∧ q = ⟨p.link inner.index index, outer⟩ := by
  simp only [take, Token.opens?_eq_none_of_closes? h, h] at htake
  split at htake
  · cases htake
  · rename_i inner outer hopened
    split at htake
    · rename_i hshape
      cases htake
      exact ⟨inner, outer, hopened, hshape, rfl⟩
    · cases htake

theorem takeAll_cons (htake : p.take index t = .ok q) :
    p.takeAll index (t :: ts) = q.takeAll (index + 1) ts := by
  rw [takeAll, htake]

/-- What pairs all tokens pairs the first one, and then the others. -/
theorem exists_of_takeAll_cons {r : Pairing} (h : p.takeAll index (t :: ts) = .ok r) :
    ∃ q, p.take index t = .ok q ∧ q.takeAll (index + 1) ts = .ok r := by
  rw [takeAll] at h
  split at h
  · cases h
  · rename_i q hq
    exact ⟨q, hq, h⟩

/-- The pairing of some tokens goes on with those behind them. -/
theorem takeAll_append (h : p.takeAll index ts = .ok q) :
    p.takeAll index (ts ++ us) = q.takeAll (index + ts.length) us := by
  induction ts generalizing p index with
  | nil =>
    cases h
    rfl
  | cons t ts ih =>
    obtain ⟨r, hr, htail⟩ := exists_of_takeAll_cons h
    rw [List.cons_append, takeAll_cons hr, ih htail, List.length_cons]
    congr 1
    omega

/-- What pairs all tokens pairs the first ones, and then those behind them. -/
theorem exists_of_takeAll_append {r : Pairing} (h : p.takeAll index (ts ++ us) = .ok r) :
    ∃ q, p.takeAll index ts = .ok q ∧ q.takeAll (index + ts.length) us = .ok r := by
  induction ts generalizing p index with
  | nil => exact ⟨p, rfl, h⟩
  | cons t ts ih =>
    obtain ⟨q, hq, htail⟩ := exists_of_takeAll_cons h
    obtain ⟨q', hq', hrest⟩ := ih htail
    refine ⟨q', by rw [takeAll_cons hq, hq'], ?_⟩
    rw [List.length_cons, Nat.add_comm ts.length, ← Nat.add_assoc]
    exact hrest

/-- The array of partners keeps its size. -/
theorem size_partner_of_takeAll (h : p.takeAll index ts = .ok q) :
    q.partner.size = p.partner.size := by
  induction ts generalizing p index with
  | nil =>
    cases h
    rfl
  | cons t ts ih =>
    obtain ⟨r, hr, htail⟩ := exists_of_takeAll_cons h
    rw [ih htail]
    cases hopen : t.opens? with
    | some shape =>
      rw [take_open hopen] at hr
      cases hr
      rfl
    | none =>
      cases hclose : t.closes? with
      | none =>
        rw [take_other hopen hclose] at hr
        cases hr
        rfl
      | some shape =>
        obtain ⟨inner, outer, -, -, rfl⟩ := exists_of_take_close hclose hr
        simp [link]

/-- The open brackets lie before the tokens still to be taken. -/
theorem index_lt_of_takeAll (h : p.takeAll index ts = .ok q)
    (hopened : ∀ b ∈ p.opened, b.index < index) :
    ∀ b ∈ q.opened, b.index < index + ts.length := by
  induction ts generalizing p index with
  | nil =>
    cases h
    exact hopened
  | cons t ts ih =>
    obtain ⟨r, hr, htail⟩ := exists_of_takeAll_cons h
    rw [List.length_cons, Nat.add_comm ts.length, ← Nat.add_assoc]
    refine ih htail ?_
    cases hopen : t.opens? with
    | some shape =>
      rw [take_open hopen] at hr
      cases hr
      intro b hb
      rcases List.mem_cons.mp hb with rfl | hb
      · exact Nat.lt_succ_self _
      · exact Nat.lt_succ_of_lt (hopened b hb)
    | none =>
      cases hclose : t.closes? with
      | none =>
        rw [take_other hopen hclose] at hr
        cases hr
        exact fun b hb => Nat.lt_succ_of_lt (hopened b hb)
      | some shape =>
        obtain ⟨inner, outer, heq, -, rfl⟩ := exists_of_take_close hclose hr
        rw [heq] at hopened
        exact fun b hb => Nat.lt_succ_of_lt (hopened b (List.mem_cons_of_mem _ hb))

/-- The partner of an index that is neither taken nor open stays. -/
theorem partner_of_takeAll {i : Nat} (h : p.takeAll index ts = .ok q)
    (hi : i < index ∨ index + ts.length ≤ i) (hopened : ∀ b ∈ p.opened, b.index ≠ i) :
    q.partner[i]? = p.partner[i]? := by
  induction ts generalizing p index with
  | nil =>
    cases h
    rfl
  | cons t ts ih =>
    obtain ⟨r, hr, htail⟩ := exists_of_takeAll_cons h
    rw [List.length_cons] at hi
    have hne : index ≠ i := by omega
    have hi' : i < index + 1 ∨ index + 1 + ts.length ≤ i := by omega
    cases hopen : t.opens? with
    | some shape =>
      rw [take_open hopen] at hr
      cases hr
      have hopened' : ∀ b ∈ OpenBracket.mk shape index t.start :: p.opened, b.index ≠ i := by
        intro b hb
        rcases List.mem_cons.mp hb with rfl | hb
        · exact hne
        · exact hopened b hb
      have hsame := ih htail hi' hopened'
      exact hsame
    | none =>
      cases hclose : t.closes? with
      | none =>
        rw [take_other hopen hclose] at hr
        cases hr
        exact ih htail hi' hopened
      | some shape =>
        obtain ⟨inner, outer, heq, -, rfl⟩ := exists_of_take_close hclose hr
        rw [heq] at hopened
        rw [ih htail hi' fun b hb => hopened b (List.mem_cons_of_mem _ hb)]
        have hinner := hopened inner List.mem_cons_self
        simp only [link]
        rw [Array.getElem?_setIfInBounds_ne hne, Array.getElem?_setIfInBounds_ne hinner]

end Pairing

/-- Balanced tokens are accepted and leave the open brackets as they are. -/
theorem Balanced.takeAll_eq_ok {ts : List Token} (h : Balanced ts) (p : Pairing) (index : Nat) :
    ∃ q, p.takeAll index ts = .ok q ∧ q.opened = p.opened := by
  induction h generalizing p index with
  | nil => exact ⟨p, rfl, rfl⟩
  | other hopen hclose _ ih =>
    obtain ⟨q, hq, hopened⟩ := ih p (index + 1)
    exact ⟨q, by rw [Pairing.takeAll_cons (Pairing.take_other hopen hclose), hq], hopened⟩
  | @group first last inner ts shape hopen hclose _ _ ihInner ih =>
    obtain ⟨q, hq, hopened⟩ :=
      ihInner ⟨p.partner, ⟨shape, index, first.start⟩ :: p.opened⟩ (index + 1)
    obtain ⟨r, hr, hopened'⟩ := ih ⟨q.link index (index + 1 + inner.length), p.opened⟩
      (index + 1 + inner.length + 1)
    refine ⟨r, ?_, hopened'⟩
    rw [Pairing.takeAll_cons (Pairing.take_open hopen), Pairing.takeAll_append hq,
      Pairing.takeAll_cons (Pairing.take_close hclose hopened rfl), hr]

/-- The tokens close the open brackets of the given shapes, innermost first, and are
balanced besides. -/
inductive Closes : List Bracket → List Token → Prop
  | balanced {ts : List Token} : Balanced ts → Closes [] ts
  | close {shape : Bracket} {shapes : List Bracket} {inner ts : List Token} {t : Token} :
      Balanced inner → t.closes? = some shape → Closes shapes ts →
      Closes (shape :: shapes) (inner ++ t :: ts)

/-- Balanced tokens in front leave the brackets to be closed as they are. -/
theorem Closes.prepend {shapes : List Bracket} {ts us : List Token} (hus : Balanced us)
    (h : Closes shapes ts) : Closes shapes (us ++ ts) := by
  cases h with
  | balanced h => exact .balanced (hus.append h)
  | close hinner hclose h =>
    rw [← List.append_assoc]
    exact .close (hus.append hinner) hclose h

/-- Tokens that are accepted and leave no bracket open close the brackets that were. -/
theorem closes_of_takeAll {p q : Pairing} {index : Nat} {ts : List Token}
    (h : p.takeAll index ts = .ok q) (hq : q.opened = []) :
    Closes (p.opened.map OpenBracket.shape) ts := by
  induction ts generalizing p index with
  | nil =>
    cases h
    rw [hq]
    exact .balanced .nil
  | cons t ts ih =>
    obtain ⟨r, hr, htail⟩ := Pairing.exists_of_takeAll_cons h
    have hcloses := ih htail
    cases hopen : t.opens? with
    | some shape =>
      rw [Pairing.take_open hopen] at hr
      cases hr
      generalize hshapes : List.map OpenBracket.shape
        (OpenBracket.mk shape index t.start :: p.opened) = shapes at hcloses
      cases hcloses with
      | balanced => cases hshapes
      | @close _ _ inner us last hinner hclose hrest =>
        obtain ⟨rfl, rfl⟩ := List.cons.inj hshapes
        rw [show t :: (inner ++ last :: us) = (t :: (inner ++ [last])) ++ us by simp]
        exact hrest.prepend (.group hopen hclose hinner .nil)
    | none =>
      cases hclose : t.closes? with
      | none =>
        rw [Pairing.take_other hopen hclose] at hr
        cases hr
        exact hcloses.prepend (.other hopen hclose .nil)
      | some shape =>
        obtain ⟨inner, outer, heq, rfl, rfl⟩ := Pairing.exists_of_take_close hclose hr
        rw [heq, ← List.nil_append (t :: ts)]
        exact .close .nil hclose hcloses

/-- Where no bracket is left to be closed the tokens are balanced. -/
theorem Closes.balanced_of_nil {ts : List Token} (h : Closes [] ts) : Balanced ts := by
  cases h with
  | balanced h => exact h

/-- A table is made of what is read of a source and of the pairing of its brackets. -/
theorem tokenize_eq_ok_iff {source : String} {table : TokenTable} :
    tokenize source = .ok table ↔ readTokens source = ⟨table.tokens.toList, none⟩ ∧
      ∃ q, (Pairing.mk (Array.replicate table.tokens.size none) []).takeAll 0 table.tokens.toList =
        .ok q ∧ q.opened = [] ∧ q.partner = table.partner := by
  obtain ⟨tokens, partner⟩ := table
  unfold tokenize
  constructor
  · intro h
    simp only at h
    split at h
    · cases h
    · rename_i q hq
      split at h
      · cases h
      · rename_i hfault
        split at h
        · rename_i hopened
          cases h
          refine ⟨?_, q, ?_, hopened, rfl⟩
          · rw [← hfault]
          · simpa using hq
        · cases h
  · rintro ⟨hread, q, hq, hopened, rfl⟩
    simp only [hread, Array.length_toList, hq, hopened]

/-- A source has a table exactly if it can be read and its brackets pair up. -/
theorem exists_tokenize_iff {source : String} {all : List Token} :
    (∃ table, tokenize source = .ok table ∧ table.tokens.toList = all) ↔
      readTokens source = ⟨all, none⟩ ∧ Balanced all := by
  constructor
  · rintro ⟨table, htable, rfl⟩
    obtain ⟨hread, q, hq, hopened, -⟩ := tokenize_eq_ok_iff.mp htable
    have hcloses := closes_of_takeAll hq hopened
    exact ⟨hread, hcloses.balanced_of_nil⟩
  · rintro ⟨hread, hbalanced⟩
    obtain ⟨q, hq, hopened⟩ := hbalanced.takeAll_eq_ok ⟨Array.replicate all.length none, []⟩ 0
    refine ⟨⟨all.toArray, q.partner⟩, tokenize_eq_ok_iff.mpr ⟨hread, q, ?_, hopened, rfl⟩, rfl⟩
    simpa using hq

/-- The first bracket of a balanced group and the last one are partners. -/
theorem partner_of_group {source : String} {table : TokenTable} {before inner behind : List Token}
    {first last : Token} {shape : Bracket} (htable : tokenize source = .ok table)
    (htokens : table.tokens.toList = before ++ first :: (inner ++ last :: behind))
    (hopen : first.opens? = some shape) (hclose : last.closes? = some shape)
    (hinner : Balanced inner) :
    table.partner[before.length]? = some (some (before.length + inner.length + 1)) ∧
      table.partner[before.length + inner.length + 1]? = some (some before.length) := by
  obtain ⟨-, q, hq, -, hpartner⟩ := tokenize_eq_ok_iff.mp htable
  have hsize := Pairing.size_partner_of_takeAll hq
  have hlength := congrArg List.length htokens
  rw [Array.size_replicate] at hsize
  rw [Array.length_toList] at hlength
  simp only [List.length_append, List.length_cons] at hlength
  rw [htokens] at hq
  obtain ⟨p₁, h₁, hq⟩ := Pairing.exists_of_takeAll_append hq
  have hbelow := Pairing.index_lt_of_takeAll h₁ (by simp)
  have hsize₁ := Pairing.size_partner_of_takeAll h₁
  rw [Pairing.takeAll_cons (Pairing.take_open hopen)] at hq
  obtain ⟨p₂, h₂, hopened⟩ := hinner.takeAll_eq_ok
    ⟨p₁.partner, ⟨shape, 0 + before.length, first.start⟩ :: p₁.opened⟩ (0 + before.length + 1)
  have hsize₂ := Pairing.size_partner_of_takeAll h₂
  rw [Pairing.takeAll_append h₂, Pairing.takeAll_cons (Pairing.take_close hclose hopened rfl)] at hq
  have hbounds : before.length + inner.length + 1 < p₂.partner.size := by
    rw [hsize₂]
    simp only [hsize₁, Array.size_replicate]
    omega
  have hkeep : ∀ {k : Nat}, before.length ≤ k → k ≤ before.length + inner.length + 1 →
      q.partner[k]? = (p₂.link (0 + before.length) (0 + before.length + 1 + inner.length))[k]? := by
    intro k hk hle
    refine Pairing.partner_of_takeAll hq (.inl (by omega)) fun b hb => ?_
    have := hbelow b hb
    omega
  rw [← hpartner, hkeep (Nat.le_refl _) (by omega), hkeep (by omega) (Nat.le_refl _)]
  simp only [Pairing.link, Nat.zero_add, Nat.add_right_comm before.length 1]
  constructor
  · rw [Array.getElem?_setIfInBounds_ne (by omega), Array.getElem?_setIfInBounds_self,
      if_pos (by omega)]
  · rw [Array.getElem?_setIfInBounds_self, if_pos (by simpa using hbounds)]

/-- A token that is no bracket has no partner. -/
theorem partner_of_other {source : String} {table : TokenTable} {before behind : List Token}
    {t : Token} (htable : tokenize source = .ok table)
    (htokens : table.tokens.toList = before ++ t :: behind) (hopen : t.opens? = none)
    (hclose : t.closes? = none) : table.partner[before.length]? = some none := by
  obtain ⟨-, q, hq, -, hpartner⟩ := tokenize_eq_ok_iff.mp htable
  have hlength := congrArg List.length htokens
  rw [Array.length_toList] at hlength
  simp only [List.length_append, List.length_cons] at hlength
  rw [htokens] at hq
  obtain ⟨p, hp, hq⟩ := Pairing.exists_of_takeAll_append hq
  have hbelow := Pairing.index_lt_of_takeAll hp (by simp)
  rw [Pairing.takeAll_cons (Pairing.take_other hopen hclose)] at hq
  have hbehind : q.partner[before.length]? = p.partner[before.length]? :=
    Pairing.partner_of_takeAll hq (.inl (by omega)) fun b hb =>
      Nat.ne_of_lt (by simpa using hbelow b hb)
  have hbefore := Pairing.partner_of_takeAll (i := before.length) hp (.inr (by omega)) (by simp)
  rw [← hpartner, hbehind, hbefore, Array.getElem?_replicate, if_pos (by omega)]

/-- The first bracket of a balanced group is closed by the last one. -/
theorem closeOf_of_group {source : String} {table : TokenTable} {before inner behind : List Token}
    {first last : Token} {shape : Bracket} (htable : tokenize source = .ok table)
    (htokens : table.tokens.toList = before ++ first :: (inner ++ last :: behind))
    (hopen : first.opens? = some shape) (hclose : last.closes? = some shape)
    (hinner : Balanced inner) :
    table.closeOf before.length = before.length + inner.length + 1 := by
  rw [TokenTable.closeOf, (partner_of_group htable htokens hopen hclose hinner).1]
  exact Nat.max_eq_right (by omega)

end Workflow.Script
