import Mathlib.Data.List.Forall2
import Mathlib.Data.List.Induction
import Workflow.Proofs.Script.Pairs

/-!
# How brackets nest, and where they fail to

The stack of open brackets holds at every token the brackets that the tokens so far leave
open. So partners are the brackets of a group: they point at each other, they have one shape,
and of two pairs one stands in the other or behind it. If the brackets of a source do not pair
up, the fault lies at the first closing bracket that does not fit the innermost open one, and
if all of them fit, at the innermost bracket that is open at the end.
-/

namespace Workflow.Script

/-- The bracket is the innermost one that the tokens leave open. -/
def Innermost (ts : List Token) (t : Token) : Prop :=
  ∃ front inner, ts = front ++ t :: inner ∧ t.opens? ≠ none ∧ Balanced inner

/-- If the token closes a bracket, the innermost one that the tokens before it leave open has
its shape. -/
def Token.Fits (t : Token) (before : List Token) : Prop :=
  ∀ shape, t.closes? = some shape → ∃ o, Innermost before o ∧ o.opens? = some shape

/-- Every closing bracket fits what stands before it. -/
def AllFit (ts : List Token) : Prop :=
  ∀ front t behind, ts = front ++ t :: behind → t.Fits front

/-- The fault of tokens whose brackets do not pair up. -/
inductive BracketFault (ts : List Token) : Fault → Prop
  /-- The first closing bracket that does not fit stands where no bracket is open. -/
  | unopened {front behind : List Token} {t : Token} {shape : Bracket} :
      ts = front ++ t :: behind → AllFit front → ¬ t.Fits front → t.closes? = some shape →
      Balanced front → BracketFault ts ⟨.unopened shape, t.start⟩
  /-- The first closing bracket that does not fit meets an open one of another shape. -/
  | mismatched {front behind : List Token} {t o : Token} {shape opened : Bracket} :
      ts = front ++ t :: behind → AllFit front → ¬ t.Fits front → t.closes? = some shape →
      Innermost front o → o.opens? = some opened →
      BracketFault ts ⟨.mismatched opened shape, t.start⟩
  /-- All closing brackets fit, and a bracket is left open. -/
  | neverClosed {o : Token} {shape : Bracket} : AllFit ts → Innermost ts o →
      o.opens? = some shape → BracketFault ts ⟨.neverClosed shape, o.start⟩

/-- The tokens leave the given brackets open, innermost first. -/
inductive Leaves : List Token → List Token → Prop
  | balanced {ts : List Token} : Balanced ts → Leaves ts []
  | opened {ts inner opened : List Token} {t : Token} : Leaves ts opened → t.opens? ≠ none →
      Balanced inner → Leaves (ts ++ t :: inner) (t :: opened)

variable {ts us opened : List Token} {t o : Token} {shape : Bracket}

namespace Leaves

theorem innermost (h : Leaves ts (o :: opened)) : Innermost ts o := by
  cases h with
  | opened _ hopen hinner => exact ⟨_, _, rfl, hopen, hinner⟩

theorem append (h : Leaves ts opened) (hus : Balanced us) : Leaves (ts ++ us) opened := by
  cases h with
  | balanced h => exact .balanced (h.append hus)
  | opened h hopen hinner =>
    rw [List.append_assoc, List.cons_append]
    exact .opened h hopen (hinner.append hus)

/-- A closing bracket of its shape takes the innermost open bracket away. -/
theorem close (h : Leaves ts (o :: opened)) (hopen : o.opens? = some shape)
    (hclose : t.closes? = some shape) : Leaves (ts ++ [t]) opened := by
  cases h with
  | opened h _ hinner =>
    rw [List.append_assoc, List.cons_append]
    exact h.append (.group hopen hclose hinner .nil)

end Leaves

/-- Balanced tokens leave no bracket open. -/
theorem Balanced.not_innermost (h : Balanced ts) : ¬ Innermost ts o := by
  rintro ⟨front, inner, rfl, hopen, hinner⟩
  obtain ⟨shape, hshape⟩ := Option.ne_none_iff_exists'.mp hopen
  have hfront : 0 ≤ depth front := h.depth_nonneg rfl
  have hwhole := h.depth_eq
  rw [depth_append, depth_cons, Token.weight_of_opens? hshape, hinner.depth_eq] at hwhole
  omega

/-- Only one bracket is the innermost open one. -/
theorem Innermost.unique {o' : Token} (h : Innermost ts o) (h' : Innermost ts o') : o = o' := by
  obtain ⟨front, inner, rfl, hopen, hinner⟩ := h
  obtain ⟨front', inner', heq, hopen', hinner'⟩ := h'
  rcases List.append_eq_append_iff.mp heq with ⟨a, -, ha⟩ | ⟨c, -, hc⟩
  · rcases List.cons_eq_append_iff.mp ha with ⟨-, hsame⟩ | ⟨b, -, hb⟩
    · exact (List.cons.inj hsame).1.symm
    · exact absurd ⟨b, inner', hb, hopen', hinner'⟩ hinner.not_innermost
  · rcases List.cons_eq_append_iff.mp hc with ⟨-, hsame⟩ | ⟨b, -, hb⟩
    · exact (List.cons.inj hsame).1
    · exact absurd ⟨b, inner, hb, hopen, hinner⟩ hinner'.not_innermost

namespace Pairing

variable {p q : Pairing} {index : Nat} {fault : Fault}

/-- The open brackets of a pairing are the given tokens. -/
def Holds (p : Pairing) (opened : List Token) : Prop :=
  List.Forall₂ (fun b t => t.opens? = some b.shape ∧ t.start = b.start) p.opened opened

/-- The stack holds the brackets that the tokens taken so far leave open. -/
theorem exists_leaves (h : p.takeAll index ts = .ok q) (hp : p.opened = []) :
    ∃ opened, Leaves ts opened ∧ q.Holds opened := by
  induction ts using List.reverseRecOn generalizing q with
  | nil =>
    cases h
    exact ⟨[], .balanced .nil, by rw [Holds, hp]; exact .nil⟩
  | append_singleton ts t ih =>
    obtain ⟨r, hr, hlast⟩ := exists_of_takeAll_append h
    obtain ⟨opened, hleaves, hholds⟩ := ih hr
    obtain ⟨q', htake, hnil⟩ := exists_of_takeAll_cons hlast
    cases hnil
    cases hopen : t.opens? with
    | some shape =>
      rw [take_open hopen] at htake
      cases htake
      exact ⟨t :: opened, .opened hleaves (by simp [hopen]) .nil, .cons ⟨hopen, rfl⟩ hholds⟩
    | none =>
      cases hclose : t.closes? with
      | none =>
        rw [take_other hopen hclose] at htake
        cases htake
        exact ⟨opened, hleaves.append (.other hopen hclose .nil), hholds⟩
      | some shape =>
        obtain ⟨inner, outer, heq, rfl, rfl⟩ := exists_of_take_close hclose htake
        rw [Holds, heq] at hholds
        obtain ⟨o, rest, ⟨ho, -⟩, hrest, rfl⟩ := List.forall₂_cons_left_iff.mp hholds
        exact ⟨rest, hleaves.close ho hclose, hrest⟩

/-- What stops the pairing is a token that the pairing of the tokens before it refuses. -/
theorem exists_of_takeAll_error (h : p.takeAll index ts = .error fault) :
    ∃ front t behind q, ts = front ++ t :: behind ∧ p.takeAll index front = .ok q ∧
      q.take (index + front.length) t = .error fault := by
  induction ts generalizing p index with
  | nil => cases h
  | cons t ts ih =>
    cases htake : p.take index t with
    | error =>
      rw [takeAll, htake] at h
      cases h
      exact ⟨[], t, ts, p, rfl, rfl, htake⟩
    | ok r =>
      rw [takeAll_cons htake] at h
      obtain ⟨front, u, behind, q, rfl, hfront, hu⟩ := ih h
      refine ⟨t :: front, u, behind, q, rfl, by rw [takeAll_cons htake, hfront], ?_⟩
      rwa [List.length_cons, Nat.add_comm front.length, ← Nat.add_assoc]

/-- A closing bracket that is accepted fits. -/
theorem allFit_of_takeAll (h : p.takeAll index ts = .ok q) (hp : p.opened = []) : AllFit ts := by
  rintro front t behind rfl shape hclose
  obtain ⟨r, hr, hrest⟩ := exists_of_takeAll_append h
  obtain ⟨r', htake, -⟩ := exists_of_takeAll_cons hrest
  obtain ⟨opened, hleaves, hholds⟩ := exists_leaves hr hp
  obtain ⟨inner, outer, heq, rfl, -⟩ := exists_of_take_close hclose htake
  rw [Holds, heq] at hholds
  obtain ⟨o, rest, ⟨ho, -⟩, -, rfl⟩ := List.forall₂_cons_left_iff.mp hholds
  exact ⟨o, hleaves.innermost, ho⟩

/-- A token is refused for a bracket that it closes. -/
theorem bracketFault_of_takeAll (h : p.takeAll index ts = .error fault) (hp : p.opened = []) :
    BracketFault ts fault := by
  obtain ⟨front, t, behind, q, rfl, hfront, htake⟩ := exists_of_takeAll_error h
  obtain ⟨opened, hleaves, hholds⟩ := exists_leaves hfront hp
  have hfit := allFit_of_takeAll hfront hp
  unfold take at htake
  split at htake
  · cases htake
  · split at htake
    · cases htake
    · rename_i shape hclose
      split at htake
      · rename_i hnil
        cases htake
        rw [Holds, hnil] at hholds
        cases hholds
        cases hleaves with
        | balanced hbalanced =>
          refine .unopened rfl hfit (fun hfits => ?_) hclose hbalanced
          obtain ⟨o, ho, -⟩ := hfits shape hclose
          exact hbalanced.not_innermost ho
      · rename_i inner outer hcons
        split at htake
        · cases htake
        · rename_i hne
          cases htake
          rw [Holds, hcons] at hholds
          obtain ⟨o, rest, ⟨ho, -⟩, -, rfl⟩ := List.forall₂_cons_left_iff.mp hholds
          refine .mismatched rfl hfit (fun hfits => ?_) hclose hleaves.innermost ho
          obtain ⟨o', ho', hshape⟩ := hfits shape hclose
          rw [ho'.unique hleaves.innermost, ho] at hshape
          exact hne (Option.some.inj hshape)

end Pairing

/-- The bracket that a closing bracket of balanced tokens belongs to. -/
theorem Balanced.exists_opening {front behind : List Token}
    (h : Balanced (front ++ t :: behind)) (hclose : t.closes? = some shape) :
    ∃ before first inner, front = before ++ first :: inner ∧ first.opens? = some shape ∧
      Balanced inner := by
  obtain ⟨q, hq, -⟩ := h.takeAll_eq_ok ⟨#[], []⟩ 0
  obtain ⟨o, ⟨before, inner, heq, -, hinner⟩, ho⟩ :=
    Pairing.allFit_of_takeAll hq rfl front t behind rfl shape hclose
  exact ⟨before, o, inner, heq, ho, hinner⟩

/-- Partners nest. -/
structure TokenTable.WellNested (table : TokenTable) : Prop where
  /-- Exactly the brackets have a partner. -/
  exists_iff : ∀ i : Nat, (∃ j : Nat, table.partner[i]? = some (some j)) ↔
    table.kind i = .punctuator ∧ table.text i ∈ bracketMarks
  /-- Partners are partners of each other. -/
  symm : ∀ i j : Nat, table.partner[i]? = some (some j) → table.partner[j]? = some (some i)
  /-- No bracket is its own partner. -/
  ne : ∀ i j : Nat, table.partner[i]? = some (some j) → i ≠ j
  /-- The earlier partner opens a bracket, and the later one closes it. -/
  shape : ∀ i j : Nat, table.partner[i]? = some (some j) → i < j → ∃ shape : Bracket,
    table.is i (String.singleton shape.opening) = true ∧
      table.is j (String.singleton shape.closing) = true
  /-- Of two pairs, one stands behind the other or in it. -/
  nested : ∀ i j k l : Nat, table.partner[i]? = some (some j) → table.partner[k]? = some (some l) →
    i < j → k < l → i < k → j < k ∨ l < j

section

variable {source : String} {table : TokenTable} (htable : tokenize source = .ok table)
  {i j k l : Nat}

include htable

/-- A bracket has a partner. -/
theorem exists_partner (hkind : table.kind i = .punctuator) (htext : table.text i ∈ bracketMarks) :
    ∃ j, table.partner[i]? = some (some j) := by
  have hlt : i < table.tokens.size := table.lt_size_of_kind_ne (by simp [hkind])
  have htoken : table.tokens.toList[i]? = some table.tokens[i] := by simp [hlt]
  have his : table.tokens[i].is table.tokens[i].text = true := by
    simp [TokenTable.kind, hlt] at hkind
    simp [Token.is, hkind]
  have hmem : table.tokens[i].text ∈ bracketMarks := by simpa [TokenTable.text, hlt] using htext
  have hbracket : table.tokens[i].IsBracket := by
    by_contra hnone
    rw [Token.IsBracket, not_or, not_not, not_not, Token.opens?_eq_none_iff,
      Token.closes?_eq_none_iff] at hnone
    simp only [bracketMarks, List.mem_cons, List.not_mem_nil, or_false] at hmem
    rcases hmem with h | h | h | h | h | h <;> simp [h] at his <;> simp [his] at hnone
  obtain ⟨j, hj⟩ := ((nested_of_tokenize htable).exists_partner_iff htoken).mpr hbracket
  exact ⟨j, by rwa [Nat.zero_add] at hj⟩

/-- An opening bracket has its partner behind it. -/
theorem exists_partner_of_opens (hlt : i < table.tokens.size)
    (hopen : table.tokens[i].opens? ≠ none) : ∃ j, table.partner[i]? = some (some j) ∧ i < j := by
  have htoken : table.tokens.toList[i]? = some table.tokens[i] := by simp [hlt]
  have hcases := (nested_of_tokenize htable).cases_getElem? htoken
  rw [Nat.zero_add] at hcases
  rcases hcases with ⟨hother, -⟩ | ⟨-, inner, -, hpartner, -⟩ | ⟨hnone, -⟩
  · exact absurd (.inl hopen) hother
  · exact ⟨_, hpartner, by omega⟩
  · exact absurd hnone hopen

/-- A closing bracket has an opening one of its shape before it as its partner. -/
theorem exists_partner_of_closes (hlt : i < table.tokens.size)
    (hclose : table.tokens[i].closes? = some shape) : ∃ j, table.partner[i]? = some (some j) ∧
      j < i ∧ table.is j (String.singleton shape.opening) = true := by
  have hbalanced := (exists_tokenize_iff.mp ⟨table, htable, rfl⟩).2
  have htokens := List.take_append_drop i table.tokens.toList
  rw [List.drop_eq_getElem_cons (by simpa using hlt), Array.getElem_toList] at htokens
  rw [← htokens] at hbalanced
  obtain ⟨before, first, inner, hfront, hopen, hinner⟩ := hbalanced.exists_opening hclose
  have hlength := congrArg List.length hfront
  rw [List.length_take, Array.length_toList, List.length_append, List.length_cons] at hlength
  rw [hfront, List.append_assoc, List.cons_append] at htokens
  have hpartner := (partner_of_group htable htokens.symm hopen hclose hinner).2
  rw [show before.length + inner.length + 1 = i by omega] at hpartner
  refine ⟨before.length, hpartner, by omega, ?_⟩
  have hfirst : table.tokens[before.length]? = some first := by
    rw [← Array.getElem?_toList, ← htokens, List.getElem?_append_right (Nat.le_refl _),
      Nat.sub_self, List.getElem?_cons_zero]
  rw [TokenTable.is, hfirst, Option.any_some, Token.is_of_opens? hopen, beq_self_eq_true]

/-- The partner of a bracket lies behind it if the bracket opens, and before it otherwise. -/
theorem opens_or_closes_of_partner (h : table.partner[i]? = some (some j)) : i < j ∨ j < i ∧
    ∃ shape : Bracket, table.is j (String.singleton shape.opening) = true ∧
      table.is i (String.singleton shape.closing) = true := by
  have hlt := lt_size_of_partner htable h
  have htoken : table.tokens.toList[i]? = some table.tokens[i] := by simp [hlt]
  have hbracket : table.tokens[i].IsBracket :=
    ((nested_of_tokenize htable).exists_partner_iff htoken).mp ⟨j, by rwa [Nat.zero_add]⟩
  rcases hbracket with hopen | hclose
  · obtain ⟨j', hj, hbehind⟩ := exists_partner_of_opens htable hlt hopen
    obtain rfl : j = j' := by simpa [h] using hj
    exact .inl hbehind
  · obtain ⟨shape, hshape⟩ := Option.ne_none_iff_exists'.mp hclose
    obtain ⟨j', hj, hbefore, hopen⟩ := exists_partner_of_closes htable hlt hshape
    obtain rfl : j = j' := by simpa [h] using hj
    refine .inr ⟨hbefore, shape, hopen, ?_⟩
    rw [TokenTable.is, Array.getElem?_eq_getElem hlt, Option.any_some, Token.is_of_closes? hshape,
      beq_self_eq_true]

/-- The later one of two partners closes a bracket of the shape that the earlier one opens. -/
theorem exists_shape_of_partner (h : table.partner[i]? = some (some j)) (hlt : i < j) :
    ∃ shape : Bracket, table.is i (String.singleton shape.opening) = true ∧
      table.is j (String.singleton shape.closing) = true := by
  rcases opens_or_closes_of_partner htable (partner_symm htable h) with hback | ⟨-, hshape⟩
  · omega
  · exact hshape

/-- No bracket lies across a pair. -/
theorem whole_of_partner (h : table.partner[i]? = some (some j)) (hlt : i < j) :
    table.Whole i (j + 1) := by
  obtain ⟨shape, hopen, -⟩ := exists_shape_of_partner htable h hlt
  have hwhole := whole_group htable hopen (by cases shape <;> decide)
  have hclose : table.closeOf i = j := by
    simp only [TokenTable.closeOf, h, Nat.max_eq_right (Nat.le_of_lt hlt)]
  rwa [hclose] at hwhole

theorem wellNested_of_tokenize : table.WellNested where
  exists_iff i := by
    constructor
    · rintro ⟨j, h⟩
      obtain ⟨hkind, htext, -⟩ := bracket_of_partner htable h
      exact ⟨hkind, htext⟩
    · rintro ⟨hkind, htext⟩
      exact exists_partner htable hkind htext
  symm i j h := partner_symm htable h
  ne i j h := by
    rcases opens_or_closes_of_partner htable h with hlt | ⟨hlt, -⟩ <;> omega
  shape i j h hlt := exists_shape_of_partner htable h hlt
  nested i j k l hij hkl hi hk hik := by
    have hinner := whole_of_partner htable hij hi k l hkl
    have hcross : l ≠ j := by
      rintro rfl
      have hback := partner_symm htable hkl
      rw [partner_symm htable hij, Option.some.injEq, Option.some.injEq] at hback
      omega
    omega

end

/-- The table of a source without a lexical fault is refused for a fault of its brackets. -/
theorem bracketFault_of_tokenize {source : String} {fault : Fault}
    (hread : readTokens source = ⟨ts, none⟩) (h : tokenize source = .error fault) :
    BracketFault ts fault := by
  unfold tokenize at h
  simp only [hread] at h
  split at h
  · rename_i htake
    cases h
    exact Pairing.bracketFault_of_takeAll htake rfl
  · rename_i q htake
    obtain ⟨opened, hleaves, hholds⟩ := Pairing.exists_leaves htake rfl
    split at h
    · cases h
    · rename_i inner outer hcons
      cases h
      rw [Pairing.Holds, hcons] at hholds
      obtain ⟨o, rest, ⟨ho, hstart⟩, -, rfl⟩ := List.forall₂_cons_left_iff.mp hholds
      rw [← hstart]
      exact .neverClosed (Pairing.allFit_of_takeAll htake rfl) hleaves.innermost ho

/-- The partners of a source nest. A source that can be read is refused exactly if its tokens are
not balanced, for the first closing bracket that does not fit or, if all of them fit, for the
innermost bracket that is open at the end. -/
theorem brackets_nest_or_refused (source : String) :
    (∀ table, tokenize source = .ok table → table.WellNested) ∧
    ∀ tokens, readTokens source = ⟨tokens, none⟩ →
      ((∃ fault, tokenize source = .error fault) ↔ ¬ Balanced tokens) ∧
      ∀ fault, tokenize source = .error fault → BracketFault tokens fault := by
  refine ⟨fun table => wellNested_of_tokenize, fun tokens hread => ⟨?_, ?_⟩⟩
  · constructor
    · rintro ⟨fault, hfault⟩ hbalanced
      obtain ⟨table, htable, -⟩ := exists_tokenize_iff.mpr ⟨hread, hbalanced⟩
      rw [hfault] at htable
      cases htable
    · intro hbalanced
      cases htokenize : tokenize source with
      | error fault => exact ⟨fault, rfl⟩
      | ok table =>
        obtain ⟨hread', hbalanced'⟩ := exists_tokenize_iff.mp ⟨table, htokenize, rfl⟩
        rw [hread] at hread'
        cases hread'
        exact absurd hbalanced' hbalanced
  · exact fun fault => bracketFault_of_tokenize hread

/-- Square brackets in round ones nest; a square bracket that closes a round one is refused. -/
theorem brackets_nest_call :
    (∃ table, tokenize "f(a[0])" = .ok table ∧ table.partner[1]? = some (some 6) ∧
      table.partner[3]? = some (some 5) ∧ table.WellNested) ∧
    ∃ tokens, readTokens "f(a[0)" = ⟨tokens, none⟩ ∧ ¬ Balanced tokens ∧
      tokenize "f(a[0)" = .error ⟨.mismatched .square .round, 5⟩ ∧
      BracketFault tokens ⟨.mismatched .square .round, 5⟩ := by
  have hread : readTokens "f(a[0)" = ⟨(readTokens "f(a[0)").tokens, none⟩ := by decide +kernel
  have hfault : tokenize "f(a[0)" = .error ⟨.mismatched .square .round, 5⟩ := by decide +kernel
  obtain ⟨hiff, hplace⟩ := (brackets_nest_or_refused "f(a[0)").2 _ hread
  have hpartner : ((tokenize "f(a[0])").bind fun table =>
      .ok (table.partner[1]? == some (some 6) && table.partner[3]? == some (some 5))) =
        .ok true := by decide +kernel
  obtain ⟨table, htable, hpartner⟩ := exists_of_bind_eq_ok hpartner
  have hpartner := Except.ok.inj hpartner
  simp only [Bool.and_eq_true, beq_iff_eq] at hpartner
  exact ⟨⟨table, htable, hpartner.1, hpartner.2, (brackets_nest_or_refused _).1 table htable⟩,
    _, hread, hiff.mp ⟨_, hfault⟩, hfault, hplace _ hfault⟩

end Workflow.Script
