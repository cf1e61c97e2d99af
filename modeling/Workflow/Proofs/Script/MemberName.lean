import Workflow.Proofs.Script.Progress

/-!
# Words that are taken for member names

In a class body a word is taken for the name of a member by the kept token in front of it
alone, and what follows the word decides whether something is removed there. A word at which
neither holds is read as in any other place.
-/

namespace Workflow.Script

/-- The name of a member may stand behind the token. -/
def Token.StartsMember (t : Token) : Prop :=
  t.is "\x7b" = true ∨ t.is ";" = true ∨ t.is "\x7d" = true ∨ t.text ∈ Erasure.memberPrefixes

/-- Whether tokens go on like those behind the name of a member: with type parameters, an
annotation, or a mark in front of what may follow one. -/
def continuesMember : List Token → Bool
  | [] => false
  | t :: ts =>
    t.is ":" || t.is "<" || (t.is "?" || t.is "!") &&
      ts.head?.any fun u => [":", "<", "(", "=", ";"].any u.is

/-- No member goes on with the token. -/
def Token.Unmarked (t : Token) : Prop := ∀ text ∈ [":", "<", "?", "!"], t.is text = false

theorem Token.IsMark.unmarked {t : Token} {text : String} (h : t.IsMark text)
    (htext : text ∉ [":", "<", "?", "!"]) : t.Unmarked := by
  intro other hmem
  rw [h.is, beq_eq_false_iff_ne]
  exact fun heq => htext (heq ▸ hmem)

theorem Token.IsName.unmarked {t : Token} (h : t.IsName) : t.Unmarked := by
  intro text hmem
  refine h.is_eq_false (.inr ?_)
  revert text
  decide

theorem Token.Unmarked.continuesMember_eq {t : Token} (h : t.Unmarked) (ts : List Token) :
    continuesMember (t :: ts) = false := by
  simp only [Unmarked, List.mem_cons, List.not_mem_nil, or_false, forall_eq_or_imp, forall_eq] at h
  simp [continuesMember, h]

/-- No word of the tokens that stands outside of their brackets is taken for the name of a
member from which something is to be removed. -/
structure NoMembers (before ts behind : List Token) : Prop where
  line : ∀ t ∈ ts, t.startsLine = false
  names : ∀ front t back, ts = front ++ t :: back → depth front = 0 → t.kind = .word →
    ∀ u ∈ (front.reverse ++ before).head?, u.StartsMember → continuesMember (back ++ behind) = false

namespace NoMembers

variable {before us vs behind : List Token}

theorem left (h : NoMembers before (us ++ vs) behind) : NoMembers before us (vs ++ behind) where
  line t ht := h.line t (List.mem_append_left vs ht)
  names := by
    rintro front t back rfl hfront hkind u hu hstarts
    have hwhole := h.names front t (back ++ vs) (by simp) hfront hkind u hu hstarts
    rwa [List.append_assoc] at hwhole

theorem right (h : NoMembers before (us ++ vs) behind) (hus : depth us = 0) :
    NoMembers (us.reverse ++ before) vs behind where
  line t ht := h.line t (List.mem_append_right us ht)
  names := by
    rintro front t back rfl hfront hkind u hu hstarts
    refine h.names (us ++ front) t back (by simp) (by simp [hus, hfront]) hkind u ?_ hstarts
    simpa using hu

theorem append (h : NoMembers before us (vs ++ behind)) (hus : depth us = 0)
    (h' : NoMembers (us.reverse ++ before) vs behind) : NoMembers before (us ++ vs) behind where
  line := List.forall_mem_append.mpr ⟨h.line, h'.line⟩
  names := by
    intro front t back hsplit hfront hkind u hu hstarts
    rcases List.append_eq_append_iff.mp hsplit with ⟨a, rfl, ha⟩ | ⟨c, rfl, hc⟩
    · refine h'.names a t back ha (by simpa [hus] using hfront) hkind u ?_ hstarts
      simpa using hu
    · rcases List.cons_eq_append_iff.mp hc with ⟨rfl, rfl⟩ | ⟨c, rfl, rfl⟩
      · refine h'.names [] t back rfl rfl hkind u ?_ hstarts
        simpa using hu
      · have hleft := h.names front t c rfl hfront hkind u hu hstarts
        rwa [List.append_assoc]

end NoMembers

namespace Erasure

variable {s : Erasure} {table : TokenTable} {done : List (Token × Bool)} {t : Token}
  {ts behind : List Token} {i : Nat}

theorem startsMember_eq (h : s.At table done (t :: ts)) :
    s.startsMember table done.length = true ↔ ∃ u ∈ (recent done).head?, u.StartsMember ∨
      ∃ p, s.previous done.length = some p ∧ t.startsLine = true ∧
        s.endsOperand table p = true := by
  have hpreceded := h.preceded
  rw [startsMember, h.ahead.startsLine]
  cases hrecent : recent done with
  | nil =>
    rw [hrecent] at hpreceded
    simp [show s.previous done.length = none from hpreceded]
  | cons u us =>
    rw [hrecent] at hpreceded
    obtain ⟨p, hp, htoken, -⟩ := hpreceded
    have htext : table.isOneOf p memberPrefixes = memberPrefixes.contains u.text := by
      simp [TokenTable.isOneOf, TokenTable.text, htoken]
    simp [hp, is_of_getElem? htoken, htext, Token.StartsMember, or_assoc]

/-- On its line, a member starts behind certain kept tokens only. -/
theorem exists_of_startsMember (h : s.At table done (t :: ts)) (hline : t.startsLine = false)
    (hstarts : s.startsMember table done.length = true) :
    ∃ u ∈ (recent done).head?, u.StartsMember := by
  obtain ⟨u, hu, hmember | ⟨_, -, hnewline, -⟩⟩ := (startsMember_eq h).mp hstarts
  · exact ⟨u, hu, hmember⟩
  · simp [hline] at hnewline

theorem isMemberModifier_eq_false (h : table.Ahead i (t :: ts)) (ht : t.text ∉ modifiers) :
    isMemberModifier table i = false := by
  have hmodifier : table.isOneOf i modifiers = false := by
    rw [h.isOneOf]
    simpa using ht
  simp [isMemberModifier, hmodifier]

/-- What may not stand behind a word if no member goes on there. -/
theorem behind_of_continuesMember (h : table.Ahead i (t :: ts))
    (hcontinues : continuesMember ts = false) :
    table.is (i + 1) ":" = false ∧ table.is (i + 1) "<" = false ∧
      (isMarked table i = true →
        ∀ text ∈ [":", "<", "(", "=", ";"], table.is (i + 2) text = false) := by
  have hnext : ∀ text, table.is (i + 1) text = ts.head?.any (·.is text) := (h.drop 1).is_head
  have hfar : ∀ text, table.is (i + 2) text = ts.tail.head?.any (·.is text) := by
    intro text
    rw [(h.drop 2).is_head, List.drop_succ_cons, List.drop_one]
  cases ts with
  | nil => simp [hnext, isMarked]
  | cons u us =>
    simp only [continuesMember, Bool.or_eq_false_iff, Bool.and_eq_false_iff] at hcontinues
    refine ⟨by simp [hnext, hcontinues.1.1], by simp [hnext, hcontinues.1.2], fun hmarked => ?_⟩
    have hmark : (u.is "?" || u.is "!") = true := by simpa [isMarked, hnext] using hmarked
    intro text htext
    rw [hfar]
    rcases hcontinues.2 with hunmarked | hcontinues
    · simp [hunmarked] at hmark
    · cases us with
      | nil => rfl
      | cons v us =>
        simp only [List.head?_cons, Option.any_some, List.any_eq_false, Bool.not_eq_true]
          at hcontinues
        exact hcontinues text htext

/-- Nothing is removed at a word at which no member starts, or behind which none goes on. -/
theorem classMember_eq_none (h : table.Ahead i (t :: ts)) (ht : t.text ∉ modifiers)
    (hnone : s.startsMember table i = true → continuesMember ts = false) :
    s.classMember table i = .ok (none, s) := by
  by_cases hstarts : s.startsMember table i = true
  · obtain ⟨hcolon, hangle, hmarked⟩ := behind_of_continuesMember h (hnone hstarts)
    unfold classMember
    rw [hstarts, isMemberModifier_eq_false h ht]
    by_cases hmark : isMarked table i = true
    · have hafter := hmarked hmark
      simp only [List.mem_cons, List.not_mem_nil, or_false, forall_eq_or_imp, forall_eq] at hafter
      obtain ⟨hcolon', hangle', hround, hequals, hsemicolon⟩ := hafter
      simp [methodParameters, afterMark, hmark, hangle', hcolon', hround, hequals, hsemicolon]
      rfl
    · simp [methodParameters, afterMark, hmark, hangle, hcolon]
      rfl
  · rw [classMember, if_pos (by simpa using hstarts)]
    rfl

/-- A word outside of all brackets is left alone in a class, if no member has its name there. -/
theorem classMember_of_noMembers (hnone : NoMembers (recent done) (t :: ts) behind)
    (h : s.At table done (t :: (ts ++ behind))) (hkind : t.kind = .word) (ht : t.text ∉ modifiers) :
    s.classMember table done.length = .ok (none, s) := by
  refine classMember_eq_none h.ahead ht fun hstarts => ?_
  obtain ⟨u, hu, hmember⟩ := exists_of_startsMember h (hnone.line t List.mem_cons_self) hstarts
  exact hnone.names [] t ts rfl rfl hkind u hu hmember

end Erasure

end Workflow.Script
