import Workflow.Proofs.Script.Scanner

/-!
# Template literals end by themselves

A template literal may hold substitutions, and these may hold further literals. The
scanners of the two keep what waits outside in a list of levels, of which only the open
braces matter to what is read; the places at which the literals began serve the report
of a fault alone. So what is read of a template literal is read in the same way whatever
follows it and wherever it stands.
-/

namespace Workflow.Script

variable {cs rest : List Char}

/-- `body` is read as the rest of a template literal whatever follows it and wherever the
literals around it began. -/
def ReadsTemplate (outer : List TemplateLevel) (body : List Char) : Prop :=
  ∀ remaining outer' w, outer'.map TemplateLevel.braces = outer.map TemplateLevel.braces →
    templateTail remaining outer' (body ++ w) = .ok w

/-- `body` is read as the rest of a substitution and of the literals around it, whatever
follows it and wherever those literals began. -/
def ReadsSubstitution (braces : Nat) (outer : List TemplateLevel) (body : List Char) : Prop :=
  ∀ remaining outer' w, outer'.map TemplateLevel.braces = outer.map TemplateLevel.braces →
    substitutionTail remaining braces outer' (body ++ w) = .ok w

variable {outer : List TemplateLevel} {braces : Nat} {body : List Char}

/-- A template literal does not end before its backtick. -/
theorem ReadsTemplate.ne_nil (h : ReadsTemplate outer body) : body ≠ [] := by
  rintro rfl
  have := h 0 outer [] rfl
  rw [List.append_nil, templateTail] at this
  cases this

theorem ReadsSubstitution.ne_nil (h : ReadsSubstitution braces outer body) : body ≠ [] := by
  rintro rfl
  have := h 0 outer [] rfl
  rw [List.append_nil, substitutionTail] at this
  split at this
  all_goals simp_all [triviaTail]

/-- A token in a substitution stands behind its white space whatever follows it. -/
private theorem triviaTail_front {front : List Char} {c : Char} (hfront : Trivia front)
    (h : triviaTail (c :: (body ++ rest)) = .ok (c :: (body ++ rest))) (hbody : body ≠ [])
    (w : List Char) : triviaTail (front ++ c :: body ++ w) = .ok (c :: (body ++ w)) := by
  rw [List.append_assoc, hfront.triviaTail_append, List.cons_append]
  rw [triviaTail_eq_self_iff] at h ⊢
  cases body with
  | nil => exact absurd rfl hbody
  | cons d body => exact h

/-- A substitution is read on from its next token. -/
theorem substitutionTail_eq {remaining : Nat} {c : Char} (h : triviaTail cs = .ok (c :: rest)) :
    substitutionTail remaining braces outer cs =
      if c = '\x7b' then substitutionTail remaining (braces + 1) outer rest
      else if c = '\x7d' then
        match braces with
        | 0 => templateTail remaining outer rest
        | inner + 1 => substitutionTail remaining inner outer rest
      else if c = '"' ∨ c = '\'' then
        match stringTail c rest with
        | some after => substitutionTail remaining braces outer after
        | none => .error ⟨.unterminatedString, rest.length + 1⟩
      else if c = '\x60' then
        templateTail (rest.length + 1) (⟨remaining, braces⟩ :: outer) rest
      else substitutionTail remaining braces outer rest := by
  rw [substitutionTail]
  split
  · rename_i heq
    rw [h] at heq
    cases heq
  · rename_i heq
    rw [h] at heq
    cases heq
  · rename_i d tail heq
    rw [h] at heq
    cases heq
    split
    · rfl
    · split
      · rfl
      · split
        · split <;> simp_all
        · rfl

/-! ## What a substitution is read on with -/

section

variable {front : List Char} {c : Char}

/-- A brace is counted in front of what is read with one more of them. -/
private theorem ReadsSubstitution.opened (hfront : Trivia front)
    (hself : triviaTail ('\x7b' :: (body ++ rest)) = .ok ('\x7b' :: (body ++ rest)))
    (hbody : ReadsSubstitution (braces + 1) outer body) :
    ReadsSubstitution braces outer (front ++ '\x7b' :: body) := by
  intro remaining outer' w houter
  rw [substitutionTail_eq (triviaTail_front hfront hself hbody.ne_nil w), if_pos rfl]
  exact hbody _ _ w houter

/-- A brace that belongs to none in the substitution ends it. -/
private theorem ReadsTemplate.closed (hfront : Trivia front)
    (hself : triviaTail ('\x7d' :: (body ++ rest)) = .ok ('\x7d' :: (body ++ rest)))
    (hbody : ReadsTemplate outer body) :
    ReadsSubstitution 0 outer (front ++ '\x7d' :: body) := by
  intro remaining outer' w houter
  rw [substitutionTail_eq (triviaTail_front hfront hself hbody.ne_nil w), if_neg (by decide),
    if_pos rfl]
  exact hbody _ _ w houter

private theorem ReadsSubstitution.closed (hfront : Trivia front)
    (hself : triviaTail ('\x7d' :: (body ++ rest)) = .ok ('\x7d' :: (body ++ rest)))
    (hbody : ReadsSubstitution braces outer body) :
    ReadsSubstitution (braces + 1) outer (front ++ '\x7d' :: body) := by
  intro remaining outer' w houter
  rw [substitutionTail_eq (triviaTail_front hfront hself hbody.ne_nil w), if_neg (by decide),
    if_pos rfl]
  exact hbody _ _ w houter

/-- A string literal is passed over as a whole. -/
private theorem ReadsSubstitution.string {literal : List Char} (hfront : Trivia front)
    (hself : triviaTail (c :: (literal ++ body ++ rest)) = .ok (c :: (literal ++ body ++ rest)))
    (hquote : c = '"' ∨ c = '\'') (hliteral : ∀ w, stringTail c (literal ++ w) = some w)
    (hbody : ReadsSubstitution braces outer body) :
    ReadsSubstitution braces outer (front ++ c :: (literal ++ body)) := by
  intro remaining outer' w houter
  have hne : literal ++ body ≠ [] := by simp [hbody.ne_nil]
  have hmark : c ≠ '\x7b' ∧ c ≠ '\x7d' := by rcases hquote with rfl | rfl <;> decide
  rw [substitutionTail_eq (triviaTail_front hfront hself hne w), if_neg hmark.1, if_neg hmark.2,
    if_pos hquote, List.append_assoc, hliteral]
  exact hbody _ _ w houter

/-- A backtick opens a literal to which the substitution is one level further out. -/
private theorem ReadsTemplate.nested {level : TemplateLevel} (hfront : Trivia front)
    (hself : triviaTail ('\x60' :: (body ++ rest)) = .ok ('\x60' :: (body ++ rest)))
    (hlevel : level.braces = braces) (hbody : ReadsTemplate (level :: outer) body) :
    ReadsSubstitution braces outer (front ++ '\x60' :: body) := by
  intro remaining outer' w houter
  rw [substitutionTail_eq (triviaTail_front hfront hself hbody.ne_nil w), if_neg (by decide),
    if_neg (by decide), if_neg (by decide), if_pos rfl]
  exact hbody _ _ w (by simp [houter, hlevel])

private theorem ReadsSubstitution.plain (hfront : Trivia front)
    (hself : triviaTail (c :: (body ++ rest)) = .ok (c :: (body ++ rest))) (hopen : c ≠ '\x7b')
    (hclose : c ≠ '\x7d') (hquote : ¬ (c = '"' ∨ c = '\'')) (htick : c ≠ '\x60')
    (hbody : ReadsSubstitution braces outer body) :
    ReadsSubstitution braces outer (front ++ c :: body) := by
  intro remaining outer' w houter
  rw [substitutionTail_eq (triviaTail_front hfront hself hbody.ne_nil w), if_neg hopen,
    if_neg hclose, if_neg hquote, if_neg htick]
  exact hbody _ _ w houter

end

section

variable {n : Nat}
  (ihText : ∀ {remaining outer cs rest}, cs.length < n →
    templateTail remaining outer cs = .ok rest →
    ∃ body, cs = body ++ rest ∧ ReadsTemplate outer body)
  (ihSub : ∀ {remaining braces outer cs rest}, cs.length < n →
    substitutionTail remaining braces outer cs = .ok rest →
    ∃ body, cs = body ++ rest ∧ ReadsSubstitution braces outer body)

include ihText ihSub

/-- A template literal is read on behind its next character. -/
private theorem exists_body_of_templateTail_step {remaining : Nat} (hn : cs.length < n + 1)
    (h : templateTail remaining outer cs = .ok rest) :
    ∃ body, cs = body ++ rest ∧ ReadsTemplate outer body := by
  rw [templateTail.eq_def] at h
  split at h
  · cases h
  · rename_i c tail
    simp only [List.length_cons] at hn
    obtain ⟨body, rfl, hbody⟩ := ihText (by omega) h
    refine ⟨'\\' :: c :: body, rfl, fun remaining' outer' w houter => ?_⟩
    simp only [List.cons_append]
    rw [templateTail]
    exact hbody remaining' outer' w houter
  · rename_i tail
    simp only [List.length_cons] at hn
    split at h
    · cases h
      refine ⟨['\x60'], rfl, fun remaining' outer' w houter => ?_⟩
      rw [List.map_nil, List.map_eq_nil_iff] at houter
      rw [houter, List.cons_append, templateTail]
      rfl
    · obtain ⟨body, rfl, hbody⟩ := ihSub (by omega) h
      refine ⟨'\x60' :: body, rfl, fun remaining' outer' w houter => ?_⟩
      obtain ⟨level', levels', rfl, hlevel, hlevels⟩ := List.map_eq_cons_iff.mp houter
      rw [List.cons_append, templateTail, hlevel]
      exact hbody _ _ w hlevels
  · simp only [List.length_cons] at hn
    obtain ⟨body, rfl, hbody⟩ := ihSub (by omega) h
    refine ⟨'$' :: '\x7b' :: body, rfl, fun remaining' outer' w houter => ?_⟩
    simp only [List.cons_append]
    rw [templateTail]
    exact hbody _ _ w houter
  · rename_i c tail hesc htick hdollar
    simp only [List.length_cons] at hn
    obtain ⟨body, rfl, hbody⟩ := ihText (by omega) h
    refine ⟨c :: body, rfl, fun remaining' outer' w houter => ?_⟩
    obtain ⟨d, body, rfl⟩ := List.exists_cons_of_ne_nil hbody.ne_nil
    rw [List.cons_append, templateTail]
    · exact hbody remaining' outer' w houter
    · intro _ _ hc _
      exact hesc d (body ++ rest) hc rfl
    · exact htick
    · intro _ hc heq
      obtain ⟨rfl, -⟩ := List.cons.inj heq
      exact hdollar (body ++ rest) hc rfl

/-- A substitution is read on from its next token, whose kind tells what follows. -/
private theorem exists_body_of_substitutionTail_step {remaining : Nat} (hn : cs.length < n + 1)
    (h : substitutionTail remaining braces outer cs = .ok rest) :
    ∃ body, cs = body ++ rest ∧ ReadsSubstitution braces outer body := by
  cases ht : triviaTail cs with
  | error fault =>
    rw [substitutionTail] at h
    split at h <;> simp_all
  | ok left =>
    cases left with
    | nil =>
      rw [substitutionTail] at h
      split at h <;> simp_all
    | cons c tail =>
      obtain ⟨front, hfront, rfl⟩ := exists_trivia_of_triviaTail ht
      have hself := triviaTail_of_eq_ok ht
      simp only [List.length_append, List.length_cons] at hn
      rw [substitutionTail_eq ht] at h
      split_ifs at h with hopen hclose hquote htick
      · obtain ⟨body, rfl, hbody⟩ := ihSub (by omega) h
        subst hopen
        exact ⟨front ++ '\x7b' :: body, by simp, hbody.opened hfront hself⟩
      · subst hclose
        split at h
        · obtain ⟨body, rfl, hbody⟩ := ihText (by omega) h
          exact ⟨front ++ '\x7d' :: body, by simp, hbody.closed hfront hself⟩
        · obtain ⟨body, rfl, hbody⟩ := ihSub (by omega) h
          exact ⟨front ++ '\x7d' :: body, by simp, hbody.closed hfront hself⟩
      · split at h
        · rename_i after hafter
          have hescape : c ≠ '\\' := by rcases hquote with rfl | rfl <;> decide
          obtain ⟨literal, rfl, hliteral⟩ := exists_body_of_stringTail hescape hafter
          simp only [List.length_append] at hn
          obtain ⟨body, rfl, hbody⟩ := ihSub (by omega) h
          rw [← List.append_assoc] at hself
          exact ⟨front ++ c :: (literal ++ body), by simp,
            hbody.string hfront hself hquote hliteral⟩
        · cases h
      · obtain ⟨body, rfl, hbody⟩ := ihText (by omega) h
        subst htick
        exact ⟨front ++ '\x60' :: body, by simp, hbody.nested hfront hself rfl⟩
      · obtain ⟨body, rfl, hbody⟩ := ihSub (by omega) h
        exact ⟨front ++ c :: body, by simp,
          hbody.plain hfront hself hopen hclose hquote htick⟩

end

private theorem exists_body_of_length_lt (n : Nat) :
    (∀ {remaining outer cs rest}, cs.length < n → templateTail remaining outer cs = .ok rest →
      ∃ body, cs = body ++ rest ∧ ReadsTemplate outer body) ∧
    (∀ {remaining braces outer cs rest}, cs.length < n →
      substitutionTail remaining braces outer cs = .ok rest →
      ∃ body, cs = body ++ rest ∧ ReadsSubstitution braces outer body) := by
  induction n with
  | zero => exact ⟨fun hn => absurd hn (Nat.not_lt_zero _), fun hn => absurd hn (Nat.not_lt_zero _)⟩
  | succ n ih =>
    obtain ⟨ihText, ihSub⟩ := ih
    exact ⟨fun hn h => exists_body_of_templateTail_step ihText ihSub hn h,
      fun hn h => exists_body_of_substitutionTail_step ihText ihSub hn h⟩

/-- A template literal ends at its own backtick. -/
theorem exists_body_of_templateTail {remaining : Nat}
    (h : templateTail remaining outer cs = .ok rest) :
    ∃ body, cs = body ++ rest ∧ ReadsTemplate outer body :=
  (exists_body_of_length_lt (cs.length + 1)).1 (Nat.lt_succ_self _) h

theorem templateTail_append {remaining : Nat} (h : templateTail remaining outer cs = .ok [])
    (remaining' : Nat) (w : List Char) : templateTail remaining' outer (cs ++ w) = .ok w := by
  obtain ⟨body, rfl, hbody⟩ := exists_body_of_templateTail h
  simpa using hbody remaining' outer w rfl

end Workflow.Script