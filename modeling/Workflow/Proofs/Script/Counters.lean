import Workflow.Proofs.Script.Bounds
import Workflow.Proofs.Script.Template

/-!
# Counters of open brackets stay above zero

Two searches count brackets: the one for the end of a list in angle brackets, and the one for
the end of a substitution in a template literal. Here each is given once more with a counter
that has to be above zero wherever it is taken down, and that answers nothing where it is not.
These searches always answer, and they answer what the others do.
-/

namespace Workflow.Script

namespace TokenTable

/-- The search for the `>` that closes all open angle brackets, with their number as it is counted
from the first of them on. A `>` without an open bracket has no answer. -/
def countedAngleEnd (table : TokenTable) (first depth m : Nat) : Option (Except Fault Nat) :=
  match _ : table.kind m with
  | .finish => some (.error (table.fault first .unterminatedTypeList))
  | .punctuator =>
    match table.text m with
    | "<" => countedAngleEnd table first (depth + 1) (m + 1)
    | ">" =>
      match depth with
      | 0 => none
      | 1 => some (.ok (m + 1))
      | depth + 2 => countedAngleEnd table first (depth + 1) (m + 1)
    | "(" | "[" | "\x7b" => countedAngleEnd table first depth (table.closeOf m + 1)
    | ";" | ")" | "]" | "\x7d" => some (.error (table.fault first .unterminatedTypeList))
    | _ => countedAngleEnd table first depth (m + 1)
  | .word | .number | .string | .template | .regex =>
    countedAngleEnd table first depth (m + 1)
termination_by table.tokens.size - m
decreasing_by
  all_goals
    have := table.lt_size_of_kind_ne (i := m) (by simp_all)
    have := table.le_closeOf m
    omega

variable {table : TokenTable} {first depth k m : Nat}

/-- A token that the search does not look at is passed over. -/
theorem map_angleEndFrom_other (hkind : table.kind m ≠ .finish)
    (htext : table.kind m = .punctuator → table.text m ∉ angleMarks) :
    (table.angleEndFrom first depth m).map Subtype.val =
      (table.angleEndFrom first depth (m + 1)).map Subtype.val := by
  by_cases hmark : table.kind m = .punctuator
  · have hother := htext hmark
    rw [angleEndFrom_mark hmark]
    split
    case h_10 => cases table.angleEndFrom first depth (m + 1) <;> rfl
    all_goals
      rename_i heq
      rw [heq] at hother
      exact absurd (by decide) hother
  · rw [angleEndFrom_eq hmark hkind]
    cases table.angleEndFrom first depth (m + 1) <;> rfl

/-- Behind an open bracket the counter is above zero where it is taken down. -/
theorem countedAngleEnd_eq (h : 0 < depth) : table.countedAngleEnd first depth m =
    some ((table.angleEndFrom first depth m).map Subtype.val) := by
  fun_induction countedAngleEnd table first depth m with
  | case1 depth m hkind => rw [angleEndFrom_finish hkind]; rfl
  | case2 depth m hkind htext ih =>
    rw [ih (Nat.succ_pos depth), angleEndFrom_mark hkind, htext]
    cases table.angleEndFrom first (depth + 1) (m + 1) <;> rfl
  | case3 => cases h
  | case4 m hkind htext =>
    rw [angleEndFrom_mark hkind, htext]
    rfl
  | case5 m hkind htext depth ih =>
    have houter : ¬ depth.succ.succ ≤ 1 := by omega
    have hless : depth.succ.succ - 1 = depth + 1 := rfl
    rw [ih (Nat.succ_pos depth), angleEndFrom_mark hkind, htext]
    simp only [if_neg houter, hless]
    cases table.angleEndFrom first (depth + 1) (m + 1) <;> rfl
  | case6 depth m hkind htext ih | case7 depth m hkind htext ih | case8 depth m hkind htext ih =>
    rw [ih h, angleEndFrom_mark hkind, htext]
    cases table.angleEndFrom first depth (table.closeOf m + 1) <;> rfl
  | case9 depth m hkind htext | case10 depth m hkind htext | case11 depth m hkind htext
  | case12 depth m hkind htext =>
    rw [angleEndFrom_mark hkind, htext]
    rfl
  | case13 depth m hkind _ _ _ _ _ _ _ _ _ ih =>
    rw [ih h, ← map_angleEndFrom_other (by rw [hkind]; decide)]
    intro _ hmem
    simp_all [angleMarks]
  | case14 depth m hkind ih | case15 depth m hkind ih | case16 depth m hkind ih
  | case17 depth m hkind ih | case18 depth m hkind ih =>
    rw [ih h, ← map_angleEndFrom_other (by rw [hkind]; decide)]
    simp [hkind]

/-- From the first bracket of a list on the counter is above zero where it is taken down. -/
theorem countedAngleEnd_start {source : String} (htable : tokenize source = .ok table)
    (h : table.is k "<" = true) :
    table.countedAngleEnd k 0 k = some ((table.angleEnd k).map Subtype.val) := by
  have hkind := kind_of_is_angle htable h
  have htext := text_of_is h
  have hstart : table.countedAngleEnd k 0 k = table.countedAngleEnd k 1 (k + 1) := by
    rw [countedAngleEnd]
    split <;> simp_all
  rw [hstart, countedAngleEnd_eq Nat.one_pos, angleEnd, angleEndFrom_mark hkind, htext]
  cases table.angleEndFrom k 1 (k + 1) <;> rfl

end TokenTable

/-- A level with the brace counted that opens its substitution. -/
def TemplateLevel.counted (level : TemplateLevel) : TemplateLevel :=
  { level with braces := level.braces + 1 }

mutual

/-- What follows a template literal whose opening backtick has been read, where in each
substitution its own brace is counted. -/
def countedTemplateTail (remaining : Nat) (outer : List TemplateLevel) (cs : List Char) :
    Option (Except LexicalFault (List Char)) :=
  match cs with
  | [] => some (.error ⟨.unterminatedTemplate, remaining⟩)
  | '\\' :: _ :: rest => countedTemplateTail remaining outer rest
  | '\x60' :: rest =>
    match outer with
    | [] => some (.ok rest)
    | level :: levels => countedSubstitutionTail level.remaining level.braces levels rest
  | '$' :: '\x7b' :: rest => countedSubstitutionTail remaining 1 outer rest
  | _ :: rest => countedTemplateTail remaining outer rest
termination_by 2 * cs.length
decreasing_by all_goals (simp only [List.length_cons]; omega)

/-- What follows the template literal in one of whose substitutions the reading stands. A brace
that closes where none is open has no answer. -/
def countedSubstitutionTail (remaining depth : Nat) (outer : List TemplateLevel)
    (cs : List Char) : Option (Except LexicalFault (List Char)) :=
  match h : triviaTail cs with
  | .error fault => some (.error fault)
  | .ok [] => some (.error ⟨.unterminatedTemplate, remaining⟩)
  | .ok (c :: rest) =>
    if c = '\x7b' then countedSubstitutionTail remaining (depth + 1) outer rest
    else if c = '\x7d' then
      match depth with
      | 0 => none
      | 1 => countedTemplateTail remaining outer rest
      | depth + 2 => countedSubstitutionTail remaining (depth + 1) outer rest
    else if c = '"' ∨ c = '\'' then
      match h' : stringTail c rest with
      | some after => countedSubstitutionTail remaining depth outer after
      | none => some (.error ⟨.unterminatedString, rest.length + 1⟩)
    else if c = '\x60' then
      countedTemplateTail (rest.length + 1) (⟨remaining, depth⟩ :: outer) rest
    else countedSubstitutionTail remaining depth outer rest
termination_by 2 * cs.length + 1
decreasing_by
  all_goals
    have h₁ := length_triviaTail_le h
    simp only [List.length_cons] at h₁
    try have h₂ := length_stringTail_lt h'
    omega

end

section

variable {remaining braces depth : Nat} {outer : List TemplateLevel} {cs rest : List Char}
  {c : Char}

/-- A substitution is read on from its next token. -/
theorem countedSubstitutionTail_eq (h : triviaTail cs = .ok (c :: rest)) :
    countedSubstitutionTail remaining depth outer cs =
      if c = '\x7b' then countedSubstitutionTail remaining (depth + 1) outer rest
      else if c = '\x7d' then
        match depth with
        | 0 => none
        | 1 => countedTemplateTail remaining outer rest
        | depth + 2 => countedSubstitutionTail remaining (depth + 1) outer rest
      else if c = '"' ∨ c = '\'' then
        match stringTail c rest with
        | some after => countedSubstitutionTail remaining depth outer after
        | none => some (.error ⟨.unterminatedString, rest.length + 1⟩)
      else if c = '\x60' then
        countedTemplateTail (rest.length + 1) (⟨remaining, depth⟩ :: outer) rest
      else countedSubstitutionTail remaining depth outer rest := by
  rw [countedSubstitutionTail]
  split
  · rename_i heq
    rw [h] at heq
    cases heq
  · rename_i heq
    rw [h] at heq
    cases heq
  · rename_i d tail heq
    rw [h] at heq
    cases heq
    split
    · rfl
    · split
      · rfl
      · split
        · split <;> simp_all
        · rfl

/-- Where no token follows in a substitution, no brace is counted. -/
theorem countedSubstitutionTail_stop (h : ∀ c rest, triviaTail cs ≠ .ok (c :: rest)) :
    countedSubstitutionTail remaining depth (outer.map TemplateLevel.counted) cs =
      some (substitutionTail remaining braces outer cs) := by
  rw [countedSubstitutionTail]
  split
  case h_1 | h_2 =>
    rw [substitutionTail]
    split <;> simp_all
  case h_3 heq => exact absurd heq (h _ _)

/-- Behind the brace that opens a substitution the counter is above zero where it is taken
down. -/
private theorem countedTail_eq :
    (∀ remaining outer cs, countedTemplateTail remaining (outer.map TemplateLevel.counted) cs =
      some (templateTail remaining outer cs)) ∧
    (∀ remaining braces outer cs,
      countedSubstitutionTail remaining (braces + 1) (outer.map TemplateLevel.counted) cs =
        some (substitutionTail remaining braces outer cs)) := by
  apply templateTail.mutual_induct
  case case1 =>
    intro remaining outer
    rw [countedTemplateTail, templateTail]
  case case2 =>
    intro remaining outer c rest ih
    rw [countedTemplateTail, templateTail, ih]
  case case3 =>
    intro remaining rest
    rw [List.map_nil, countedTemplateTail, templateTail]
  case case4 =>
    intro remaining rest level levels ih
    rw [List.map_cons, countedTemplateTail, templateTail]
    exact ih
  case case5 =>
    intro remaining outer rest ih
    rw [countedTemplateTail, templateTail]
    exact ih
  case case6 =>
    intro remaining outer c rest hescape htick hdollar ih
    rw [countedTemplateTail, templateTail, ih] <;> assumption
  case case7 | case8 =>
    intros
    exact countedSubstitutionTail_stop (by simp_all)
  case case9 =>
    intro remaining braces outer cs rest h ih
    rw [countedSubstitutionTail_eq h, substitutionTail_eq h, if_pos rfl, if_pos rfl, ih]
  case case10 =>
    intro remaining outer cs rest h hopen ih
    rw [countedSubstitutionTail_eq h, substitutionTail_eq h, if_neg hopen, if_neg hopen,
      if_pos rfl, if_pos rfl]
    exact ih
  case case11 =>
    intro remaining outer cs rest inner h hopen ih
    rw [countedSubstitutionTail_eq h, substitutionTail_eq h, if_neg hopen, if_neg hopen,
      if_pos rfl, if_pos rfl]
    exact ih
  case case12 =>
    intro remaining braces outer cs c rest h hopen hclose hquote after hafter ih
    simp only [countedSubstitutionTail_eq h, substitutionTail_eq h, hopen, hclose, hquote, hafter,
      if_true, if_false, ih]
  case case13 =>
    intro remaining braces outer cs c rest h hopen hclose hquote hafter
    simp only [countedSubstitutionTail_eq h, substitutionTail_eq h, hopen, hclose, hquote, hafter,
      if_true, if_false]
  case case14 =>
    intro remaining braces outer cs rest h hopen hclose hquote ih
    rw [countedSubstitutionTail_eq h, substitutionTail_eq h, if_neg hopen, if_neg hopen,
      if_neg hclose, if_neg hclose, if_neg hquote, if_neg hquote, if_pos rfl, if_pos rfl]
    exact ih
  case case15 =>
    intro remaining braces outer cs c rest h hopen hclose hquote htick ih
    rw [countedSubstitutionTail_eq h, substitutionTail_eq h, if_neg hopen, if_neg hopen,
      if_neg hclose, if_neg hclose, if_neg hquote, if_neg hquote, if_neg htick, if_neg htick, ih]

/-- From the backtick of a template literal on the counters of its substitutions are above zero
where they are taken down. -/
theorem countedTemplateTail_start (remaining : Nat) (cs : List Char) :
    countedTemplateTail remaining [] cs = some (templateTail remaining [] cs) :=
  countedTail_eq.1 remaining [] cs

end

end Workflow.Script
