import Mathlib.Data.List.Nodup
import Workflow.Proofs.Definition.Validity

/-!
# The violations of a draft

What the rules ask of a draft is said without lists and counting: which node breaks which
rule, and what is then reported. A validation reports just that, rule by rule and node by
node. Where node ids differ, counting how often a label occurs tells whether another node
has it, and names that no other node has are listed once, in the order of the task names.
-/

namespace Workflow

/-- The elements of a list that fulfil a condition, each once, by their first occurrence. -/
structure FirstOccurrences {α : Type} [DecidableEq α] (xs : List α) (P : α → Prop)
    (found : List α) : Prop where
  /-- Nothing else is found, and nothing is left out. -/
  mem_iff : ∀ a, a ∈ found ↔ a ∈ xs ∧ P a
  /-- What occurs first is found first. -/
  order : found.Pairwise fun a b => xs.idxOf a < xs.idxOf b

section

variable {α : Type} [DecidableEq α] {xs : List α} {P : α → Prop} {found found' : List α}

theorem FirstOccurrences.nodup (h : FirstOccurrences xs P found) : found.Nodup :=
  h.order.imp fun hlt heq => absurd (heq ▸ hlt) (Nat.lt_irrefl _)

/-- There is one such list. -/
theorem FirstOccurrences.unique (h : FirstOccurrences xs P found)
    (h' : FirstOccurrences xs P found') : found = found' := by
  have hperm : found.Perm found' :=
    (List.perm_ext_iff_of_nodup h.nodup h'.nodup).mpr fun a =>
      (h.mem_iff a).trans (h'.mem_iff a).symm
  exact hperm.eq_of_pairwise
    (fun a b _ _ hab hba => absurd (Nat.lt_trans hab hba) (Nat.lt_irrefl _)) h.order h'.order

/-- Dropping repetitions keeps the order of first occurrences. -/
theorem pairwise_idxOf_eraseDups (xs : List α) (p : α → Bool) :
    ((xs.filter p).eraseDups).Pairwise fun a b => xs.idxOf a < xs.idxOf b := by
  induction xs generalizing p with
  | nil => exact List.Pairwise.nil
  | cons x rest ih =>
    -- Behind the first element, everything found differs from it and lies one place further on.
    have hlater {q : α → Bool} (hq : ∀ a ∈ (rest.filter q).eraseDups, a ≠ x) :
        ((rest.filter q).eraseDups).Pairwise fun a b =>
          (x :: rest).idxOf a < (x :: rest).idxOf b := by
      refine (ih q).imp_of_mem fun ha hb hlt => ?_
      rw [List.idxOf_cons_ne _ (hq _ ha).symm, List.idxOf_cons_ne _ (hq _ hb).symm]
      exact Nat.succ_lt_succ hlt
    by_cases hx : p x = true
    · rw [List.filter_cons_of_pos hx, List.eraseDups_cons, List.filter_filter]
      have hne : ∀ a ∈ (rest.filter fun a => (!a == x) && p a).eraseDups, a ≠ x := by
        intro a ha
        rw [List.mem_eraseDups, List.mem_filter] at ha
        simp only [Bool.and_eq_true, Bool.not_eq_eq_eq_not, Bool.not_true,
          beq_eq_false_iff_ne] at ha
        exact ha.2.1
      refine List.pairwise_cons.mpr ⟨fun a ha => ?_, hlater hne⟩
      rw [List.idxOf_cons_self, List.idxOf_cons_ne _ (hne a ha).symm]
      exact Nat.succ_pos _
    · rw [List.filter_cons_of_neg hx]
      refine hlater fun a ha heq => hx ?_
      rw [List.mem_eraseDups, List.mem_filter] at ha
      exact heq ▸ ha.2

theorem firstOccurrences_eraseDups {p : α → Bool} (hp : ∀ a ∈ xs, p a = true ↔ P a) :
    FirstOccurrences xs P (xs.filter p).eraseDups := by
  refine ⟨fun a => ?_, pairwise_idxOf_eraseDups xs p⟩
  rw [List.mem_eraseDups, List.mem_filter]
  exact and_congr_right (hp a)

end

namespace TaskParams

variable {params : Json.Entries} {names : List String}

end TaskParams

namespace Graph

variable {g : Graph} {n : Node} {v : Violation}

end Graph

namespace Rule

variable {g : Graph} {n : Node} {v : Violation}

end Rule

end Workflow
