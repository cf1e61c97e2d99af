import Mathlib.Data.List.Nodup
import Workflow.Definition.Compile

/-!
# What a compiled draft has shown

A draft compiles only after every rule was checked for every node. The facts below say
what the absence of violations means for labels and for the tasks that are waited for.
-/

namespace Workflow

/-- A definition comes from a draft without violations under metadata without problems, and
its tasks are the nodes in order. -/
theorem Graph.compileAfter_eq_ok_iff {g : Graph} {violations : List Violation} {m : Metadata}
    {d : Definition} : g.compileAfter violations m = .ok d ↔ violations = [] ∧ m.problems = [] ∧
      d = ⟨m.name, m.description, m.status, m.globals, g.nodes.map g.compileNode⟩ := by
  unfold Graph.compileAfter
  split
  · split
    · rename_i hproblems
      simp [hproblems, eq_comm]
    · rename_i hproblems
      simp only [reduceCtorEq, false_iff]
      rintro ⟨_, h, _⟩
      exact hproblems h
  · rename_i hviolations
    simp only [reduceCtorEq, false_iff]
    rintro ⟨h, _⟩
    exact hviolations h

/-- Rules find no violation exactly if none of them finds one at a node. -/
theorem Graph.validateBy_eq_nil_iff {g : Graph} {rules : List Rule} :
    g.validateBy rules = [] ↔ ∀ rule ∈ rules, ∀ n ∈ g.nodes, rule.checkNode g n = [] := by
  simp [Graph.validateBy, Rule.check]

/-- The label of a node that has one is not blank. -/
theorem Rule.labelRequired_eq_nil_iff {g : Graph} {n : Node} :
    Rule.labelRequired.checkNode g n = [] ↔ Text.isBlankText n.label = false := by
  simp [Rule.checkNode]

/-- A label that is not blank is reported exactly if it occurs again. -/
theorem Rule.labelUnique_eq_nil_iff {g : Graph} {n : Node}
    (h : Text.isBlankText n.label = false) :
    Rule.labelUnique.checkNode g n = [] ↔ (g.nodes.map Node.label).count n.label ≤ 1 := by
  simp [Rule.checkNode, h]

/-- Where every label is given and none is reported as used again, no two nodes have the same
label. -/
theorem Graph.nodup_labels {g : Graph}
    (hrequired : ∀ n ∈ g.nodes, Rule.labelRequired.checkNode g n = [])
    (hunique : ∀ n ∈ g.nodes, Rule.labelUnique.checkNode g n = []) :
    (g.nodes.map Node.label).Nodup := by
  refine List.nodup_iff_count_le_one.mpr fun label => ?_
  by_cases hmem : label ∈ g.nodes.map Node.label
  · obtain ⟨n, hn, rfl⟩ := List.mem_map.mp hmem
    have hblank := Rule.labelRequired_eq_nil_iff.mp (hrequired n hn)
    exact (Rule.labelUnique_eq_nil_iff hblank).mp (hunique n hn)
  · rw [List.count_eq_zero_of_not_mem hmem]
    exact Nat.zero_le 1

/-- A task that waits and is not reported for its params lists the names of other nodes. -/
theorem Rule.waitReferences_eq_nil {g : Graph} {n : Node} (htype : n.type = .wait)
    (hparams : Rule.taskParams.checkNode g n = [])
    (hwait : Rule.waitReferences.checkNode g n = []) :
    ∃ names, TaskParams.taskNames? n.params = some names ∧
      ∀ name ∈ names, ∃ m ∈ g.nodes, m.label = name ∧ m.id ≠ n.id := by
  cases hnames : TaskParams.taskNames? n.params with
  | none => simp [Rule.checkNode, TaskParams.narrow, htype, hnames] at hparams
  | some names =>
    refine ⟨names, rfl, fun name hname => ?_⟩
    have hnone : Rule.unknownNames g n = [] := by
      rw [Rule.checkNode] at hwait
      split at hwait
      · assumption
      · exact absurd hwait (List.cons_ne_nil _ _)
    have hknown : name ∉ Rule.unknownNames g n := by simp [hnone]
    simp only [Rule.unknownNames, TaskParams.narrow, htype, hnames, List.mem_eraseDups,
      List.mem_filter, not_and, Bool.not_eq_true', Bool.not_eq_false] at hknown
    simpa [Rule.namesOther] using hknown hname

end Workflow
