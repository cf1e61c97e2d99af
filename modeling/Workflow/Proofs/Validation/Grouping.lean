import Mathlib.Algebra.GroupWithZero.Nat
import Workflow.Proofs.Graph.Coherence
import Workflow.Proofs.Validation.Violations
import Workflow.Text.Digits
import Workflow.Validation.Report

/-!
# Violations by node

The groups of a report are its violations sorted by node: no group is empty, no node has two, and
merged they hold every violation as often as the report does. The text of a report states how many
violations and groups there are and then shows group by group, also when a node has left the graph
since.
-/

namespace Workflow

/-- A line for a violation shows its field and its message. -/
def Violation.line (v : Violation) : String := "\n    - " ++ v.field ++ ": " ++ v.message

namespace Report

/-- Violations are grouped by node. -/
structure Partitions (r : Report) (groups : List (NodeId × List Violation)) : Prop where
  /-- No node has two groups. -/
  nodup : (groups.map Prod.fst).Nodup
  /-- The nodes are those of the violations, by their first appearance. -/
  order : FirstOccurrences (r.violations.map Violation.node) (fun _ => True) (groups.map Prod.fst)
  /-- A group holds the violations of its node in their order. -/
  group : ∀ group ∈ groups, group.2 = r.forNode group.1
  /-- No group is empty. -/
  nonempty : ∀ group ∈ groups, group.2 ≠ []
  /-- The groups have as many violations as the report. -/
  sizes : (groups.map (·.2.length)).sum = r.violations.length
  /-- Merged, the groups hold the violations of the report. -/
  merged : (groups.flatMap Prod.snd).Perm r.violations

/-- A number of violations and a number of groups in words. -/
def tally (violations groups : Nat) : String :=
  toString violations ++ " problem(s) in " ++ toString groups ++ " task(s)"

/-- What a text states in front of its blocks: how many violations and how many groups there are. -/
def header (r : Report) : String :=
  if r.violations.isEmpty then "No problems found"
  else tally r.violations.length r.byNode.length

/-- What the block for a node is headed by. -/
inductive Heads (g : Graph) (id : NodeId) : String → Prop
  /-- The graph has the node, under a label. -/
  | labelled {n : Node} : g.node? id = some n → Text.isBlankText n.label = false →
      Heads g id (n.label ++ " [" ++ n.type.name ++ "] (" ++ id.text ++ ")")
  /-- The graph has the node, but its label is blank. -/
  | unnamed {n : Node} : g.node? id = some n → Text.isBlankText n.label = true →
      Heads g id ("<unnamed>" ++ " [" ++ n.type.name ++ "] (" ++ id.text ++ ")")
  /-- The graph does not have the node. -/
  | removed : (∀ n ∈ g.nodes, n.id ≠ id) → Heads g id ("<removed> (" ++ id.text ++ ")")

/-- A block shows a group: a line that it is headed by, and a line for each of its violations. -/
def Shows (g : Graph) (group : NodeId × List Violation) (block : String) : Prop :=
  ∃ head, Heads g group.1 head ∧
    block = "\n  " ++ head ++ String.join (group.2.map Violation.line)

variable {r : Report} {g : Graph}

theorem map_fst_byNode (r : Report) : r.byNode.map Prod.fst = r.nodes := by
  rw [byNode, List.map_map]
  exact List.map_id _

theorem mem_nodes_iff {id : NodeId} : id ∈ r.nodes ↔ ∃ v ∈ r.violations, v.node = id := by
  rw [nodes, List.mem_eraseDups, List.mem_map]

theorem merged_byNode (r : Report) : (r.byNode.flatMap Prod.snd).Perm r.violations := by
  have hall : (r.violations.filter fun v => decide (v.node ∈ r.nodes)) = r.violations :=
    List.filter_eq_self.mpr fun v hv => by simpa using mem_nodes_iff.mpr ⟨v, hv, rfl⟩
  have hnodes : r.nodes.Nodup := nodup_eraseDups _
  have hparts : (r.nodes.flatMap fun id => r.violations.filter (·.node == id)).Perm
      (r.violations.filter fun v => decide (v.node ∈ r.nodes)) :=
    flatMap_filter_perm hnodes r.violations
  rw [hall] at hparts
  rw [byNode, List.flatMap_map]
  exact hparts

/-- The groups of a report partition its violations. -/
theorem partitions_byNode (r : Report) : r.Partitions r.byNode where
  nodup := r.map_fst_byNode ▸ nodup_eraseDups _
  order := by
    have hnodes : FirstOccurrences (r.violations.map Violation.node) (fun _ => True)
        ((r.violations.map Violation.node).filter fun _ => true).eraseDups :=
      firstOccurrences_eraseDups (by simp)
    rwa [List.filter_true, ← nodes, ← map_fst_byNode] at hnodes
  group := by simp [byNode]
  nonempty := by
    intro group hgroup
    obtain ⟨id, hid, rfl⟩ := List.mem_map.mp hgroup
    obtain ⟨v, hv, hnode⟩ := mem_nodes_iff.mp hid
    have hmem : v ∈ r.forNode id := List.mem_filter.mpr ⟨hv, beq_iff_eq.mpr hnode⟩
    exact List.ne_nil_of_mem hmem
  sizes := by
    rw [← r.merged_byNode.length_eq, List.length_flatMap]
  merged := r.merged_byNode

theorem heads_heading (g : Graph) (id : NodeId) : Heads g id (heading g id) := by
  simp only [heading]
  cases hn : g.node? id with
  | none => exact .removed (Graph.node?_eq_none_iff.mp hn)
  | some n =>
    cases hlabel : Text.isBlankText n.label with
    | true =>
      simp only [hlabel, if_true]
      exact .unnamed hn hlabel
    | false =>
      simp only [hlabel, Bool.false_eq_true, if_false]
      exact .labelled hn hlabel

theorem byNode_eq_nil_iff : r.byNode = [] ↔ r.violations = [] := by
  rw [byNode, List.map_eq_nil_iff, List.eq_nil_iff_forall_not_mem]
  simp [mem_nodes_iff, List.eq_nil_iff_forall_not_mem]

/-! ### The numbers in front -/

/-- The number of violations is the digits that a statement begins with. -/
theorem takeWhile_tally (violations groups : Nat) :
    (tally violations groups).toList.takeWhile Char.isDigit = Nat.toDigits 10 violations := by
  have hdigits : ∀ c ∈ Nat.toDigits 10 violations, c.isDigit = true := fun c hc =>
    Nat.isDigit_of_mem_toDigits (by decide) (by decide) hc
  have htext : (tally violations groups).toList = Nat.toDigits 10 violations ++
      (" problem(s) in ".toList ++ (Nat.toDigits 10 groups ++ " task(s)".toList)) := by
    simp only [tally, String.toList_append, Text.toList_toString, List.append_assoc]
  rw [htext, List.takeWhile_append_of_pos hdigits]
  exact List.append_nil _

theorem tally_injective {violations groups violations' groups' : Nat}
    (h : tally violations groups = tally violations' groups') :
    violations = violations' ∧ groups = groups' := by
  have hdigits := congrArg (fun s : String => s.toList.takeWhile Char.isDigit) h
  simp only [takeWhile_tally] at hdigits
  obtain rfl : violations = violations' := by
    rw [← Text.natOf_toDigits violations, hdigits, Text.natOf_toDigits]
  refine ⟨rfl, Text.toString_injective ?_⟩
  exact (String.append_right_inj _).mp ((String.append_left_inj _).mp h)

theorem tally_ne (violations groups : Nat) : tally violations groups ≠ "No problems found" := by
  intro h
  have hdigits := congrArg (fun s : String => s.toList.takeWhile Char.isDigit) h
  simp only [takeWhile_tally] at hdigits
  exact Nat.toDigits_ne_nil (hdigits.trans (by decide))

/-- Texts state the same exactly if they are about as many violations and as many groups. -/
theorem header_eq_iff {r r' : Report} : r.header = r'.header ↔
    r.violations.length = r'.violations.length ∧ r.byNode.length = r'.byNode.length := by
  have hgroups {r : Report} (hr : r.violations = []) : r.byNode = [] := byNode_eq_nil_iff.mpr hr
  rw [header, header]
  cases hr : r.violations with
  | nil =>
    cases hr' : r'.violations with
    | nil => simp [hgroups hr, hgroups hr']
    | cons v vs => simpa using (tally_ne _ _).symm
  | cons v vs =>
    cases hr' : r'.violations with
    | nil => simpa using tally_ne _ _
    | cons v' vs' =>
      refine ⟨fun h => tally_injective h, fun ⟨hviolations, hgroups⟩ => ?_⟩
      rw [hviolations, hgroups]
      rfl

/-! ### The text -/

/-- A text is the statement of the numbers with the blocks of the groups behind it. -/
theorem format_eq (r : Report) (g : Graph) :
    r.format g = r.header ++ String.join (r.byNode.map (block g)) := by
  rw [Report.format, header]
  cases hempty : r.violations.isEmpty with
  | true =>
    rw [byNode_eq_nil_iff.mpr (List.isEmpty_iff.mp hempty)]
    simp
  | false => simp [tally]

theorem shows_block (g : Graph) (group : NodeId × List Violation) :
    Shows g group (block g group) :=
  ⟨heading g group.1, heads_heading g group.1, rfl⟩

/-- Grouping and formatting lose nothing and repeat nothing. The groups of a report partition its
violations by node. Its text begins with a statement of how many violations and groups there are,
which no report with other numbers makes, and goes on with one block for each group in order. -/
theorem groups_and_text (r : Report) (g : Graph) :
    r.Partitions r.byNode ∧
    (r.violations ≠ [] → r.header = toString r.violations.length ++ " problem(s) in " ++
      toString r.byNode.length ++ " task(s)") ∧
    (∀ r' : Report, r'.header = r.header ↔
      r'.violations.length = r.violations.length ∧ r'.byNode.length = r.byNode.length) ∧
    ∃ blocks, r.format g = r.header ++ String.join blocks ∧
      List.Forall₂ (Shows g) r.byNode blocks := by
  refine ⟨r.partitions_byNode, fun hsome => ?_, fun r' => header_eq_iff,
    r.byNode.map (block g), r.format_eq g, ?_⟩
  · rw [header, if_neg (by simpa using hsome), tally]
  · rw [List.forall₂_map_right_iff]
    exact List.forall₂_same.mpr fun group _ => shows_block g group

end Report

end Workflow
