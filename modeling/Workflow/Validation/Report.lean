import Workflow.Validation.Rule

/-!
# Reports

The violations of one validation can be asked for by node and by field, are grouped
by node in the order in which nodes first appear, and are shown as a text with one
block for each node.
-/

namespace Workflow

/-- The violations that one validation found, in order. -/
structure Report where
  /-- The violations in order. -/
  violations : List Violation
  deriving DecidableEq, Repr

namespace Report

variable (r : Report)

/-- The violations of a node. -/
def forNode (id : NodeId) : List Violation := r.violations.filter (·.node == id)

/-- The violations of a field of a node. -/
def forField (id : NodeId) (field : String) : List Violation :=
  (r.forNode id).filter (·.field == field)

/-- The nodes with violations, each once, in the order of their first violation. -/
def nodes : List NodeId := (r.violations.map Violation.node).eraseDups

/-- The violations by node. -/
def byNode : List (NodeId × List Violation) := r.nodes.map fun id => (id, r.forNode id)

/-- The heading of the block for a node. The node may be gone since. -/
def heading (g : Graph) (id : NodeId) : String :=
  match g.node? id with
  | some n =>
    let label := if Text.isBlankText n.label then "<unnamed>" else n.label
    label ++ " [" ++ n.type.name ++ "] (" ++ id.text ++ ")"
  | none => "<removed> (" ++ id.text ++ ")"

/-- The block for a node. -/
def block (g : Graph) (group : NodeId × List Violation) : String :=
  "\n  " ++ heading g group.1 ++
    String.join (group.2.map fun v => "\n    - " ++ v.field ++ ": " ++ v.message)

/-- The text of a report, with labels and types taken from a graph. -/
def format (g : Graph) : String :=
  if r.violations.isEmpty then "No problems found"
  else
    toString r.violations.length ++ " problem(s) in " ++ toString r.byNode.length ++ " task(s)" ++
      String.join (r.byNode.map (block g))

end Report

end Workflow
