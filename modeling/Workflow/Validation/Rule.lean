import Workflow.Graph.Basic
import Workflow.Task.Params

/-!
# Rules for drafts

A draft can be executed only if it keeps some rules. A rule that is broken gives a
violation for each node that breaks it, so that all problems are shown at once.
-/

namespace Workflow

/-- A broken rule, reported for a field of a node. -/
structure Violation where
  /-- The node that breaks the rule. -/
  node : NodeId
  /-- The field that the problem lies in. -/
  field : String
  /-- The sentence that reports the problem. -/
  message : String
  deriving DecidableEq, Repr

namespace Violation

/-- Reads a violation. -/
def read? (part : Json.Raw) : Option Violation := do
  let r ← Json.Record.read? ["nodeId", "field", "message"] part
  return ⟨⟨← r.required "nodeId" Json.Raw.text?⟩, ← r.required "field" Json.Raw.text?,
    ← r.required "message" Json.Raw.text?⟩

/-- Writes a violation. -/
def toJson (v : Violation) : Json :=
  .object [("nodeId", .string v.node.text), ("field", .string v.field),
    ("message", .string v.message)]

end Violation

/-- The rules. -/
inductive Rule where
  /-- Every node has a label that is not blank. -/
  | labelRequired
  /-- No two nodes have the same label; blank ones do not count. -/
  | labelUnique
  /-- No key of the params is blank. -/
  | paramKeys
  /-- The params fit the type of the task. -/
  | taskParams
  /-- A task that waits names labels of other nodes. -/
  | waitReferences
  /-- A task with a script has it and its source. -/
  | scriptRequired
  deriving DecidableEq, Repr

namespace Rule

/-- The rules of a standard validation, in order. -/
def standard : List Rule :=
  [.labelRequired, .labelUnique, .paramKeys, .taskParams, .waitReferences, .scriptRequired]

/-- The name of a rule. -/
def name : Rule → String
  | .labelRequired => "label-required"
  | .labelUnique => "label-unique"
  | .paramKeys => "param-keys"
  | .taskParams => "task-params"
  | .waitReferences => "wait-references"
  | .scriptRequired => "script-required"

/-- The rule with a name. -/
def ofName? (name : String) : Option Rule := standard.find? (·.name == name)

/-- Whether a label is the label of another node. -/
def namesOther (g : Graph) (n : Node) (label : String) : Bool :=
  g.nodes.any fun m => m.label == label && m.id != n.id

/-- The names that a task waits for and that are the label of no other node, each once. -/
def unknownNames (g : Graph) (n : Node) : List String :=
  match TaskParams.narrow n.type n.params with
  | .ok (.wait names) => (names.filter fun name => !namesOther g n name).eraseDups
  | _ => []

/-- Whether a script is missing or blank. -/
def isBlankScript (script : Option String) : Bool := script.all Text.isBlankText

/-- The violations of a rule by one node. -/
def checkNode (rule : Rule) (g : Graph) (n : Node) : List Violation :=
  match rule with
  | .labelRequired =>
    if Text.isBlankText n.label then [⟨n.id, "label", "Label is required"⟩] else []
  | .labelUnique =>
    if !Text.isBlankText n.label && 1 < (g.nodes.map Node.label).count n.label then
      [⟨n.id, "label", "Task name already exists"⟩]
    else []
  | .paramKeys =>
    if n.params.keys.any Text.isBlankText then [⟨n.id, "params", "Empty keys are not valid"⟩]
    else []
  | .taskParams =>
    match TaskParams.narrow n.type n.params with
    | .ok _ => []
    | .error issue => [⟨n.id, issue.field, issue.message⟩]
  | .waitReferences =>
    match unknownNames g n with
    | [] => []
    | names => [⟨n.id, "params.taskNames", "Unknown task(s): " ++ ", ".intercalate names⟩]
  | .scriptRequired =>
    if n.type.isScriptable then
      (if isBlankScript n.exec then [⟨n.id, "exec", "Script is required"⟩] else []) ++
        (if isBlankScript n.execTs then [⟨n.id, "execTs", "Script source is required"⟩] else [])
    else []

/-- The violations of a rule, node by node in the order of the graph. -/
def check (rule : Rule) (g : Graph) : List Violation := g.nodes.flatMap (rule.checkNode g)

end Rule

/-- The violations of many rules, rule by rule. -/
def Graph.validateBy (g : Graph) (rules : List Rule) : List Violation := rules.flatMap (·.check g)

/-- The violations of the standard rules. -/
def Graph.validate (g : Graph) : List Violation := g.validateBy Rule.standard

end Workflow
