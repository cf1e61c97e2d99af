import Workflow.Graph.Basic
import Workflow.Script.Contract
import Workflow.Script.Erasure

/-!
# Scripts of nodes

An edited source is stored with its node. If it can be executed, the script is
replaced as well; otherwise the last good script stays.
-/

namespace Workflow

/-- Why a node has no script to edit or to show a contract for. -/
inductive ScriptError where
  /-- The graph has no such node. -/
  | graph (cause : GraphError)
  /-- Nodes of this type carry no script. -/
  | notScriptable (node : NodeId)
  deriving DecidableEq, Repr

/-- The sentence that reports that there is no script. -/
def ScriptError.message : ScriptError → String
  | .graph cause => cause.message
  | .notScriptable node => s!"Node '{node.text}' does not carry a script"

/-- The contract of a node that carries a script. -/
def Node.contract (n : Node) (globals : Json.Entries) : Except ScriptError Script.Contract :=
  if n.type.isScriptable then .ok (.generate globals n.params) else .error (.notScriptable n.id)

namespace Graph

/-- A node that carries a script. -/
def scriptable (g : Graph) (id : NodeId) : Except ScriptError Node :=
  match g.node? id with
  | none => .error (.graph (.unknownNode id))
  | some n => if n.type.isScriptable then .ok n else .error (.notScriptable id)

/-- The contract of the script of a node. -/
def contract (g : Graph) (id : NodeId) (globals : Json.Entries) :
    Except ScriptError Script.Contract := do
  let n ← g.scriptable id
  n.contract globals

/-- The patch for an edited source, and why the source cannot be executed. -/
def scriptPatch (source : String) : Patch × Option Script.Rejection :=
  match Script.eraseTypes source with
  | .ok exec => ({ Patch.empty with execTs := some source, exec := some exec }, none)
  | .error rejection => ({ Patch.empty with execTs := some source }, some rejection)

/-- Stores an edited source with a node. -/
def editScript (g : Graph) (id : NodeId) (source : String) :
    Except ScriptError (Graph × Option Script.Rejection) := do
  let _ ← g.scriptable id
  let (patch, rejection) := scriptPatch source
  let (g, _) ← (g.updateNode id patch).mapError .graph
  return (g, rejection)

end Graph

end Workflow
