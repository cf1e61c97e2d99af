import Workflow.Snapshot.Basic

/-!
# Snapshots and graphs

A snapshot becomes a graph by inserting its nodes and then its edges in order. The
first record that does not fit is the error. A graph becomes a snapshot by writing
down all it knows, so importing and exporting loses nothing but ports on sides that
a type does not have, and gives types and edge ids their usual form.
-/

namespace Workflow

/-- Why a text does not hold the snapshot of a graph. -/
inductive SnapshotError where
  /-- The text is not JSON, or not of the right shape. -/
  | unreadable
  /-- A node has no known type. -/
  | unknownTaskType (node typeName : String)
  /-- A node lacks a port on a side that its type has. -/
  | missingPort (node : String) (type : TaskType) (side : PortSide)
  /-- The nodes and edges do not form a graph. -/
  | structural (cause : GraphError)
  deriving DecidableEq, Repr

/-- The sentence that reports a snapshot that is not one of a graph; `detail` says what is
wrong with an unreadable text. -/
def SnapshotError.message (detail : String) : SnapshotError → String
  | .unreadable => s!"Failed to parse snapshot JSON: {detail}"
  | .unknownTaskType node typeName => s!"Node '{node}' has an unknown task type: '{typeName}'"
  | .missingPort node type side =>
    s!"Node '{node}' of type {type.name} is missing its {side.name} bound id"
  | .structural cause => s!"Snapshot is structurally invalid: {cause.message}"

/-- The node that a record describes. -/
def UiNode.toNode (n : UiNode) : Except SnapshotError Node :=
  match TaskType.ofText? n.type with
  | none => .error (.unknownTaskType n.id n.type)
  | some type =>
    if type.hasInput && n.data.inputBoundId.isNone then .error (.missingPort n.id type .input)
    else if type.hasOutput && n.data.outputBoundId.isNone then
      .error (.missingPort n.id type .output)
    else
      .ok { Node.restore ⟨n.id⟩ type (n.data.inputBoundId.map .mk)
              (n.data.outputBoundId.map .mk) with
            label := n.data.label
            params := n.data.params
            exec := n.data.exec
            execTs := n.data.execTs
            position := n.position
            uiExtra := n.extra
            dataExtra := n.data.extra }

/-- The edge that a record describes. Without an id it has the one that the editor would
give it. -/
def UiEdge.toEdge (e : UiEdge) : Edge :=
  let source := NodeId.mk e.source
  let sourcePort := PortId.mk e.sourceHandle
  let target := NodeId.mk e.target
  let targetPort := PortId.mk e.targetHandle
  ⟨(e.id.map .mk).getD (Edge.editorId source sourcePort target targetPort), source, sourcePort,
    target, targetPort, e.extra⟩

/-- Inserts the node that a record describes. -/
def Graph.insertUiNode (g : Graph) (n : UiNode) : Except SnapshotError Graph := do
  let node ← n.toNode
  (g.insertNode node).mapError .structural

/-- Inserts the edge that a record describes. -/
def Graph.insertUiEdge (g : Graph) (e : UiEdge) : Except SnapshotError Graph :=
  (g.insertEdge e.toEdge).mapError .structural

/-- The graph of a snapshot. -/
def UiSnapshot.toGraph (s : UiSnapshot) : Except SnapshotError Graph := do
  let g ← s.nodes.foldlM Graph.insertUiNode .empty
  s.edges.foldlM Graph.insertUiEdge g

/-- The record of a node. -/
def UiNode.ofNode (n : Node) : UiNode where
  id := n.id.text
  type := n.type.editorName
  position := n.position
  data := {
    label := n.label
    inputBoundId := n.input.map (·.text)
    outputBoundId := n.output.map (·.text)
    params := n.params
    exec := n.exec
    execTs := n.execTs
    extra := n.dataExtra }
  extra := n.uiExtra

/-- The record of an edge. -/
def UiEdge.ofEdge (e : Edge) : UiEdge :=
  ⟨some e.id.text, e.source.text, e.sourcePort.text, e.target.text, e.targetPort.text, e.uiExtra⟩

/-- The snapshot of a graph. -/
def UiSnapshot.ofGraph (g : Graph) : UiSnapshot :=
  ⟨g.nodes.map .ofNode, g.edges.map .ofEdge⟩

/-- Reads the snapshot that a text holds. -/
def UiSnapshot.ofText (text : String) : Except SnapshotError UiSnapshot :=
  match (Json.Raw.read? text).bind UiSnapshot.read? with
  | some s => .ok s
  | none => .error .unreadable

/-- Reads the graph whose snapshot a text holds. -/
def Graph.ofText (text : String) : Except SnapshotError Graph := do
  let s ← UiSnapshot.ofText text
  s.toGraph

end Workflow
