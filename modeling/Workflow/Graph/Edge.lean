import Workflow.Graph.Node

/-!
# Edges

An edge leads from the output port of one node to the input port of a node.
-/

namespace Workflow

/-- A connection between two nodes. -/
structure Edge where
  /-- Identifies the edge. -/
  id : EdgeId
  /-- The node it leads from. -/
  source : NodeId
  /-- The output port it leads from. -/
  sourcePort : PortId
  /-- The node it leads to. -/
  target : NodeId
  /-- The input port it leads to. -/
  targetPort : PortId
  /-- What the editor keeps about the edge. -/
  uiExtra : Json.Entries
  deriving DecidableEq, Repr

namespace Edge

/-- The id of an edge that is drawn in the editor. -/
def editorId (source : NodeId) (sourcePort : PortId) (target : NodeId) (targetPort : PortId) :
    EdgeId :=
  ⟨"reactflow__edge-" ++ source.text ++ sourcePort.text ++ "-" ++ target.text ++ targetPort.text⟩

/-- Whether a node is at one of the ends. -/
def touches (e : Edge) (node : NodeId) : Bool := e.source == node || e.target == node

end Edge

end Workflow
