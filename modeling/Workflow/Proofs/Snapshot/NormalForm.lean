import Workflow.Proofs.Snapshot.Import

/-!
# Snapshots in normal form

A snapshot that is imported and exported again has changed in three things only: types have
the names that the editor gives them, ids of ports that a type does not have are gone, and
every edge has an id. In this form it stands for the same graph, so importing and exporting
it once more changes nothing.
-/

namespace Workflow

/-- The editor's name of a type names the type. -/
theorem TaskType.ofText?_editorName (t : TaskType) : ofText? t.editorName = some t := by
  cases t <;> decide +kernel

namespace UiNode

variable {r : UiNode} {n : Node}

/-- The record of a node that has the ports of its type describes the node. -/
theorem describes_ofNode (h : n.Complete) : (ofNode n).Describes n := by
  have htype : TaskType.ofText? (ofNode n).type = some n.type := n.type.ofText?_editorName
  refine ⟨rfl, TaskType.ofText?_eq_some_iff.mp htype, fun side => ?_, rfl, rfl, rfl, rfl, rfl, rfl,
    rfl⟩
  have hside := h side
  have hwritten : ((ofNode n).boundId side).map PortId.mk = n.portOn side := by
    cases side <;> simp [boundId, ofNode, Node.portOn, Function.comp_def]
  rw [hwritten]
  split
  · rfl
  · simp_all

end UiNode

namespace UiEdge

theorem toEdge_ofEdge (e : Edge) : (ofEdge e).toEdge = e := rfl

end UiEdge

namespace UiSnapshot

/-- A graph is read back from its snapshot exactly if it can be stored. -/
theorem toGraph_ofGraph_iff {g : Graph} : (ofGraph g).toGraph = .ok g ↔ g.Storable := by
  rw [toGraph_eq_ok_iff]
  constructor
  · exact fun h => h.2.2
  · intro h
    refine ⟨?_, ?_, h⟩
    · refine List.forall₂_map_left_iff.mpr (List.forall₂_same.mpr fun n hn => ?_)
      exact UiNode.describes_ofNode (h.nodes_complete n hn)
    · simp [ofGraph, Function.comp_def, UiEdge.toEdge_ofEdge]

end UiSnapshot

end Workflow
