import Workflow.Proofs.Graph.Coherence

/-!
# Graphs assembled from nodes and edges

A coherent graph is determined by its nodes and edges, for its table lists the ports of the
nodes. A node or an edge can be inserted exactly if the graph with the longer list is
coherent. So whether many of them can be inserted one after the other is seen from the
graph that they are to form, whatever the order of the checks.
-/

namespace Workflow.Graph

/-- The graph with the given nodes and edges and with the ports of the nodes. -/
def ofParts (nodes : List Node) (edges : List Edge) : Graph :=
  ⟨nodes, edges, nodes.flatMap Node.bindings⟩

variable {g next : Graph} {nodes more : List Node} {edges : List Edge}

theorem Coherent.eq_ofParts (h : g.Coherent) : g = ofParts g.nodes g.edges := by
  rw [ofParts, ← h.ports_eq]

/-- Without edges, the first nodes of a coherent graph form a coherent graph. -/
theorem Coherent.firstNodes (h : (ofParts (nodes ++ more) []).Coherent) :
    (ofParts nodes []).Coherent where
  nodup_ids := h.nodup_ids.sublist ((List.sublist_append_left nodes more).map _)
  nodup_ports := h.nodup_ports.sublist ((List.sublist_append_left nodes more).flatMap _)
  ports_eq := rfl
  source := by simp [ofParts]
  target := by simp [ofParts]
  nodup_targets := List.nodup_nil

section

variable (h : (ofParts nodes edges).Coherent)

include h

private theorem Coherent.of_insertNode {n : Node}
    (hnext : (ofParts nodes edges).insertNode n = .ok next) :
    next.Coherent ∧ next = ofParts (nodes ++ [n]) edges := by
  have hcoherent : next.Coherent :=
    h.perform (show Operation.Promised _ (.insertNode n) from trivial) hnext
  obtain ⟨-, -, -, rfl⟩ := insertNode_eq_ok_iff.mp hnext
  exact ⟨hcoherent, hcoherent.eq_ofParts⟩

/-- A node is inserted exactly if the graph with it at the end is coherent. -/
theorem Coherent.insertNode_iff {n : Node} : (ofParts nodes edges).insertNode n = .ok next ↔
    (ofParts (nodes ++ [n]) edges).Coherent ∧ next = ofParts (nodes ++ [n]) edges := by
  constructor
  · intro hnext
    obtain ⟨hcoherent, rfl⟩ := h.of_insertNode hnext
    exact ⟨hcoherent, rfl⟩
  · rintro ⟨hcoherent, rfl⟩
    have hids := hcoherent.nodup_ids
    have hports := hcoherent.nodup_ports
    simp only [ofParts, List.map_append, List.flatMap_append, List.nodup_append] at hids hports
    have hinsert : (ofParts nodes edges).insertNode n = .ok ((ofParts nodes edges).push n) := by
      refine insertNode_eq_ok_iff.mpr ⟨node?_eq_none_iff.mpr fun m hm => ?_, fun p hp => ?_, ?_, rfl⟩
      · exact hids.2.2 m.id (List.mem_map_of_mem hm) n.id (by simp)
      · exact h.port?_eq_none_iff.mpr fun hmem => hports.2.2 p hmem p (by simpa using hp) rfl
      · simpa using hports.2.1
    rw [hinsert, (h.of_insertNode hinsert).2]

/-- An edge is inserted exactly if the graph with it at the end is coherent and gives no id
to two edges. -/
theorem Coherent.insertEdge_iff (hedges : (edges.map Edge.id).Nodup) {e : Edge} :
    (ofParts nodes edges).insertEdge e = .ok next ↔
      ((ofParts nodes (edges ++ [e])).Coherent ∧ ((edges ++ [e]).map Edge.id).Nodup) ∧
        next = ofParts nodes (edges ++ [e]) := by
  have hid : (ofParts nodes edges).edge? e.id = none ↔ ((edges ++ [e]).map Edge.id).Nodup := by
    simp [edge?, ofParts, List.nodup_append, hedges]
  rw [insertEdge_eq_ok_iff, hid, and_comm (a := Graph.Coherent _), and_assoc]
  refine and_congr_right fun _ => ?_
  constructor
  · rintro ⟨hends, rfl⟩
    obtain ⟨hs, ht, hfree⟩ := connectable_eq_ok_iff.mp hends
    exact ⟨h.pushEdge hs ht hfree, rfl⟩
  · rintro ⟨hcoherent, rfl⟩
    have he : e ∈ (ofParts nodes (edges ++ [e])).edges := by simp [ofParts]
    have htargets := hcoherent.nodup_targets
    simp only [ofParts, List.map_append, List.nodup_append] at htargets
    refine ⟨connectable_eq_ok_iff.mpr ⟨?_, ?_, ?_⟩, rfl⟩
    · exact h.port?_eq_some_iff.mpr (hcoherent.source e he)
    · exact h.port?_eq_some_iff.mpr (hcoherent.target e he)
    · refine List.find?_eq_none.mpr fun a ha => ?_
      simpa using htargets.2.2 a.targetPort (List.mem_map_of_mem ha) e.targetPort (by simp)

end

end Workflow.Graph
