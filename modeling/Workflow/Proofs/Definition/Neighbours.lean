import Workflow.Definition.Compile
import Workflow.Proofs.Graph.Integrity

/-!
# Names next to a node

The names behind a node and the names in front of it are collected in one way: over the
edges that end at the port of the node on a side, the labels of the nodes at the other
ends. What holds of them is stated once, over the side.
-/

namespace Workflow

/-- The side at the other end of an edge. -/
def PortSide.across : PortSide → PortSide
  | .input => .output
  | .output => .input

/-- The node at the end of an edge: the edge leads from an output to an input. -/
def Edge.nodeOn (e : Edge) : PortSide → NodeId
  | .input => e.target
  | .output => e.source

/-- The port at the end of an edge. -/
def Edge.portOn (e : Edge) : PortSide → PortId
  | .input => e.targetPort
  | .output => e.sourcePort

namespace Graph

/-- The names next to a node on a side: those that follow it are on the side of its output. -/
def namesOn (g : Graph) (n : Node) (side : PortSide) : List String :=
  (n.portOn side).elim [] fun port =>
    g.labelsOf ((g.edges.filter (·.portOn side == port)).map (·.nodeOn side.across))

variable {g : Graph}

theorem namesOn_output (n : Node) : g.namesOn n .output = g.nextNames n := rfl

theorem namesOn_input (n : Node) : g.namesOn n .input = g.previousNames n := rfl

/-- The label listed for an id is the label of a node with the id. -/
theorem mem_labelsOf_iff {ids : List NodeId} {name : String} :
    name ∈ g.labelsOf ids ↔ ∃ id ∈ ids, ∃ n, g.node? id = some n ∧ n.label = name := by
  simp [labelsOf, List.mem_eraseDups]

theorem exists_label_of_mem_namesOn {n : Node} (side : PortSide) {name : String}
    (h : name ∈ g.namesOn n side) : ∃ m ∈ g.nodes, m.label = name := by
  cases hport : n.portOn side with
  | none => simp [namesOn, hport] at h
  | some port =>
    simp only [namesOn, hport, Option.elim_some] at h
    obtain ⟨_, _, m, hm, hlabel⟩ := mem_labelsOf_iff.mp h
    exact ⟨m, (mem_of_node?_eq_some hm).1, hlabel⟩

/-- An edge ends on each side at a node of the graph, in the port of that side. -/
theorem Coherent.exists_end (h : g.Coherent) {e : Edge} (he : e ∈ g.edges) (side : PortSide) :
    ∃ n ∈ g.nodes, n.id = e.nodeOn side ∧ n.portOn side = some (e.portOn side) := by
  cases side with
  | input => exact h.target e he
  | output => exact h.source e he

/-- An edge ends at a node exactly if it ends in the port of the node on that side. -/
theorem Coherent.portOn_eq_iff (h : g.Coherent) {n : Node} (hn : n ∈ g.nodes) {e : Edge}
    (he : e ∈ g.edges) (side : PortSide) :
    n.portOn side = some (e.portOn side) ↔ e.nodeOn side = n.id := by
  obtain ⟨m, hm, hid, hport⟩ := h.exists_end he side
  constructor
  · intro hends
    have hsame := h.eq_of_mem_ports hm hn (Node.mem_ports_of_portOn side hport)
      (Node.mem_ports_of_portOn side hends)
    rw [← hid, hsame]
  · intro hnode
    rw [← h.eq_of_id_eq hm hn (hid.trans hnode)]
    exact hport

/-- The names next to a node are the labels at the other ends of its edges on that side. -/
theorem Coherent.namesOn_eq (h : g.Coherent) {n : Node} (hn : n ∈ g.nodes) (side : PortSide) :
    g.namesOn n side =
      g.labelsOf ((g.edges.filter (·.nodeOn side == n.id)).map (·.nodeOn side.across)) := by
  cases hport : n.portOn side with
  | none =>
    have hnone : g.edges.filter (·.nodeOn side == n.id) = [] := by
      refine List.filter_eq_nil_iff.mpr fun e he => ?_
      simp only [beq_iff_eq, ← h.portOn_eq_iff hn he side, hport, reduceCtorEq, not_false_eq_true]
    simp [namesOn, hport, hnone, labelsOf]
  | some port =>
    have hsame : g.edges.filter (·.portOn side == port) =
        g.edges.filter (·.nodeOn side == n.id) := by
      refine List.filter_congr fun e he => ?_
      have hiff := h.portOn_eq_iff hn he side
      rw [hport, Option.some.injEq, eq_comm] at hiff
      exact Bool.eq_iff_iff.mpr (by simpa using hiff)
    simp [namesOn, hport, hsame]

/-- A name is next to a node exactly if an edge joins the node to one with that label. -/
theorem Coherent.mem_namesOn_iff (h : g.Coherent) {n : Node} (hn : n ∈ g.nodes) (side : PortSide)
    {name : String} : name ∈ g.namesOn n side ↔ ∃ e ∈ g.edges, e.nodeOn side = n.id ∧
      ∃ m ∈ g.nodes, m.id = e.nodeOn side.across ∧ m.label = name := by
  rw [h.namesOn_eq hn, mem_labelsOf_iff]
  constructor
  · rintro ⟨id, hid, m, hm, hlabel⟩
    obtain ⟨e, he, rfl⟩ := List.mem_map.mp hid
    obtain ⟨he, hnode⟩ := List.mem_filter.mp he
    obtain ⟨hm, hmid⟩ := mem_of_node?_eq_some hm
    exact ⟨e, he, by simpa using hnode, m, hm, hmid, hlabel⟩
  · rintro ⟨e, he, hnode, m, hm, hmid, hlabel⟩
    refine ⟨e.nodeOn side.across, List.mem_map.mpr ⟨e, ?_, rfl⟩, m, hmid ▸ h.node?_id hm, hlabel⟩
    exact List.mem_filter.mpr ⟨he, by simpa using hnode⟩

/-- If labels differ, the label of a node is next to another one exactly if an edge joins the
two nodes. -/
theorem Coherent.label_mem_namesOn_iff (h : g.Coherent) (hlabels : (g.nodes.map Node.label).Nodup)
    {m n : Node} (hm : m ∈ g.nodes) (hn : n ∈ g.nodes) (side : PortSide) :
    m.label ∈ g.namesOn n side ↔
      ∃ e ∈ g.edges, e.nodeOn side = n.id ∧ e.nodeOn side.across = m.id := by
  refine (h.mem_namesOn_iff hn side).trans ⟨?_, ?_⟩
  · rintro ⟨e, he, hnode, k, hk, hid, hlabel⟩
    obtain rfl := List.inj_on_of_nodup_map hlabels hk hm hlabel
    exact ⟨e, he, hnode, hid.symm⟩
  · rintro ⟨e, he, hnode, hid⟩
    exact ⟨e, he, hnode, m, hm, hid.symm, rfl⟩

end Graph

end Workflow
