import Workflow.Proofs.Graph.Coherence

/-!
# Referential integrity

What the invariant on nodes, edges and ports says to a reader of a graph: looking up a
port finds its one owner and the side it is on, edges end at ports of nodes that are
there, and an input port has at most one edge.
-/

namespace Workflow

/-- The references in a graph lead somewhere, and to one place only. -/
structure Graph.Intact (g : Graph) : Prop where
  /-- No two nodes have the same id. -/
  nodup_ids : (g.nodes.map Node.id).Nodup
  /-- The table of ports lists a port once. -/
  nodup_entries : (g.ports.map Prod.fst).Nodup
  /-- A port is bound to the nodes that carry it, on the side on which they do, and no other
  port is bound. -/
  port?_eq_some_iff : ∀ p b, g.port? p = some b ↔
    ∃ n ∈ g.nodes, n.id = b.node ∧ n.portOn b.side = some p
  /-- A port belongs to one node. -/
  owner_unique : ∀ m ∈ g.nodes, ∀ n ∈ g.nodes, ∀ p ∈ m.ports, p ∈ n.ports → m = n
  /-- A node does not carry a port on both sides. -/
  sides_differ : ∀ n ∈ g.nodes, n.ports.Nodup
  /-- An edge leads from an output port of its source, which is in the graph. -/
  source : ∀ e ∈ g.edges, g.port? e.sourcePort = some ⟨e.source, .output⟩ ∧
    ∃ n ∈ g.nodes, n.id = e.source
  /-- An edge leads to an input port of its target, which is in the graph. -/
  target : ∀ e ∈ g.edges, g.port? e.targetPort = some ⟨e.target, .input⟩ ∧
    ∃ n ∈ g.nodes, n.id = e.target
  /-- At most one edge leads to a port. -/
  edge_into_unique : ∀ p, (g.edges.filter (·.targetPort == p)).length ≤ 1

/-- The references in a coherent graph are intact. -/
theorem Graph.Coherent.intact {g : Graph} (h : g.Coherent) : g.Intact where
  nodup_ids := h.nodup_ids
  nodup_entries := h.keys_eq ▸ h.nodup_ports
  port?_eq_some_iff _ _ := h.port?_eq_some_iff
  owner_unique _ hm _ hn _ hpm hpn := h.eq_of_mem_ports hm hn hpm hpn
  sides_differ := (List.nodup_flatMap.mp h.nodup_ports).1
  source e he := by
    obtain ⟨n, hn, hid, hport⟩ := h.source e he
    exact ⟨h.port?_eq_some_iff.mpr ⟨n, hn, hid, hport⟩, n, hn, hid⟩
  target e he := by
    obtain ⟨n, hn, hid, hport⟩ := h.target e he
    exact ⟨h.port?_eq_some_iff.mpr ⟨n, hn, hid, hport⟩, n, hn, hid⟩
  edge_into_unique := length_filter_le_one_of_nodup h.nodup_targets

/-- Whatever operations are performed on the empty graph, and in whatever order, the references
in the graph that they leave are intact. -/
theorem Graph.intact_of_reachable {g : Graph} (h : g.Reachable) : g.Intact := h.coherent.intact

/-- A function behind a start node, the connection drawn twice and a missing node removed. -/
theorem Graph.intact_connected_pair :
    let fresh : FreshIds := ⟨"f", "f.in", "f.out", "1", "key"⟩
    let startNode := Node.restore ⟨"s"⟩ .start none (some ⟨"s.out"⟩)
    let added := Graph.empty.after (.addNode fresh .function)
    let drawn := (added.after (.insertNode startNode)).after (.connect ⟨"s.out"⟩ ⟨"f.in"⟩)
    let g := (drawn.after (.connect ⟨"s.out"⟩ ⟨"f.in"⟩)).after (.removeNode ⟨"t"⟩)
    g.Reachable ∧ g.edges.length = 1 ∧ g.Intact := by
  intro fresh startNode added drawn g
  have hunused : fresh.Unused .function .empty := by
    refine ⟨by simp [empty], by simp [empty], by decide⟩
  have hadded : added.Reachable := .step _ .empty hunused
  have hdrawn : drawn.Reachable := .step _ (.step _ hadded trivial) trivial
  have hg : g.Reachable := .step _ (.step _ hdrawn trivial) trivial
  exact ⟨hg, by decide, intact_of_reachable hg⟩

end Workflow
