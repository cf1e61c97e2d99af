import Workflow.Proofs.Graph.Coherence

/-!
# Removing a node

A node that is inserted brings ports that no other node carries, so no edge that was there
before leads to it or from it. Whatever edges are drawn at it afterwards, removing it takes
these edges, its ports and the node itself, and nothing else.
-/

namespace Workflow

theorem Edge.touches_iff {e : Edge} {id : NodeId} :
    e.touches id = true ↔ e.source = id ∨ e.target = id := by
  simp [Edge.touches]

namespace Graph

/-- Successful calls, each of which draws or inserts an edge at a node, lead from one graph to
another. -/
inductive Attaches (id : NodeId) (g : Graph) : Graph → Prop
  /-- Nothing is called. -/
  | refl : Attaches id g g
  /-- An edge is drawn between two ports. -/
  | connect {mid next : Graph} {sourcePort targetPort : PortId} {e : Edge} : Attaches id g mid →
      mid.connect sourcePort targetPort = .ok (next, e) → e.source = id ∨ e.target = id →
      Attaches id g next
  /-- An edge is inserted. -/
  | insertEdge {mid next : Graph} {e : Edge} : Attaches id g mid →
      mid.insertEdge e = .ok next → e.source = id ∨ e.target = id → Attaches id g next

variable {g start final : Graph} {id : NodeId} {n : Node}

/-- Drawing edges at a node adds edges at the node behind the others, and nothing else. -/
theorem Attaches.exists_edges (h : Attaches id g final) :
    ∃ more, final = { g with edges := g.edges ++ more } ∧ ∀ e ∈ more, e.touches id = true := by
  have hpush {mid : Graph} {e : Edge} (htouch : e.source = id ∨ e.target = id)
      (hmid : ∃ more, mid = { g with edges := g.edges ++ more } ∧ ∀ e ∈ more, e.touches id = true) :
      ∃ more, mid.pushEdge e = { g with edges := g.edges ++ more } ∧
        ∀ e ∈ more, e.touches id = true := by
    obtain ⟨more, rfl, hmore⟩ := hmid
    refine ⟨more ++ [e], by simp [pushEdge], List.forall_mem_append.mpr ⟨hmore, ?_⟩⟩
    exact List.forall_mem_singleton.mpr (Edge.touches_iff.mpr htouch)
  induction h with
  | refl => exact ⟨[], by simp, by simp⟩
  | connect _ hconnect htouch ih =>
    obtain ⟨_, _, -, -, rfl⟩ := connect_eq_ok_iff.mp hconnect
    exact hpush htouch ih
  | insertEdge _ hinsert htouch ih =>
    obtain ⟨-, -, rfl⟩ := insertEdge_eq_ok_iff.mp hinsert
    exact hpush htouch ih

/-- No edge of a coherent graph leads to a node that is not there, or from it. -/
theorem Coherent.touches_eq_false (h : g.Coherent) (hid : g.node? id = none) :
    ∀ e ∈ g.edges, e.touches id = false := by
  rw [node?_eq_none_iff] at hid
  intro e he
  refine Bool.eq_false_iff.mpr fun htouch => ?_
  rcases Edge.touches_iff.mp htouch with rfl | rfl
  · obtain ⟨m, hm, hends, -⟩ := h.source e he
    exact hid m hm hends
  · obtain ⟨m, hm, hends, -⟩ := h.target e he
    exact hid m hm hends

/-- Unbinding the ports that a node brought leaves the table that was there before. -/
theorem Coherent.unbindNode_bindNode (h : g.Coherent) (hports : ∀ p ∈ n.ports, g.port? p = none)
    (hn : n.ports.Nodup) : (g.ports.bindNode n).unbindNode n = g.ports := by
  have hnew : ∀ p ∈ n.ports, p ∉ g.ports.map Prod.fst := fun p hp =>
    h.keys_eq ▸ h.port?_eq_none_iff.mp (hports p hp)
  have hold : g.ports.filter (fun e => decide (e.1 ∉ n.ports)) = g.ports := by
    refine List.filter_eq_self.mpr fun e he => ?_
    simpa using fun hp => hnew e.1 hp (List.mem_map_of_mem he)
  have hown : n.bindings.filter (fun e => decide (e.1 ∉ n.ports)) = [] := by
    refine List.filter_eq_nil_iff.mpr fun e he => ?_
    simpa using n.bindings_keys ▸ List.mem_map_of_mem he
  rw [PortTable.unbindNode_eq_filter, PortTable.bindNode_eq_append hn hnew, List.filter_append,
    hold, hown, List.append_nil]

/-- Removing the node that was inserted leaves the graph in which it was inserted. -/
theorem Coherent.removeNode_of_attaches (h : g.Coherent) (hstart : g.insertNode n = .ok start)
    (hfinal : start.Attaches n.id final) : final.removeNode n.id = .ok (g, n) := by
  obtain ⟨hid, hports, hn, rfl⟩ := insertNode_eq_ok_iff.mp hstart
  obtain ⟨more, rfl, hmore⟩ := hfinal.exists_edges
  have hfirst : ∀ m ∈ g.nodes, m.id ≠ n.id := node?_eq_none_iff.mp hid
  have hnode : (g.push n).node? n.id = some n := by
    rw [node?] at hid ⊢
    simp [Graph.push, List.find?_append, hid]
  have hnodes : (g.nodes ++ [n]).eraseP (·.id == n.id) = g.nodes := by
    rw [List.eraseP_append_right _ fun m hm => by simpa using hfirst m hm]
    simp
  have hedges : (g.edges ++ more).filter (!·.touches n.id) = g.edges := by
    have hold : g.edges.filter (!·.touches n.id) = g.edges :=
      List.filter_eq_self.mpr fun e he => by simp [h.touches_eq_false hid e he]
    have hnew : more.filter (!·.touches n.id) = [] :=
      List.filter_eq_nil_iff.mpr fun e he => by simp [hmore e he]
    rw [List.filter_append, hold, hnew, List.append_nil]
  refine removeNode_eq_ok_iff.mpr ⟨hnode, ?_⟩
  simp only [Graph.push, hnodes, hedges, h.unbindNode_bindNode hports hn]

/-- Removing a node drops the edges at it and keeps the others in order, and the other nodes. -/
theorem Coherent.exists_removeNode (h : g.Coherent) (hn : g.node? id = some n) :
    ∃ next, g.removeNode id = .ok (next, n) ∧
      next.edges = g.edges.filter (fun e => e.source ≠ id ∧ e.target ≠ id) ∧
      next.nodes = g.nodes.filter (·.id ≠ id) := by
  refine ⟨_, removeNode_eq_ok_iff.mpr ⟨hn, rfl⟩, ?_, ?_⟩
  · refine List.filter_congr fun e _ => ?_
    rw [Bool.eq_iff_iff]
    simp [Edge.touches]
  · rw [eraseP_eq_filter_of_nodup h.nodup_ids id]
    refine List.filter_congr fun m _ => ?_
    rw [Bool.eq_iff_iff]
    simp

/-- Removing a node undoes its insertion and whatever was attached to it since. In general it drops
the edges that lead to the node or from it, and keeps the other edges and nodes in order. -/
theorem removeNode_undoes (hg : g.Reachable) :
    (∀ n start final, g.insertNode n = .ok start → start.Attaches n.id final →
      final.removeNode n.id = .ok (g, n)) ∧
    ∀ id n, g.node? id = some n → ∃ next, g.removeNode id = .ok (next, n) ∧
      next.edges = g.edges.filter (fun e => e.source ≠ id ∧ e.target ≠ id) ∧
      next.nodes = g.nodes.filter (·.id ≠ id) :=
  ⟨fun _ _ _ => hg.coherent.removeNode_of_attaches, fun _ _ => hg.coherent.exists_removeNode⟩

/-- A node with an edge to itself and a further edge from the same port, in a graph with an edge
of its own. -/
theorem removeNode_undoes_loop :
    let first := Node.restore ⟨"s"⟩ .start none (some ⟨"s.out"⟩)
    let second := Node.restore ⟨"f"⟩ .function (some ⟨"f.in"⟩) none
    let third := Node.restore ⟨"g"⟩ .function (some ⟨"g.in"⟩) none
    let n := Node.restore ⟨"n"⟩ .function (some ⟨"n.in"⟩) (some ⟨"n.out"⟩)
    let loop : Edge := ⟨⟨"loop"⟩, ⟨"n"⟩, ⟨"n.out"⟩, ⟨"n"⟩, ⟨"n.in"⟩, []⟩
    let nodes := ((empty.after (.insertNode first)).after (.insertNode second)).after
      (.insertNode third)
    let g := nodes.after (.connect ⟨"s.out"⟩ ⟨"f.in"⟩)
    let drawn := Edge.drawn ⟨"n"⟩ ⟨"n.out"⟩ ⟨"g"⟩ ⟨"g.in"⟩
    let final := ((g.push n).pushEdge loop).pushEdge drawn
    g.Reachable ∧ final.edges.length = 3 ∧ final.removeNode ⟨"n"⟩ = .ok (g, n) ∧
      ∃ next, g.removeNode ⟨"s"⟩ = .ok (next, first) ∧ next.edges = [] := by
  intro first second third n loop nodes g drawn final
  have hnodes : nodes.Reachable :=
    .step _ (.step _ (.step _ .empty trivial) trivial) trivial
  have hg : g.Reachable := .step _ hnodes trivial
  have hinsert : g.insertNode n = .ok (g.push n) := by decide +kernel
  have hloop : (g.push n).insertEdge loop = .ok ((g.push n).pushEdge loop) := by decide +kernel
  have hdrawn : ((g.push n).pushEdge loop).connect ⟨"n.out"⟩ ⟨"g.in"⟩ = .ok (final, drawn) := by
    decide +kernel
  have hfirst : g.node? ⟨"s"⟩ = some first := by decide +kernel
  have hfinal : (g.push n).Attaches n.id final :=
    .connect (.insertEdge .refl hloop (.inl rfl)) hdrawn (.inl rfl)
  have hlength : final.edges.length = 3 := by decide +kernel
  have hleft : g.edges.filter (fun e => e.source ≠ ⟨"s"⟩ ∧ e.target ≠ ⟨"s"⟩) = [] := by
    decide +kernel
  obtain ⟨hundo, hdrop⟩ := removeNode_undoes hg
  obtain ⟨next, hnext, hedges, -⟩ := hdrop ⟨"s"⟩ first hfirst
  exact ⟨hg, hlength, hundo n _ final hinsert hfinal, next, hnext, hedges.trans hleft⟩

end Graph

end Workflow
