import Mathlib.Data.List.Flatten
import Mathlib.Data.List.Lattice
import Mathlib.Data.List.Pairwise
import Workflow.Proofs.Distinct
import Workflow.Proofs.Graph.Outcome

/-!
# Nodes, edges and ports kept in step

A graph keeps three collections: nodes, edges and a table of ports. In every graph
that a run of operations leads to, the table lists the ports of the nodes one node
after the other, ids of nodes and ports occur once, edges lead between ports of the
right sides, and no two edges lead to the same port. The invariant is shown for each
way in which an operation changes a graph, and from these for every run.
-/

namespace Workflow

/-- The port of a node on a side. -/
def Node.portOn (n : Node) : PortSide → Option PortId
  | .input => n.input
  | .output => n.output

/-- What a table says about the ports of a node, the input first. -/
def Node.bindings (n : Node) : PortTable :=
  n.input.toList.map (fun p => (p, ⟨n.id, .input⟩)) ++
    n.output.toList.map (fun p => (p, ⟨n.id, .output⟩))

theorem Node.bindings_keys (n : Node) : n.bindings.map Prod.fst = n.ports := by
  simp [Node.bindings, Node.ports, List.map_map, Function.comp_def]

/-- A node binds a port to itself, on the side on which it carries the port. -/
theorem Node.mem_bindings {n : Node} {p : PortId} {b : PortBinding} :
    (p, b) ∈ n.bindings ↔ b.node = n.id ∧ n.portOn b.side = some p := by
  obtain ⟨node, side⟩ := b
  simp only [Node.bindings, List.mem_append, List.mem_map, Option.mem_toList, Prod.mk.injEq,
    PortBinding.mk.injEq]
  cases side <;> simp [Node.portOn, and_comm, eq_comm]

theorem Node.mem_ports_of_portOn {n : Node} (side : PortSide) {p : PortId}
    (h : n.portOn side = some p) : p ∈ n.ports := by
  cases side <;> simp_all [Node.portOn, Node.ports]

namespace PortTable

theorem erase_eq_self {t : PortTable} {p : PortId} (h : p ∉ t.map Prod.fst) : t.erase p = t := by
  refine List.filter_eq_self.mpr fun e he => ?_
  simp only [bne_iff_ne, ne_eq]
  rintro rfl
  exact h (List.mem_map_of_mem he)

theorem bind_eq_append {t : PortTable} {p : PortId} {b : PortBinding} (h : p ∉ t.map Prod.fst) :
    t.bind p b = t ++ [(p, b)] := by
  rw [bind, erase_eq_self h]

/-- The ports of a node that brings new ports go to the end of the table. -/
theorem bindNode_eq_append {t : PortTable} {n : Node} (hn : n.ports.Nodup)
    (ht : ∀ p ∈ n.ports, p ∉ t.map Prod.fst) : t.bindNode n = t ++ n.bindings := by
  cases hi : n.input with
  | none =>
    cases ho : n.output with
    | none => simp [bindNode, Node.bindings, hi, ho]
    | some q =>
      have hq : q ∉ t.map Prod.fst := ht q (by simp [Node.ports, ho])
      simp [bindNode, Node.bindings, hi, ho, bind_eq_append hq]
  | some p =>
    have hp : p ∉ t.map Prod.fst := ht p (by simp [Node.ports, hi])
    cases ho : n.output with
    | none => simp [bindNode, Node.bindings, hi, ho, bind_eq_append hp]
    | some q =>
      have hpq : p ≠ q := by simpa [Node.ports, hi, ho] using hn
      have hq : q ∉ (t ++ [(p, (⟨n.id, .input⟩ : PortBinding))]).map Prod.fst := by
        have := ht q (by simp [Node.ports, ho])
        simpa [hpq.symm] using this
      simp [bindNode, Node.bindings, hi, ho, bind_eq_append hp, bind_eq_append hq]

/-- Removing the ports of a node keeps the other entries in order. -/
theorem unbindNode_eq_filter (t : PortTable) (n : Node) :
    t.unbindNode n = t.filter fun e => decide (e.1 ∉ n.ports) := by
  have h (ports : List PortId) (t : PortTable) :
      ports.foldl erase t = t.filter fun e => decide (e.1 ∉ ports) := by
    induction ports generalizing t with
    | nil => simp
    | cons p rest ih =>
      rw [List.foldl_cons, ih, erase, List.filter_filter]
      refine List.filter_congr fun e _ => ?_
      by_cases he : e.1 = p <;> simp [he]
  exact h n.ports t

/-- In a table that lists every port once, looking up a port finds its entry. -/
theorem get?_eq_some_iff {t : PortTable} (h : (t.map Prod.fst).Nodup) {p : PortId}
    {b : PortBinding} : t.get? p = some b ↔ (p, b) ∈ t := by
  induction t with
  | nil => simp [get?]
  | cons e rest ih =>
    obtain ⟨q, c⟩ := e
    obtain ⟨hq, hrest⟩ := List.nodup_cons.mp h
    by_cases hpq : p = q
    · subst hpq
      have hb : (p, b) ∉ rest := fun hmem => hq (List.mem_map.mpr ⟨(p, b), hmem, rfl⟩)
      simp [get?, hb, eq_comm]
    · have hne : (p == q) = false := by simp [hpq]
      rw [get?] at ih ⊢
      simp only [List.lookup_cons, hne, ih hrest, List.mem_cons, Prod.mk.injEq, hpq, false_and,
        false_or]

end PortTable

/-- Nodes, edges and the table of ports fit together. -/
structure Graph.Coherent (g : Graph) : Prop where
  /-- No two nodes have the same id. -/
  nodup_ids : (g.nodes.map Node.id).Nodup
  /-- No port is carried twice. -/
  nodup_ports : (g.nodes.flatMap Node.ports).Nodup
  /-- The table lists the ports of the nodes in order. -/
  ports_eq : g.ports = g.nodes.flatMap Node.bindings
  /-- An edge leads from the output of a node. -/
  source : ∀ e ∈ g.edges, ∃ n ∈ g.nodes, n.id = e.source ∧ n.output = some e.sourcePort
  /-- An edge leads to the input of a node. -/
  target : ∀ e ∈ g.edges, ∃ n ∈ g.nodes, n.id = e.target ∧ n.input = some e.targetPort
  /-- No two edges lead to the same port. -/
  nodup_targets : (g.edges.map Edge.targetPort).Nodup

namespace Graph

variable {g : Graph}

theorem Coherent.keys_eq (h : g.Coherent) : g.ports.map Prod.fst = g.nodes.flatMap Node.ports := by
  rw [h.ports_eq, List.map_flatMap]
  exact List.flatMap_congr fun n _ => n.bindings_keys

/-- A port is bound to a node on a side exactly if the node carries it there. -/
theorem Coherent.port?_eq_some_iff (h : g.Coherent) {p : PortId} {b : PortBinding} :
    g.port? p = some b ↔ ∃ n ∈ g.nodes, n.id = b.node ∧ n.portOn b.side = some p := by
  have hkeys : (g.ports.map Prod.fst).Nodup := h.keys_eq ▸ h.nodup_ports
  rw [port?, PortTable.get?_eq_some_iff hkeys, h.ports_eq, List.mem_flatMap]
  simp only [Node.mem_bindings, eq_comm (a := b.node)]

theorem Coherent.port?_isSome_iff (h : g.Coherent) {p : PortId} :
    (g.port? p).isSome ↔ p ∈ g.nodes.flatMap Node.ports := by
  rw [Option.isSome_iff_exists, ← h.keys_eq]
  simp only [port?, PortTable.get?_eq_some_iff (h.keys_eq ▸ h.nodup_ports), List.mem_map,
    Prod.exists, exists_and_right, exists_eq_right]

/-- Nodes with the same id are the same. -/
theorem Coherent.eq_of_id_eq (h : g.Coherent) {m n : Node} (hm : m ∈ g.nodes) (hn : n ∈ g.nodes)
    (he : m.id = n.id) : m = n := List.inj_on_of_nodup_map h.nodup_ids hm hn he

/-- A port has one owner. -/
theorem Coherent.eq_of_mem_ports (h : g.Coherent) {m n : Node} {p : PortId} (hm : m ∈ g.nodes)
    (hn : n ∈ g.nodes) (hpm : p ∈ m.ports) (hpn : p ∈ n.ports) : m = n := by
  by_contra hne
  have hd := (List.nodup_flatMap.mp h.nodup_ports).2
  have hsymm : Std.Symm (Function.onFun List.Disjoint Node.ports) :=
    ⟨fun a b hab => List.Disjoint.symm hab⟩
  exact hd.forall hm hn hne hpm hpn

/-- The graph without nodes is coherent. -/
theorem coherent_empty : empty.Coherent where
  nodup_ids := List.nodup_nil
  nodup_ports := List.nodup_nil
  ports_eq := rfl
  source := by simp [empty]
  target := by simp [empty]
  nodup_targets := List.nodup_nil

/-- A node whose id and ports are new may be added. -/
theorem Coherent.push (h : g.Coherent) {n : Node} (hid : ∀ m ∈ g.nodes, m.id ≠ n.id)
    (hports : ∀ p ∈ n.ports, p ∉ g.nodes.flatMap Node.ports) (hn : n.ports.Nodup) :
    (g.push n).Coherent where
  nodup_ids := by
    rw [Graph.push, List.map_append, List.nodup_append]
    refine ⟨h.nodup_ids, by simp, ?_⟩
    intro a ha b hb
    obtain ⟨m, hm, rfl⟩ := List.mem_map.mp ha
    obtain rfl : b = n.id := by simpa using hb
    exact hid m hm
  nodup_ports := by
    rw [Graph.push, List.flatMap_append, List.nodup_append]
    refine ⟨h.nodup_ports, by simpa using hn, ?_⟩
    intro a ha b hb hab
    exact hports b (by simpa using hb) (hab ▸ ha)
  ports_eq := by
    have hnew : ∀ p ∈ n.ports, p ∉ g.ports.map Prod.fst := h.keys_eq ▸ hports
    rw [Graph.push, PortTable.bindNode_eq_append hn hnew, h.ports_eq]
    simp
  source e he := by
    obtain ⟨m, hm, hends⟩ := h.source e he
    exact ⟨m, List.mem_append_left _ hm, hends⟩
  target e he := by
    obtain ⟨m, hm, hends⟩ := h.target e he
    exact ⟨m, List.mem_append_left _ hm, hends⟩
  nodup_targets := h.nodup_targets

/-- An edge from an output to an input that no edge leads to may be added. -/
theorem Coherent.pushEdge (h : g.Coherent) {e : Edge}
    (hs : g.port? e.sourcePort = some ⟨e.source, .output⟩)
    (ht : g.port? e.targetPort = some ⟨e.target, .input⟩)
    (hfree : g.edgeInto? e.targetPort = none) : (g.pushEdge e).Coherent where
  nodup_ids := h.nodup_ids
  nodup_ports := h.nodup_ports
  ports_eq := h.ports_eq
  source a ha := by
    rcases List.mem_append.mp ha with ha | ha
    · exact h.source a ha
    · obtain rfl : a = e := by simpa using ha
      exact h.port?_eq_some_iff.mp hs
  target a ha := by
    rcases List.mem_append.mp ha with ha | ha
    · exact h.target a ha
    · obtain rfl : a = e := by simpa using ha
      exact h.port?_eq_some_iff.mp ht
  nodup_targets := by
    have hne : ∀ a ∈ g.edges, a.targetPort ≠ e.targetPort := by
      simpa [edgeInto?] using hfree
    rw [Graph.pushEdge, List.map_append, List.nodup_append]
    refine ⟨h.nodup_targets, by simp, ?_⟩
    intro a ha b hb
    obtain ⟨e', he', rfl⟩ := List.mem_map.mp ha
    obtain rfl : b = e.targetPort := by simpa using hb
    exact hne e' he'

/-- Edges may be dropped. -/
theorem Coherent.dropEdges (h : g.Coherent) {edges : List Edge} (hsub : edges.Sublist g.edges) :
    (Graph.mk g.nodes edges g.ports).Coherent where
  nodup_ids := h.nodup_ids
  nodup_ports := h.nodup_ports
  ports_eq := h.ports_eq
  source e he := h.source e (hsub.subset he)
  target e he := h.target e (hsub.subset he)
  nodup_targets := h.nodup_targets.sublist (hsub.map _)

/-- Without the entries of one node, the bindings of the nodes are those of the others. -/
theorem Coherent.bindings_filter (h : g.Coherent) {n : Node} (hn : n ∈ g.nodes) :
    (g.nodes.flatMap Node.bindings).filter (fun e => decide (e.1 ∉ n.ports)) =
      (g.nodes.filter fun m => m.id != n.id).flatMap Node.bindings := by
  have hsplit (nodes : List Node) (hsub : ∀ m ∈ nodes, m ∈ g.nodes) :
      (nodes.flatMap Node.bindings).filter (fun e => decide (e.1 ∉ n.ports)) =
        (nodes.filter fun m => m.id != n.id).flatMap Node.bindings := by
    induction nodes with
    | nil => rfl
    | cons m rest ih =>
      have hm : m ∈ g.nodes := hsub m List.mem_cons_self
      rw [List.flatMap_cons, List.filter_append, ih fun a ha => hsub a (List.mem_cons_of_mem m ha)]
      by_cases hid : m.id = n.id
      · obtain rfl := h.eq_of_id_eq hm hn hid
        have hnone : m.bindings.filter (fun e => decide (e.1 ∉ m.ports)) = [] := by
          refine List.filter_eq_nil_iff.mpr fun e he => ?_
          simp only [decide_eq_true_eq, not_not]
          exact m.bindings_keys ▸ List.mem_map_of_mem he
        rw [hnone]
        simp
      · have hall : m.bindings.filter (fun e => decide (e.1 ∉ n.ports)) = m.bindings := by
          refine List.filter_eq_self.mpr fun e he => ?_
          simp only [decide_eq_true_eq]
          intro hpn
          have hpm : e.1 ∈ m.ports := m.bindings_keys ▸ List.mem_map_of_mem he
          exact hid (congrArg Node.id (h.eq_of_mem_ports hm hn hpm hpn))
        rw [hall]
        simp [hid]
  exact hsplit g.nodes fun _ hm => hm

/-- A node may be removed with its ports and with the edges at it. -/
theorem Coherent.dropNode (h : g.Coherent) {n : Node} (hn : n ∈ g.nodes) :
    (Graph.mk (g.nodes.eraseP (·.id == n.id)) (g.edges.filter (!·.touches n.id))
      (g.ports.unbindNode n)).Coherent := by
  have hnodes : g.nodes.eraseP (·.id == n.id) = g.nodes.filter fun m => m.id != n.id :=
    eraseP_eq_filter_of_nodup h.nodup_ids n.id
  -- An end of an edge that does not touch the node stays, on both sides.
  have hstays {id : NodeId} {carries : Node → Prop} (hne : id ≠ n.id)
      (hend : ∃ m ∈ g.nodes, m.id = id ∧ carries m) :
      ∃ m ∈ g.nodes.filter fun m => m.id != n.id, m.id = id ∧ carries m := by
    obtain ⟨m, hm, rfl, hport⟩ := hend
    exact ⟨m, by simpa using ⟨hm, hne⟩, rfl, hport⟩
  rw [hnodes]
  refine ⟨?_, ?_, ?_, ?_, ?_, ?_⟩
  · exact h.nodup_ids.sublist (List.filter_sublist.map _)
  · exact h.nodup_ports.sublist (List.filter_sublist.flatMap _)
  · rw [PortTable.unbindNode_eq_filter, h.ports_eq, h.bindings_filter hn]
  · intro e he
    obtain ⟨he, htouch⟩ := List.mem_filter.mp he
    have hne : e.source ≠ n.id ∧ e.target ≠ n.id := by simpa [Edge.touches] using htouch
    exact hstays hne.1 (h.source e he)
  · intro e he
    obtain ⟨he, htouch⟩ := List.mem_filter.mp he
    have hne : e.source ≠ n.id ∧ e.target ≠ n.id := by simpa [Edge.touches] using htouch
    exact hstays hne.2 (h.target e he)
  · exact h.nodup_targets.sublist (List.filter_sublist.map _)

/-- The data of a node may be changed. -/
theorem Coherent.mapNode (h : g.Coherent) {f : Node → Node} (id : NodeId)
    (hid : ∀ n, (f n).id = n.id) (hin : ∀ n, (f n).input = n.input)
    (hout : ∀ n, (f n).output = n.output) :
    (Graph.mk (Graph.mapNode id f g.nodes) g.edges g.ports).Coherent := by
  -- Ids and ports are the only parts of a node that coherence speaks of.
  have hparts : (Graph.mapNode id f g.nodes).map (fun n => (n.id, n.input, n.output)) =
      g.nodes.map fun n => (n.id, n.input, n.output) :=
    map_mapNode (fun n => by rw [hid, hin, hout]) id g.nodes
  have hkept {part : Node → List PortId} (hp : ∀ n, part (f n) = part n) :
      (Graph.mapNode id f g.nodes).flatMap part = g.nodes.flatMap part := by
    rw [List.flatMap_def, List.flatMap_def, map_mapNode hp]
  have hfind {a : NodeId} {i o : Option PortId} (hmem : ∃ n ∈ g.nodes, (n.id, n.input, n.output) =
      (a, i, o)) : ∃ n ∈ Graph.mapNode id f g.nodes, (n.id, n.input, n.output) = (a, i, o) := by
    rw [← List.mem_map] at hmem ⊢
    exact hparts ▸ hmem
  refine ⟨?_, ?_, ?_, ?_, ?_, h.nodup_targets⟩
  · rw [map_mapNode hid]
    exact h.nodup_ids
  · rw [hkept fun n => by simp [Node.ports, hin, hout]]
    exact h.nodup_ports
  · rw [h.ports_eq, List.flatMap_def, List.flatMap_def,
      map_mapNode fun n => by simp [Node.bindings, hid, hin, hout]]
  · intro e he
    obtain ⟨n, hn, hends, hport⟩ := h.source e he
    obtain ⟨m, hm, heq⟩ := hfind ⟨n, hn, rfl⟩
    simp only [Prod.mk.injEq] at heq
    exact ⟨m, hm, heq.1.trans hends, heq.2.2.trans hport⟩
  · intro e he
    obtain ⟨n, hn, hends, hport⟩ := h.target e he
    obtain ⟨m, hm, heq⟩ := hfind ⟨n, hn, rfl⟩
    simp only [Prod.mk.injEq] at heq
    exact ⟨m, hm, heq.1.trans hends, heq.2.1.trans hport⟩

theorem node?_eq_none_iff {id : NodeId} : g.node? id = none ↔ ∀ n ∈ g.nodes, n.id ≠ id := by
  simp [node?]

theorem mem_of_node?_eq_some {id : NodeId} {n : Node} (h : g.node? id = some n) :
    n ∈ g.nodes ∧ n.id = id :=
  ⟨List.mem_of_find?_eq_some h, by simpa using List.find?_some h⟩

theorem Coherent.node?_id (h : g.Coherent) {n : Node} (hn : n ∈ g.nodes) :
    g.node? n.id = some n := by
  cases hfind : g.node? n.id with
  | none => exact absurd rfl (node?_eq_none_iff.mp hfind n hn)
  | some m =>
    obtain ⟨hm, hid⟩ := mem_of_node?_eq_some hfind
    rw [h.eq_of_id_eq hm hn hid]

theorem Coherent.port?_eq_none_iff (h : g.Coherent) {p : PortId} :
    g.port? p = none ↔ p ∉ g.nodes.flatMap Node.ports := by
  rw [← h.port?_isSome_iff, Option.not_isSome_iff_eq_none]

/-- An operation that succeeds on a coherent graph leaves a coherent graph, provided that the
ids it takes from a generator are unused. -/
theorem Coherent.perform (h : g.Coherent) {op : Operation} (hop : op.Promised g) {next : Graph}
    (hnext : g.perform op = .ok next) : next.Coherent := by
  cases perform_eq_ok_iff.mp hnext with
  | addNode fresh type =>
    refine h.push (fun m hm => hop.node m hm) ?_ hop.distinct
    intro p hp hmem
    obtain ⟨m, hm, hpm⟩ := List.mem_flatMap.mp hmem
    exact hop.port m hm p hpm hp
  | insertNode hid hports hn =>
    exact h.push (node?_eq_none_iff.mp hid)
      (fun p hp => h.port?_eq_none_iff.mp (hports p hp)) hn
  | insertEdge _ hends | connect hends =>
    obtain ⟨hs, ht, hfree⟩ := connectable_eq_ok_iff.mp hends
    exact h.pushEdge hs ht hfree
  | disconnect _ => exact h.dropEdges List.eraseP_sublist
  | removeNode hn =>
    obtain ⟨hmem, rfl⟩ := mem_of_node?_eq_some hn
    exact h.dropNode hmem
  | @updateNode id _ patch _ => exact h.mapNode id (fun _ => rfl) (fun _ => rfl) (fun _ => rfl)

/-- Every graph that a run of operations leads to is coherent. -/
theorem Reachable.coherent (h : g.Reachable) : g.Coherent := by
  induction h with
  | empty => exact coherent_empty
  | step op _ hop ih => exact after_of_perform ih fun _ hnext => ih.perform hop hnext

end Graph

end Workflow
