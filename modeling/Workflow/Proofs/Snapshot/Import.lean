import Workflow.Proofs.Corresponding
import Workflow.Proofs.Graph.Assembly
import Workflow.Snapshot.Graph

/-!
# Which snapshots are imported

A snapshot becomes a graph record by record, each checked against the graph so far. The
outcome does not depend on the order of the checks: a graph is what a snapshot is imported
as exactly if its nodes and edges are those that the records describe, in order, and they
fit together. From this the snapshots that are imported are described by conditions on
their records alone.
-/

namespace Workflow

namespace TaskType

/-- Whether tasks of the type have a port on a side. -/
def hasPort (t : TaskType) : PortSide → Bool
  | .input => t.hasInput
  | .output => t.hasOutput

/-- A text names the type whose name it is, in capital letters and without the blanks around
it. -/
theorem ofText?_eq_some_iff {s : String} {t : TaskType} :
    ofText? s = some t ↔ upperAscii (Text.trim s) = t.name := by
  rw [ofText?]
  generalize upperAscii (Text.trim s) = name
  constructor
  · intro h
    have hname := List.find?_some h
    exact (beq_iff_eq.mp hname).symm
  · rintro rfl
    cases t <;> decide

end TaskType

/-- What holds of both sides holds of each. -/
theorem PortSide.forall_iff {P : PortSide → Prop} : (∀ side, P side) ↔ P .input ∧ P .output :=
  ⟨fun h => ⟨h .input, h .output⟩, fun h side => by cases side <;> simp [h]⟩

theorem NodeId.mk_injective : Function.Injective NodeId.mk := fun _ _ => NodeId.mk.inj

theorem PortId.mk_injective : Function.Injective PortId.mk := fun _ _ => PortId.mk.inj

theorem EdgeId.mk_injective : Function.Injective EdgeId.mk := fun _ _ => EdgeId.mk.inj

/-- A node has a port exactly on the sides on which its type has one. -/
def Node.Complete (n : Node) : Prop := ∀ side, (n.portOn side).isSome = n.type.hasPort side

namespace UiNode

/-- The id of a port that the record gives for a side. -/
def boundId (r : UiNode) : PortSide → Option String
  | .input => r.data.inputBoundId
  | .output => r.data.outputBoundId

/-- The id of a port that the record gives for a side, if its type has a port there. -/
def portId (r : UiNode) (side : PortSide) : Option String :=
  if (TaskType.ofText? r.type).any (·.hasPort side) then r.boundId side else none

/-- The ids of ports that the record gives for the sides of its type, the input first. -/
def portIds (r : UiNode) : List String := (r.portId .input).toList ++ (r.portId .output).toList

/-- The record says of the node all that is known of it. -/
structure Describes (r : UiNode) (n : Node) : Prop where
  /-- The record gives the id. -/
  id : n.id = ⟨r.id⟩
  /-- The record names the type, in any case and with blanks around it. -/
  type : TaskType.upperAscii (Text.trim r.type) = n.type.name
  /-- The ports are those that the record gives for the sides of the type. -/
  port : ∀ side, n.portOn side = if n.type.hasPort side then (r.boundId side).map .mk else none
  /-- The record gives the label. -/
  label : n.label = r.data.label
  /-- The record gives the params. -/
  params : n.params = r.data.params
  /-- The record gives the script. -/
  exec : n.exec = r.data.exec
  /-- The record gives the source of the script. -/
  execTs : n.execTs = r.data.execTs
  /-- The record gives the place. -/
  position : n.position = r.position
  /-- All other keys of the record stay. -/
  uiExtra : n.uiExtra = r.extra
  /-- All other keys of the data stay. -/
  dataExtra : n.dataExtra = r.data.extra

variable {r : UiNode} {n m : Node}

/-- The type of a node is read off its record. -/
theorem Describes.ofText?_eq (h : r.Describes n) : TaskType.ofText? r.type = some n.type :=
  TaskType.ofText?_eq_some_iff.mpr h.type

/-- The port on a side is read off the record. -/
theorem Describes.portId_eq (h : r.Describes n) (side : PortSide) :
    (r.portId side).map PortId.mk = n.portOn side := by
  rw [h.port, portId, h.ofText?_eq, Option.any_some]
  split <;> rfl

/-- The ports of a node are read off its record. -/
theorem Describes.portIds_eq (h : r.Describes n) : r.portIds.map PortId.mk = n.ports := by
  have hin := h.portId_eq .input
  have hout := h.portId_eq .output
  rw [portIds, List.map_append, Node.ports]
  simp only [Node.portOn] at hin hout
  rw [← hin, ← hout]
  cases r.portId .input <;> cases r.portId .output <;> rfl

/-- The node that the record describes if it names the type. -/
def asNode (r : UiNode) (type : TaskType) : Node :=
  { Node.restore ⟨r.id⟩ type (r.data.inputBoundId.map .mk) (r.data.outputBoundId.map .mk) with
    label := r.data.label
    params := r.data.params
    exec := r.data.exec
    execTs := r.data.execTs
    position := r.position
    uiExtra := r.extra
    dataExtra := r.data.extra }

/-- A record that names a type describes one node. -/
theorem describes_iff {type : TaskType} (h : TaskType.ofText? r.type = some type) :
    r.Describes n ↔ n = r.asNode type := by
  constructor
  · intro hn
    obtain rfl : n.type = type := Option.some.inj (hn.ofText?_eq.symm.trans h)
    have hin := hn.port .input
    have hout := hn.port .output
    obtain ⟨id, type, input, output, label, params, exec, execTs, position, uiExtra, dataExtra⟩ := n
    simp only [asNode, Node.restore, Node.mk.injEq]
    exact ⟨hn.id, trivial, hin, hout, hn.label, hn.params, hn.exec, hn.execTs, hn.position,
      hn.uiExtra, hn.dataExtra⟩
  · rintro rfl
    refine ⟨rfl, TaskType.ofText?_eq_some_iff.mp h, fun side => ?_, rfl, rfl, rfl, rfl, rfl, rfl, rfl⟩
    cases side <;> rfl

/-- A node that is described is complete if each of its ports is bound. -/
theorem complete_asNode_iff {type : TaskType} : (r.asNode type).Complete ↔
    ∀ side, type.hasPort side = true → (r.boundId side).isSome = true := by
  refine forall_congr' fun side => ?_
  cases side <;> cases hport : type.hasPort _ <;>
    simp_all [asNode, Node.restore, Node.portOn, boundId, TaskType.hasPort]

/-- A record is read as the node that it describes, unless this lacks a port. -/
theorem toNode_eq_ok_iff : r.toNode = .ok n ↔ r.Describes n ∧ n.Complete := by
  rw [toNode]
  cases h : TaskType.ofText? r.type with
  | none =>
    simp only [reduceCtorEq, false_iff, not_and]
    intro hn
    rw [hn.ofText?_eq] at h
    cases h
  | some type =>
    have hread : (r.asNode type).Complete ↔
        ¬(type.hasInput && r.data.inputBoundId.isNone) = true ∧
          ¬(type.hasOutput && r.data.outputBoundId.isNone) = true := by
      rw [complete_asNode_iff, PortSide.forall_iff]
      simp [TaskType.hasPort, boundId, Option.isSome_iff_ne_none]
    have hsame : (n = r.asNode type ∧ n.Complete) ↔
        ((r.asNode type).Complete ∧ r.asNode type = n) := by
      constructor
      · rintro ⟨rfl, hcomplete⟩
        exact ⟨hcomplete, rfl⟩
      · rintro ⟨hcomplete, rfl⟩
        exact ⟨rfl, hcomplete⟩
    rw [describes_iff h, hsame, hread]
    simp only
    split
    · simp_all
    · split
      · simp_all
      · simp_all [asNode]

end UiNode

/-- A coherent graph in which every node has the ports of its type. -/
structure Graph.Complete (g : Graph) : Prop extends g.Coherent where
  /-- Nodes have the ports of their types. -/
  nodes_complete : ∀ n ∈ g.nodes, n.Complete

/-- A graph that a snapshot can hold: it is complete, and no two edges have the same id. -/
structure Graph.Storable (g : Graph) : Prop extends g.Complete where
  /-- No two edges have the same id. -/
  nodup_edges : (g.edges.map Edge.id).Nodup

namespace Graph

variable {g next : Graph} {nodes : List Node} {edges : List Edge}

/-- A record becomes a node exactly if it describes a complete one that the graph takes. -/
theorem insertUiNode_eq_ok_iff {r : UiNode} : g.insertUiNode r = .ok next ↔
    ∃ n, (r.Describes n ∧ n.Complete) ∧ g.insertNode n = .ok next := by
  simp only [insertUiNode, bind_eq_ok_iff, mapError_eq_ok_iff, UiNode.toNode_eq_ok_iff]

theorem insertUiEdge_eq_ok_iff {r : UiEdge} :
    g.insertUiEdge r = .ok next ↔ g.insertEdge r.toEdge = .ok next :=
  mapError_eq_ok_iff

/-- Nodes are inserted one after the other exactly if none lacks a port and the graph of all of
them is coherent. -/
theorem Coherent.foldlM_insertUiNode_iff (h : (ofParts nodes []).Coherent) {records : List UiNode} :
    records.foldlM insertUiNode (ofParts nodes []) = .ok next ↔
      ∃ more, (List.Forall₂ UiNode.Describes records more ∧ ∀ n ∈ more, n.Complete) ∧
        (ofParts (nodes ++ more) []).Coherent ∧ next = ofParts (nodes ++ more) [] := by
  induction records generalizing nodes with
  | nil => simp [pure, Except.pure, h, eq_comm]
  | cons r rest ih =>
    rw [List.foldlM_cons, bind_eq_ok_iff]
    simp only [insertUiNode_eq_ok_iff, h.insertNode_iff]
    have hsplit (n : Node) (more : List Node) : nodes ++ n :: more = nodes ++ [n] ++ more := by simp
    constructor
    · rintro ⟨_, ⟨n, ⟨hn, hcomplete⟩, hcoherent, rfl⟩, hrest⟩
      obtain ⟨more, ⟨hmore, hall⟩, hmany, rfl⟩ := (ih hcoherent).mp hrest
      rw [← hsplit n more] at hmany ⊢
      exact ⟨n :: more, ⟨.cons hn hmore, List.forall_mem_cons.mpr ⟨hcomplete, hall⟩⟩, hmany, rfl⟩
    · rintro ⟨_, ⟨hdescribed, hall⟩, hmany, rfl⟩
      obtain ⟨n, more, hn, hmore, rfl⟩ := List.forall₂_cons_left_iff.mp hdescribed
      obtain ⟨hcomplete, hrest⟩ := List.forall_mem_cons.mp hall
      rw [hsplit n more] at hmany
      have hcoherent := hmany.firstNodes
      exact ⟨_, ⟨n, ⟨hn, hcomplete⟩, hcoherent, rfl⟩,
        (ih hcoherent).mpr ⟨more, ⟨hmore, hrest⟩, hmany, by rw [hsplit n more]⟩⟩

/-- Edges are inserted one after the other exactly if the graph with all of them is coherent
and gives no id to two of them. -/
theorem Coherent.foldlM_insertUiEdge_iff (h : (ofParts nodes edges).Coherent)
    (hedges : (edges.map Edge.id).Nodup) {records : List UiEdge} :
    records.foldlM insertUiEdge (ofParts nodes edges) = .ok next ↔
      ((ofParts nodes (edges ++ records.map UiEdge.toEdge)).Coherent ∧
        ((edges ++ records.map UiEdge.toEdge).map Edge.id).Nodup) ∧
        next = ofParts nodes (edges ++ records.map UiEdge.toEdge) := by
  induction records generalizing edges with
  | nil => simp [pure, Except.pure, h, hedges, eq_comm]
  | cons r rest ih =>
    rw [List.foldlM_cons, bind_eq_ok_iff, List.map_cons, ← List.singleton_append,
      ← List.append_assoc]
    simp only [insertUiEdge_eq_ok_iff, h.insertEdge_iff hedges]
    constructor
    · rintro ⟨_, ⟨⟨hcoherent, hnodup⟩, rfl⟩, hrest⟩
      exact (ih hcoherent hnodup).mp hrest
    · rintro ⟨⟨hall, hnodup⟩, rfl⟩
      have hfirst := List.sublist_append_left (edges ++ [r.toEdge]) (rest.map UiEdge.toEdge)
      have hcoherent := hall.dropEdges hfirst
      have hnodup' := hnodup.sublist (hfirst.map Edge.id)
      exact ⟨_, ⟨⟨hcoherent, hnodup'⟩, rfl⟩, (ih hcoherent hnodup').mpr ⟨⟨hall, hnodup⟩, rfl⟩⟩

end Graph

/-- A snapshot is imported as a graph exactly if the graph can be stored and its nodes and edges
are those that the records describe, in order. -/
theorem UiSnapshot.toGraph_eq_ok_iff {s : UiSnapshot} {g : Graph} : s.toGraph = .ok g ↔
    List.Forall₂ UiNode.Describes s.nodes g.nodes ∧ g.edges = s.edges.map UiEdge.toEdge ∧
      g.Storable := by
  have hempty : (Graph.ofParts [] []).Coherent := Graph.coherent_empty
  rw [toGraph, bind_eq_ok_iff, show Graph.empty = Graph.ofParts [] [] from rfl]
  simp only [hempty.foldlM_insertUiNode_iff, List.nil_append]
  constructor
  · rintro ⟨_, ⟨nodes, ⟨hnodes, hcomplete⟩, hcoherent, rfl⟩, hedges⟩
    obtain ⟨⟨hall, hnodup⟩, rfl⟩ := (hcoherent.foldlM_insertUiEdge_iff List.nodup_nil).mp hedges
    exact ⟨hnodes, rfl, ⟨hall, hcomplete⟩, hnodup⟩
  · rintro ⟨hnodes, hedges, hstorable⟩
    have hg := hstorable.toCoherent.eq_ofParts
    have hnone : (Graph.ofParts g.nodes []).Coherent := by
      have hdrop := hstorable.dropEdges (List.nil_sublist g.edges)
      rwa [hstorable.ports_eq] at hdrop
    refine ⟨_, ⟨g.nodes, ⟨hnodes, hstorable.nodes_complete⟩, hnone, rfl⟩, ?_⟩
    rw [hnone.foldlM_insertUiEdge_iff List.nodup_nil, List.nil_append, ← hedges, ← hg]
    exact ⟨⟨hstorable.toCoherent, hstorable.nodup_edges⟩, rfl⟩

/-- The id of an edge: the one that the record gives, or else the one that the editor gives. -/
def UiEdge.ownId (r : UiEdge) : String :=
  r.id.getD (Edge.editorId ⟨r.source⟩ ⟨r.sourceHandle⟩ ⟨r.target⟩ ⟨r.targetHandle⟩).text

/-- An edge has the id that its record gives it. -/
theorem UiEdge.toEdge_id (r : UiEdge) : r.toEdge.id = ⟨r.ownId⟩ := by
  cases hid : r.id <;> simp [toEdge, ownId, hid]

/-- The records of a snapshot fit together; `port` tells which id of a port a record gives for
a side of its node. -/
structure UiSnapshot.WellFormed (port : UiNode → PortSide → Option String) (s : UiSnapshot) :
    Prop where
  /-- Every node has a known type, and an id for each port of the type. -/
  typed : ∀ r ∈ s.nodes, ∃ type : TaskType, TaskType.upperAscii (Text.trim r.type) = type.name ∧
    ∀ side, type.hasPort side = true → (r.boundId side).isSome = true
  /-- No two nodes have the same id. -/
  nodup_ids : (s.nodes.map UiNode.id).Nodup
  /-- No id is given for two of the ports that the types have. -/
  nodup_portIds : (s.nodes.flatMap UiNode.portIds).Nodup
  /-- No two edges have the same id. -/
  nodup_ownIds : (s.edges.map UiEdge.ownId).Nodup
  /-- An edge leads from the output of its source. -/
  source : ∀ e ∈ s.edges, ∃ r ∈ s.nodes, r.id = e.source ∧ port r .output = some e.sourceHandle
  /-- An edge leads to the input of its target. -/
  target : ∀ e ∈ s.edges, ∃ r ∈ s.nodes, r.id = e.target ∧ port r .input = some e.targetHandle
  /-- No two edges lead to the same port. -/
  nodup_targets : (s.edges.map UiEdge.targetHandle).Nodup

namespace UiSnapshot

variable {s : UiSnapshot} {nodes : List Node} (h : List.Forall₂ UiNode.Describes s.nodes nodes)

include h

/-- Nodes have distinct ids exactly if their records have. -/
private theorem nodup_ids_iff : (nodes.map Node.id).Nodup ↔ (s.nodes.map UiNode.id).Nodup := by
  have hids : s.nodes.map (fun r => NodeId.mk r.id) = nodes.map Node.id :=
    map_eq_map_of_forall₂ h fun hr => hr.id.symm
  rw [← hids, ← List.nodup_map_iff NodeId.mk_injective, List.map_map]
  rfl

/-- Nodes have distinct ports exactly if their records have. -/
private theorem nodup_portIds_iff :
    (nodes.flatMap Node.ports).Nodup ↔ (s.nodes.flatMap UiNode.portIds).Nodup := by
  have hports : s.nodes.map (fun r => r.portIds.map PortId.mk) = nodes.map Node.ports :=
    map_eq_map_of_forall₂ h fun hr => hr.portIds_eq
  rw [List.flatMap_def, ← hports, ← List.flatMap_def, ← List.map_flatMap,
    List.nodup_map_iff PortId.mk_injective]

/-- The node with a given port on a side is described by the record that gives the port. -/
private theorem exists_port_iff (side : PortSide) (id port : String) :
    (∃ n ∈ nodes, n.id = ⟨id⟩ ∧ n.portOn side = some ⟨port⟩) ↔
      ∃ r ∈ s.nodes, r.id = id ∧ r.portId side = some port := by
  have hports : s.nodes.map (fun r => (NodeId.mk r.id, (r.portId side).map PortId.mk)) =
      nodes.map fun n => (n.id, n.portOn side) :=
    map_eq_map_of_forall₂ h fun hr => by rw [hr.id, hr.portId_eq]
  have hmem := iff_of_eq (congrArg ((NodeId.mk id, some (PortId.mk port)) ∈ ·) hports)
  simp only [List.mem_map, Prod.mk.injEq, NodeId.mk.injEq, Option.map_eq_some_iff, PortId.mk.injEq,
    exists_eq_right] at hmem
  exact hmem.symm

/-- Nodes are complete exactly if their records name a type and bind the ports that it has. -/
private theorem forall_complete_iff : (∀ n ∈ nodes, n.Complete) ↔
    ∀ r ∈ s.nodes, ∃ type : TaskType, TaskType.upperAscii (Text.trim r.type) = type.name ∧
      ∀ side, type.hasPort side = true → (r.boundId side).isSome = true := by
  refine (forall_mem_iff_of_forall₂ h fun {r n} hr => ?_).symm
  have hn := (UiNode.describes_iff hr.ofText?_eq).mp hr
  rw [hn, UiNode.complete_asNode_iff]
  constructor
  · rintro ⟨type, htype, hbound⟩
    obtain rfl := Option.some.inj (hr.ofText?_eq.symm.trans (TaskType.ofText?_eq_some_iff.mpr htype))
    exact hbound
  · exact fun hbound => ⟨n.type, hr.type, hbound⟩

/-- The graph of the nodes and edges that the records describe can be stored exactly if the
records fit together. -/
theorem storable_iff_wellFormed :
    (Graph.ofParts nodes (s.edges.map UiEdge.toEdge)).Storable ↔ s.WellFormed UiNode.portId := by
  have hedges : ((s.edges.map UiEdge.toEdge).map Edge.id).Nodup ↔
      (s.edges.map UiEdge.ownId).Nodup := by
    have hids : (s.edges.map UiEdge.toEdge).map Edge.id = (s.edges.map UiEdge.ownId).map .mk := by
      simp [List.map_map, UiEdge.toEdge_id]
    rw [hids, List.nodup_map_iff EdgeId.mk_injective]
  have htargets : ((s.edges.map UiEdge.toEdge).map Edge.targetPort).Nodup ↔
      (s.edges.map UiEdge.targetHandle).Nodup := by
    have hports : (s.edges.map UiEdge.toEdge).map Edge.targetPort =
        (s.edges.map UiEdge.targetHandle).map .mk := by
      simp [List.map_map, UiEdge.toEdge]
    rw [hports, List.nodup_map_iff PortId.mk_injective]
  constructor
  · intro hstorable
    refine ⟨(forall_complete_iff h).mp hstorable.nodes_complete, (nodup_ids_iff h).mp hstorable.nodup_ids,
      (nodup_portIds_iff h).mp hstorable.nodup_ports, hedges.mp hstorable.nodup_edges,
      fun e he => ?_, fun e he => ?_, htargets.mp hstorable.nodup_targets⟩
    · exact (exists_port_iff h .output _ _).mp (hstorable.source _ (List.mem_map_of_mem he))
    · exact (exists_port_iff h .input _ _).mp (hstorable.target _ (List.mem_map_of_mem he))
  · intro hs
    refine ⟨⟨⟨(nodup_ids_iff h).mpr hs.nodup_ids, (nodup_portIds_iff h).mpr hs.nodup_portIds, rfl,
      ?_, ?_, htargets.mpr hs.nodup_targets⟩, (forall_complete_iff h).mpr hs.typed⟩,
      hedges.mpr hs.nodup_ownIds⟩
    · refine List.forall_mem_map.mpr fun e he => ?_
      exact (exists_port_iff h .output _ _).mpr (hs.source e he)
    · refine List.forall_mem_map.mpr fun e he => ?_
      exact (exists_port_iff h .input _ _).mpr (hs.target e he)

omit h in
/-- A snapshot is imported exactly if its records fit together, an edge being at ports that the
types of its nodes have. The nodes and edges of the graph are those that the records describe,
one for each record and in the same order. -/
theorem imported_iff_wellFormed (s : UiSnapshot) :
    ((∃ g, s.toGraph = .ok g) ↔ s.WellFormed UiNode.portId) ∧
      ∀ g, s.toGraph = .ok g →
        List.Forall₂ UiNode.Describes s.nodes g.nodes ∧ g.edges = s.edges.map UiEdge.toEdge := by
  refine ⟨⟨?_, fun hs => ?_⟩, fun g hg => ?_⟩
  · rintro ⟨g, hg⟩
    obtain ⟨hnodes, hedges, hstorable⟩ := toGraph_eq_ok_iff.mp hg
    rw [← storable_iff_wellFormed hnodes, ← hedges, ← hstorable.toCoherent.eq_ofParts]
    exact hstorable
  · have hnodes : List.Forall₂ UiNode.Describes s.nodes
        (s.nodes.map fun r => r.asNode ((TaskType.ofText? r.type).getD .start)) := by
      refine List.forall₂_map_right_iff.mpr (List.forall₂_same.mpr fun r hr => ?_)
      obtain ⟨type, htype, -⟩ := hs.typed r hr
      have hof := TaskType.ofText?_eq_some_iff.mpr htype
      exact (UiNode.describes_iff hof).mpr (by rw [hof, Option.getD_some])
    exact ⟨_, toGraph_eq_ok_iff.mpr ⟨hnodes, rfl, (storable_iff_wellFormed hnodes).mpr hs⟩⟩
  · obtain ⟨hnodes, hedges, -⟩ := toGraph_eq_ok_iff.mp hg
    exact ⟨hnodes, hedges⟩

end UiSnapshot

/-- A record that gives no more than an id, a type and ports. -/
def UiNode.bare (id type : String) (input output : Option String) : UiNode :=
  ⟨id, type, .initial, ⟨"", input, output, [], none, none, []⟩, []⟩

/-- A start node whose type is written with capitals and blanks, with a stray input, and a
function behind it. -/
theorem UiSnapshot.imported_written_type :
    let s : UiSnapshot := ⟨[.bare "s" " START\u00a0" (some "f.in") (some "s.out"),
      .bare "f" "Function" (some "f.in") (some "f.out")], [⟨none, "s", "s.out", "f", "f.in", []⟩]⟩
    ∃ g, s.toGraph = .ok g ∧ List.Forall₂ UiNode.Describes s.nodes g.nodes ∧
      g.edges = s.edges.map UiEdge.toEdge := by
  intro s
  have hs : s.WellFormed UiNode.portId := by
    refine ⟨?_, by decide, by decide +kernel, by decide, by decide +kernel, by decide +kernel,
      by decide⟩
    simp only [s, List.forall_mem_cons, PortSide.forall_iff]
    exact ⟨⟨.start, by decide +kernel, by decide⟩, ⟨.function, by decide +kernel, by decide⟩, by simp⟩
  obtain ⟨g, hg⟩ := (imported_iff_wellFormed s).1.mpr hs
  exact ⟨g, hg, (imported_iff_wellFormed s).2 g hg⟩

/-- An edge that leads from a port which the record of an end node gives is refused, for the
type has no output and the port is dropped. -/
theorem UiSnapshot.refused_dropped_port :
    let s : UiSnapshot := ⟨[.bare "e" "end" (some "ei") (some "eo"),
      .bare "f" "function" (some "fi") (some "fo")], [⟨none, "e", "eo", "f", "fi", []⟩]⟩
    s.WellFormed UiNode.boundId ∧ s.toGraph = .error (.structural (.unknownPort ⟨"eo"⟩)) := by
  intro s
  refine ⟨⟨?_, by decide, by decide +kernel, by decide, by decide, by decide, by decide⟩,
    by decide +kernel⟩
  simp only [s, List.forall_mem_cons, PortSide.forall_iff]
  exact ⟨⟨.finish, by decide +kernel, by decide⟩, ⟨.function, by decide +kernel, by decide⟩, by simp⟩

end Workflow
