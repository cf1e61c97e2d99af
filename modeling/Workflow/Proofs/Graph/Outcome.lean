import Workflow.Proofs.Fallible
import Workflow.Proofs.Graph.Operation

/-!
# What a successful operation did

For each operation on a graph, exactly when it succeeds and which graph it leaves. Later
proofs rest on these facts and leave the operations closed.
-/

namespace Workflow

/-- A node is not refused for its ports exactly if none is in the table and no port is
carried on both sides. -/
theorem Graph.takenPort?_eq_none_iff {g : Graph} {n : Node} :
    g.takenPort? n = none ↔ (∀ p ∈ n.ports, g.port? p = none) ∧ n.ports.Nodup := by
  have hfind : (n.ports.find? fun p => (g.port? p).isSome) = none ↔
      ∀ p ∈ n.ports, g.port? p = none := by simp
  have hboth : (n.input.filter fun p => n.output == some p) = none ↔ n.ports.Nodup := by
    cases hi : n.input with
    | none => cases ho : n.output <;> simp [Node.ports, hi, ho]
    | some p =>
      cases ho : n.output with
      | none => simp [Node.ports, hi, ho]
      | some q => simp [Node.ports, hi, ho, eq_comm (a := q)]
  rw [Graph.takenPort?, ← hfind, ← hboth]
  cases n.ports.find? fun p => (g.port? p).isSome <;> simp

/-- A node is inserted exactly if its id is not in use and its ports are new. -/
theorem Graph.insertNode_eq_ok_iff {g next : Graph} {n : Node} :
    g.insertNode n = .ok next ↔ g.node? n.id = none ∧ (∀ p ∈ n.ports, g.port? p = none) ∧
      n.ports.Nodup ∧ next = g.push n := by
  rw [← and_assoc (a := ∀ p ∈ n.ports, _), ← Graph.takenPort?_eq_none_iff, Graph.insertNode]
  cases hn : g.node? n.id with
  | some m => simp
  | none => cases ht : g.takenPort? n <;> simp [eq_comm]

/-- A node is removed exactly if its id is in use. -/
theorem Graph.removeNode_eq_ok_iff {g next : Graph} {id : NodeId} {n : Node} :
    g.removeNode id = .ok (next, n) ↔ g.node? id = some n ∧
      next = ⟨g.nodes.eraseP (·.id == id), g.edges.filter (!·.touches id),
        g.ports.unbindNode n⟩ := by
  rw [Graph.removeNode]
  cases g.node? id with
  | none => simp
  | some m =>
    simp only [Except.ok.injEq, Prod.mk.injEq, Option.some.injEq]
    constructor
    · rintro ⟨rfl, rfl⟩
      exact ⟨rfl, rfl⟩
    · rintro ⟨rfl, rfl⟩
      exact ⟨rfl, rfl⟩

/-- The owner of a port is found exactly on the side on which the port is bound. -/
theorem Graph.ownerOn_eq_ok_iff {g : Graph} {p : PortId} {side : PortSide} {id : NodeId} :
    g.ownerOn p side = .ok id ↔ g.port? p = some ⟨id, side⟩ := by
  rw [Graph.ownerOn]
  cases g.port? p with
  | none => simp
  | some b =>
    obtain ⟨node, actual⟩ := b
    by_cases h : actual = side <;> simp [h]

/-- Two ports can be connected exactly if the first is an output, the second an input, and no
edge leads to the second. -/
theorem Graph.connectable_eq_ok_iff {g : Graph} {sourcePort targetPort : PortId}
    {source target : NodeId} :
    g.connectable sourcePort targetPort = .ok (source, target) ↔
      g.port? sourcePort = some ⟨source, .output⟩ ∧ g.port? targetPort = some ⟨target, .input⟩ ∧
        g.edgeInto? targetPort = none := by
  rw [← Graph.ownerOn_eq_ok_iff, ← Graph.ownerOn_eq_ok_iff, Graph.connectable]
  cases g.ownerOn sourcePort .output with
  | error => simp [bind, Except.bind]
  | ok s =>
    cases g.ownerOn targetPort .input with
    | error => simp [bind, Except.bind]
    | ok t =>
      cases g.edgeInto? targetPort <;>
        simp [bind, Except.bind, throw, throwThe, MonadExceptOf.throw, pure, Except.pure]

/-- The edge that connecting two ports draws. -/
def Edge.drawn (source : NodeId) (sourcePort : PortId) (target : NodeId) (targetPort : PortId) :
    Edge :=
  ⟨Edge.editorId source sourcePort target targetPort, source, sourcePort, target, targetPort, []⟩

/-- Connecting draws an edge at the end, exactly if the ports can be connected. -/
theorem Graph.connect_eq_ok_iff {g next : Graph} {sourcePort targetPort : PortId} {e : Edge} :
    g.connect sourcePort targetPort = .ok (next, e) ↔
      ∃ source target, g.connectable sourcePort targetPort = .ok (source, target) ∧
        e = Edge.drawn source sourcePort target targetPort ∧ next = g.pushEdge e := by
  rw [Graph.connect]
  cases g.connectable sourcePort targetPort with
  | error => simp [bind, Except.bind]
  | ok ends =>
    obtain ⟨s, t⟩ := ends
    simp only [bind, Except.bind, pure, Except.pure, Except.ok.injEq, Prod.mk.injEq]
    constructor
    · rintro ⟨rfl, rfl⟩
      exact ⟨s, t, ⟨rfl, rfl⟩, rfl, rfl⟩
    · rintro ⟨s', t', ⟨rfl, rfl⟩, rfl, rfl⟩
      exact ⟨rfl, rfl⟩

/-- An edge is inserted exactly if its id is not in use, its ports can be connected, and it
names the nodes that carry them. -/
theorem Graph.insertEdge_eq_ok_iff {g next : Graph} {e : Edge} :
    g.insertEdge e = .ok next ↔ g.edge? e.id = none ∧
      g.connectable e.sourcePort e.targetPort = .ok (e.source, e.target) ∧
        next = g.pushEdge e := by
  rw [Graph.insertEdge]
  cases g.edge? e.id with
  | some => simp [bind, Except.bind, throw, throwThe, MonadExceptOf.throw]
  | none =>
    cases g.connectable e.sourcePort e.targetPort with
    | error => simp [bind, Except.bind]
    | ok ends =>
      obtain ⟨s, t⟩ := ends
      by_cases hs : s = e.source <;> by_cases ht : t = e.target <;>
        simp [bind, Except.bind, pure, Except.pure, throw, throwThe, MonadExceptOf.throw, hs, ht,
          eq_comm]

/-- An edge is removed exactly if its id is in use. -/
theorem Graph.disconnect_eq_ok_iff {g next : Graph} {id : EdgeId} {e : Edge} :
    g.disconnect id = .ok (next, e) ↔ g.edge? id = some e ∧
      next = { g with edges := g.edges.eraseP (·.id == id) } := by
  rw [Graph.disconnect]
  cases g.edge? id with
  | none => simp
  | some => simp [and_comm, eq_comm]

/-- The data of a node are changed exactly if its id is in use. -/
theorem Graph.updateNode_eq_ok_iff {g next : Graph} {id : NodeId} {patch : Patch} {n : Node} :
    g.updateNode id patch = .ok (next, n) ↔ ∃ m, g.node? id = some m ∧ n = patch.apply m ∧
      next = { g with nodes := mapNode id patch.apply g.nodes } := by
  rw [Graph.updateNode]
  cases g.node? id with
  | none => simp
  | some => simp [and_comm, eq_comm]

/-- All that a successful operation can do: what it found in the graph, and the graph that it
leaves. -/
inductive Graph.Performs (g : Graph) : Graph.Operation → Graph → Prop
  | addNode (fresh : FreshIds) (type : TaskType) :
      Graph.Performs g (.addNode fresh type) (g.push (Node.create fresh type))
  | insertNode {n : Node} : g.node? n.id = none → (∀ p ∈ n.ports, g.port? p = none) →
      n.ports.Nodup → Graph.Performs g (.insertNode n) (g.push n)
  | insertEdge {e : Edge} : g.edge? e.id = none →
      g.connectable e.sourcePort e.targetPort = .ok (e.source, e.target) →
      Graph.Performs g (.insertEdge e) (g.pushEdge e)
  | connect {sourcePort targetPort : PortId} {source target : NodeId} :
      g.connectable sourcePort targetPort = .ok (source, target) →
      Graph.Performs g (.connect sourcePort targetPort)
        (g.pushEdge (Edge.drawn source sourcePort target targetPort))
  | disconnect {id : EdgeId} {e : Edge} : g.edge? id = some e →
      Graph.Performs g (.disconnect id) { g with edges := g.edges.eraseP (·.id == id) }
  | removeNode {id : NodeId} {n : Node} : g.node? id = some n →
      Graph.Performs g (.removeNode id) ⟨g.nodes.eraseP (·.id == id),
        g.edges.filter (!·.touches id), g.ports.unbindNode n⟩
  | updateNode {id : NodeId} {n : Node} (patch : Patch) : g.node? id = some n →
      Graph.Performs g (.updateNode id patch)
        { g with nodes := mapNode id patch.apply g.nodes }

/-- An operation succeeds exactly if it finds what it needs. -/
theorem Graph.perform_eq_ok_iff {g next : Graph} {op : Graph.Operation} :
    g.perform op = .ok next ↔ g.Performs op next := by
  constructor
  · intro h
    cases op with
    | addNode fresh type =>
      obtain rfl : g.push (Node.create fresh type) = next := Except.ok.inj h
      exact .addNode fresh type
    | insertNode n =>
      obtain ⟨hid, hports, hn, rfl⟩ := Graph.insertNode_eq_ok_iff.mp h
      exact .insertNode hid hports hn
    | insertEdge e =>
      obtain ⟨hid, hends, rfl⟩ := Graph.insertEdge_eq_ok_iff.mp h
      exact .insertEdge hid hends
    | connect sourcePort targetPort =>
      obtain ⟨e, h⟩ := exists_of_map_fst_eq_ok h
      obtain ⟨source, target, hends, rfl, rfl⟩ := Graph.connect_eq_ok_iff.mp h
      exact .connect hends
    | disconnect id =>
      obtain ⟨e, h⟩ := exists_of_map_fst_eq_ok h
      obtain ⟨he, rfl⟩ := Graph.disconnect_eq_ok_iff.mp h
      exact .disconnect he
    | removeNode id =>
      obtain ⟨n, h⟩ := exists_of_map_fst_eq_ok h
      obtain ⟨hn, rfl⟩ := Graph.removeNode_eq_ok_iff.mp h
      exact .removeNode hn
    | updateNode id patch =>
      obtain ⟨n, h⟩ := exists_of_map_fst_eq_ok h
      obtain ⟨m, hm, -, rfl⟩ := Graph.updateNode_eq_ok_iff.mp h
      exact .updateNode patch hm
  · intro h
    cases h with
    | addNode fresh type => rfl
    | insertNode hid hports hn => exact Graph.insertNode_eq_ok_iff.mpr ⟨hid, hports, hn, rfl⟩
    | insertEdge hid hends => exact Graph.insertEdge_eq_ok_iff.mpr ⟨hid, hends, rfl⟩
    | connect hends =>
      exact congrArg (Except.map Prod.fst) (Graph.connect_eq_ok_iff.mpr ⟨_, _, hends, rfl, rfl⟩)
    | disconnect he =>
      exact congrArg (Except.map Prod.fst) (Graph.disconnect_eq_ok_iff.mpr ⟨he, rfl⟩)
    | removeNode hn =>
      exact congrArg (Except.map Prod.fst) (Graph.removeNode_eq_ok_iff.mpr ⟨hn, rfl⟩)
    | updateNode patch hn =>
      exact congrArg (Except.map Prod.fst) (Graph.updateNode_eq_ok_iff.mpr ⟨_, hn, rfl, rfl⟩)

/-- A change that keeps a part of every node keeps the list of these parts. -/
theorem Graph.map_mapNode {β : Type} {f : Node → Node} {part : Node → β}
    (h : ∀ n, part (f n) = part n) (id : NodeId) (nodes : List Node) :
    (mapNode id f nodes).map part = nodes.map part := by
  induction nodes with
  | nil => rfl
  | cons n rest ih =>
    rw [mapNode]
    split
    · simp [h]
    · simp [ih]

/-- What a change keeps of a node, changing one node keeps of all. -/
theorem Graph.forall_mem_mapNode {P : Node → Prop} {f : Node → Node} {nodes : List Node}
    (h : ∀ n ∈ nodes, P n) (hf : ∀ n, P n → P (f n)) (id : NodeId) :
    ∀ n ∈ mapNode id f nodes, P n := by
  induction nodes with
  | nil => exact h
  | cons n rest ih =>
    obtain ⟨hn, hrest⟩ := List.forall_mem_cons.mp h
    rw [mapNode]
    split
    · exact List.forall_mem_cons.mpr ⟨hf n hn, hrest⟩
    · exact List.forall_mem_cons.mpr ⟨hn, ih hrest⟩

end Workflow
