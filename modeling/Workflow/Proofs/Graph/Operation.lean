import Workflow.Graph.Basic

/-!
# Runs of operations on a graph

The seven operations on a graph are collected in one type, so that a draft is what
some sequence of them leaves of the empty graph. An operation that fails leaves the
graph as it was. Only the ids of a new node are generated, and a generator never
repeats an id that is in use.
-/

namespace Workflow

/-- An operation on a graph with all that it is called with. -/
inductive Graph.Operation where
  | addNode (fresh : FreshIds) (type : TaskType)
  | insertNode (n : Node)
  | insertEdge (e : Edge)
  | connect (sourcePort targetPort : PortId)
  | disconnect (id : EdgeId)
  | removeNode (id : NodeId)
  | updateNode (id : NodeId) (patch : Patch)
  deriving DecidableEq, Repr

/-- The graph that a successful operation leaves, or why the operation fails. -/
def Graph.perform (g : Graph) : Graph.Operation → Except GraphError Graph
  | .addNode fresh type => .ok (g.addNode fresh type).1
  | .insertNode n => g.insertNode n
  | .insertEdge e => g.insertEdge e
  | .connect sourcePort targetPort => (g.connect sourcePort targetPort).map Prod.fst
  | .disconnect id => (g.disconnect id).map Prod.fst
  | .removeNode id => (g.removeNode id).map Prod.fst
  | .updateNode id patch => (g.updateNode id patch).map Prod.fst

/-- The graph after an operation, which is the same graph when the operation fails. -/
def Graph.after (g : Graph) (op : Graph.Operation) : Graph :=
  match g.perform op with
  | .ok next => next
  | .error _ => g

/-- The ids generated for a node of a type are not in use and differ from each other. -/
structure FreshIds.Unused (fresh : FreshIds) (type : TaskType) (g : Graph) : Prop where
  /-- No node has the id. -/
  node : ∀ n ∈ g.nodes, n.id ≠ ⟨fresh.node⟩
  /-- No node carries one of the ports. -/
  port : ∀ n ∈ g.nodes, ∀ p ∈ n.ports, p ∉ (Node.create fresh type).ports
  /-- The two ports differ. -/
  distinct : (Node.create fresh type).ports.Nodup

/-- What a caller promises of an operation: the ids it brings from a generator are unused. -/
def Graph.Operation.Promised (g : Graph) : Graph.Operation → Prop
  | .addNode fresh type => fresh.Unused type g
  | _ => True

/-- The graphs that runs of operations lead to from the empty graph. -/
inductive Graph.Reachable : Graph → Prop where
  | empty : Graph.Reachable .empty
  | step {g : Graph} (op : Graph.Operation) :
      Graph.Reachable g → op.Promised g → Graph.Reachable (g.after op)

/-- What holds before every operation and is kept when it succeeds holds after it. -/
theorem Graph.after_of_perform {P : Graph → Prop} {g : Graph} {op : Graph.Operation} (hg : P g)
    (h : ∀ next, g.perform op = .ok next → P next) : P (g.after op) := by
  unfold Graph.after
  split
  · rename_i next hnext
    exact h next hnext
  · exact hg

end Workflow
