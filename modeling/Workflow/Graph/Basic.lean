import Workflow.Graph.Edge

/-!
# Graphs

A graph holds the nodes of a draft, the edges between them, and a table of the ports
that its nodes carry. Its operations keep edges at existing ports of the right side
and let at most one edge lead to an input port; an operation that would break this
fails and changes nothing. Whether a graph makes sense as a workflow is not decided
here, so half-finished drafts can be kept.
-/

namespace Workflow

/-- The side of a node on which a port is. -/
inductive PortSide where
  /-- The side that an edge leads to. -/
  | input
  /-- The side that edges lead from. -/
  | output
  deriving DecidableEq, Repr

/-- The word for a side. -/
def PortSide.name : PortSide → String
  | .input => "input"
  | .output => "output"

/-- The node that carries a port, and the side on which it does. -/
structure PortBinding where
  /-- The node that carries the port. -/
  node : NodeId
  /-- The side of the port. -/
  side : PortSide
  deriving DecidableEq, Repr

/-- The ports of a graph with their bindings; a port is listed once. -/
abbrev PortTable := List (PortId × PortBinding)

namespace PortTable

/-- The binding of a port. -/
def get? (t : PortTable) (port : PortId) : Option PortBinding := t.lookup port

/-- The table without a port. -/
def erase (t : PortTable) (port : PortId) : PortTable := t.filter fun e => e.1 != port

/-- The table with a port bound anew. -/
def bind (t : PortTable) (port : PortId) (binding : PortBinding) : PortTable :=
  t.erase port ++ [(port, binding)]

/-- The table with the ports of a node, the input first. -/
def bindNode (t : PortTable) (n : Node) : PortTable :=
  let withInput := n.input.elim t fun port => t.bind port ⟨n.id, .input⟩
  n.output.elim withInput fun port => withInput.bind port ⟨n.id, .output⟩

/-- The table without the ports of a node. -/
def unbindNode (t : PortTable) (n : Node) : PortTable := n.ports.foldl erase t

end PortTable

/-- Why an operation on a graph fails. -/
inductive GraphError where
  | unknownNode (id : NodeId)
  | unknownPort (id : PortId)
  | wrongPortSide (port : PortId) (expected actual : PortSide)
  | portAlreadyBound (port : PortId) (existing : EdgeId)
  | unknownEdge (id : EdgeId)
  | duplicatePort (id : PortId)
  | duplicateEdge (id : EdgeId)
  | duplicateNode (id : NodeId)
  deriving DecidableEq, Repr

/-- The sentence that reports a failed operation. -/
def GraphError.message : GraphError → String
  | .unknownNode id => s!"Node '{id.text}' does not exist in this graph"
  | .unknownPort id => s!"Port '{id.text}' is not bound to any node in this graph"
  | .wrongPortSide port expected actual =>
    s!"Port '{port.text}' is an {actual.name} port, but an {expected.name} port is required"
  | .portAlreadyBound port existing =>
    s!"Input port '{port.text}' is already the target of edge '{existing.text}'"
  | .unknownEdge id => s!"Edge '{id.text}' does not exist in this graph"
  | .duplicatePort id => s!"Port '{id.text}' is declared by more than one node"
  | .duplicateEdge id => s!"Edge id '{id.text}' is used by more than one edge"
  | .duplicateNode id => s!"Node id '{id.text}' is used by more than one node"

/-- The nodes and edges of a draft. -/
structure Graph where
  /-- The nodes in the order of their insertion. -/
  nodes : List Node
  /-- The edges in the order of their insertion. -/
  edges : List Edge
  /-- The ports of the nodes. -/
  ports : PortTable
  deriving DecidableEq, Repr

namespace Graph

/-- The graph without nodes. -/
def empty : Graph := ⟨[], [], []⟩

variable (g : Graph)

/-- The node with an id. -/
def node? (id : NodeId) : Option Node := g.nodes.find? (·.id == id)

/-- The edge with an id. -/
def edge? (id : EdgeId) : Option Edge := g.edges.find? (·.id == id)

/-- The binding of a port. -/
def port? (id : PortId) : Option PortBinding := g.ports.get? id

/-- The edge that leads to an input port. -/
def edgeInto? (port : PortId) : Option Edge := g.edges.find? (·.targetPort == port)

/-- The edges that lead from an output port. -/
def edgesFrom (port : PortId) : List Edge := g.edges.filter (·.sourcePort == port)

/-- The graph with a node at the end. -/
def push (n : Node) : Graph := { g with nodes := g.nodes ++ [n], ports := g.ports.bindNode n }

/-- Adds a new node, whose ids are not in use. -/
def addNode (fresh : FreshIds) (type : TaskType) : Graph × Node :=
  let n := Node.create fresh type
  (g.push n, n)

/-- The first port of a node that is already in the graph, or the port that the node
carries on both sides. -/
def takenPort? (n : Node) : Option PortId :=
  (n.ports.find? fun port => (g.port? port).isSome) <|>
    n.input.filter fun port => n.output == some port

/-- Inserts a node whose id and ports are not in the graph. -/
def insertNode (n : Node) : Except GraphError Graph :=
  if (g.node? n.id).isSome then .error (.duplicateNode n.id)
  else
    match g.takenPort? n with
    | some port => .error (.duplicatePort port)
    | none => .ok (g.push n)

/-- Removes a node and the edges at it. -/
def removeNode (id : NodeId) : Except GraphError (Graph × Node) :=
  match g.node? id with
  | none => .error (.unknownNode id)
  | some n =>
    .ok (⟨g.nodes.eraseP (·.id == id), g.edges.filter (!·.touches id), g.ports.unbindNode n⟩, n)

/-- The node that carries a port on the required side. -/
def ownerOn (port : PortId) (side : PortSide) : Except GraphError NodeId :=
  match g.port? port with
  | none => .error (.unknownPort port)
  | some binding =>
    if binding.side = side then .ok binding.node
    else .error (.wrongPortSide port side binding.side)

/-- The nodes that an edge between two ports would connect. The first port has to be an
output, the second an input to which no edge leads. -/
def connectable (sourcePort targetPort : PortId) : Except GraphError (NodeId × NodeId) := do
  let source ← g.ownerOn sourcePort .output
  let target ← g.ownerOn targetPort .input
  match g.edgeInto? targetPort with
  | some existing => throw (.portAlreadyBound targetPort existing.id)
  | none => return (source, target)

/-- The graph with an edge at the end. -/
def pushEdge (e : Edge) : Graph := { g with edges := g.edges ++ [e] }

/-- Connects an output port to an input port by a new edge. -/
def connect (sourcePort targetPort : PortId) : Except GraphError (Graph × Edge) := do
  let (source, target) ← g.connectable sourcePort targetPort
  let e : Edge :=
    ⟨Edge.editorId source sourcePort target targetPort, source, sourcePort, target, targetPort, []⟩
  return (g.pushEdge e, e)

/-- Inserts an edge whose id is not in the graph and whose nodes carry its ports. -/
def insertEdge (e : Edge) : Except GraphError Graph := do
  if (g.edge? e.id).isSome then throw (.duplicateEdge e.id)
  let (source, target) ← g.connectable e.sourcePort e.targetPort
  if source ≠ e.source then throw (.unknownPort e.sourcePort)
  if target ≠ e.target then throw (.unknownPort e.targetPort)
  return g.pushEdge e

/-- Removes an edge. -/
def disconnect (id : EdgeId) : Except GraphError (Graph × Edge) :=
  match g.edge? id with
  | none => .error (.unknownEdge id)
  | some e => .ok ({ g with edges := g.edges.eraseP (·.id == id) }, e)

/-- Changes the first node that has an id. -/
def mapNode (id : NodeId) (f : Node → Node) : List Node → List Node
  | [] => []
  | n :: rest => if n.id = id then f n :: rest else n :: mapNode id f rest

/-- Changes the data of a node. -/
def updateNode (id : NodeId) (patch : Patch) : Except GraphError (Graph × Node) :=
  match g.node? id with
  | none => .error (.unknownNode id)
  | some n => .ok ({ g with nodes := mapNode id patch.apply g.nodes }, patch.apply n)

end Graph

end Workflow
