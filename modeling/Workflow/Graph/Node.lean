import Workflow.Task.Defaults

/-!
# Nodes

A node is a task in a graph. Its id, its type and its ports never change; its label,
params, scripts and position are edited by patches. A patch says what it changes and
leaves everything else alone.
-/

namespace Workflow

/-- Identifies a node for its whole life. -/
structure NodeId where
  /-- The id as a text. -/
  text : String
  deriving DecidableEq, Repr

/-- Identifies a port, the end of an edge at a node. -/
structure PortId where
  /-- The id as a text. -/
  text : String
  deriving DecidableEq, Repr

/-- Identifies an edge. -/
structure EdgeId where
  /-- The id as a text. -/
  text : String
  deriving DecidableEq, Repr

/-- A place on the canvas of the editor. -/
structure Position where
  /-- The distance to the right. -/
  x : Double
  /-- The distance downwards. -/
  y : Double
  deriving DecidableEq, Repr

namespace Position

/-- One hundred as a double. -/
def hundred : Double := (Double.ofNat 100).getD (.zero false)

/-- Where a node stands unless something else is said. -/
def initial : Position := ⟨hundred, hundred⟩

/-- A place as a record of its coordinates. -/
def toJson (p : Position) : Json :=
  .object [("x", .number (.double p.x)), ("y", .number (.double p.y))]

/-- Reads a record of coordinates. -/
def read? (part : Json.Raw) : Option Position := do
  let r ← Json.Record.read? ["x", "y"] part
  return ⟨← r.required "x" Json.Raw.double?, ← r.required "y" Json.Raw.double?⟩

end Position

/-- A task in a graph. -/
structure Node where
  /-- Identifies the node. -/
  id : NodeId
  /-- The type of the task. -/
  type : TaskType
  /-- The port that an edge may lead to. -/
  input : Option PortId
  /-- The port that edges may lead from. -/
  output : Option PortId
  /-- The name of the task. -/
  label : String
  /-- The parameters of the task. -/
  params : Json.Entries
  /-- The script that is executed. -/
  exec : Option String
  /-- The source of the script, written with types. -/
  execTs : Option String
  /-- Where the editor shows the node. -/
  position : Position
  /-- What the editor keeps about the node. -/
  uiExtra : Json.Entries
  /-- What the editor keeps about the data of the node. -/
  dataExtra : Json.Entries
  deriving DecidableEq, Repr

namespace Node

/-- A node with a given identity and no data. A port on a side that the type does not
have is dropped. -/
def restore (id : NodeId) (type : TaskType) (input output : Option PortId) : Node where
  id := id
  type := type
  input := if type.hasInput then input else none
  output := if type.hasOutput then output else none
  label := ""
  params := []
  exec := none
  execTs := none
  position := .initial
  uiExtra := []
  dataExtra := []

/-- A new node with what its type starts with. -/
def create (fresh : FreshIds) (type : TaskType) : Node :=
  { restore ⟨fresh.node⟩ type (some ⟨fresh.input⟩) (some ⟨fresh.output⟩) with
    label := type.defaultLabel fresh.label
    params := type.defaultParams fresh.key
    exec := type.defaultExec
    execTs := type.defaultExecTs }

/-- The ports of a node, the input first. -/
def ports (n : Node) : List PortId := n.input.toList ++ n.output.toList

end Node

/-- Changes to the data of a node. What is not mentioned stays. -/
structure Patch where
  /-- The new label. -/
  label : Option String
  /-- Values put under keys of the params. -/
  params : Json.Entries
  /-- Keys removed from the params, before values are put. -/
  removeParams : List String
  /-- The new script. -/
  exec : Option String
  /-- The new source of the script. -/
  execTs : Option String
  /-- The new place. -/
  position : Option Position
  deriving DecidableEq, Repr

namespace Patch

/-- The patch that changes nothing. -/
def empty : Patch := ⟨none, [], [], none, none, none⟩

/-- The fields that a patch may change, as they are named in violations. -/
def touchedFields (p : Patch) : List String :=
  (if p.label.isSome then ["label"] else []) ++
    (if !p.params.isEmpty || !p.removeParams.isEmpty then ["params"] else []) ++
    (if p.exec.isSome then ["exec"] else []) ++
    (if p.execTs.isSome then ["execTs"] else [])

/-- The node with the changes of the patch. -/
def apply (p : Patch) (n : Node) : Node :=
  { n with
    label := p.label.getD n.label
    params := (n.params.removeAll p.removeParams).insertAll p.params
    exec := p.exec <|> n.exec
    execTs := p.execTs <|> n.execTs
    position := p.position.getD n.position }

end Patch

end Workflow
