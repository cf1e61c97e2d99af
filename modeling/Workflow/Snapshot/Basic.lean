import Workflow.Graph.Basic
import Workflow.Json.Reader
import Workflow.Json.Writer

/-!
# Snapshots of the editor

The editor saves a draft as two lists of records, one for the nodes and one for the
edges. Keys that mean nothing here are kept on their own level, so that the editor
finds everything again that it wrote.
-/

namespace Workflow

/-- The data of a node as the editor saves them. -/
structure UiNodeData where
  /-- The name of the task. -/
  label : String
  /-- The id of the input port. -/
  inputBoundId : Option String
  /-- The id of the output port. -/
  outputBoundId : Option String
  /-- The parameters of the task. -/
  params : Json.Entries
  /-- The script. -/
  exec : Option String
  /-- The source of the script. -/
  execTs : Option String
  /-- All other keys. -/
  extra : Json.Entries
  deriving DecidableEq, Repr

/-- A node as the editor saves it. -/
structure UiNode where
  /-- The id of the node. -/
  id : String
  /-- The name of the type of the task. -/
  type : String
  /-- Where the node stands. -/
  position : Position
  /-- The data of the node. -/
  data : UiNodeData
  /-- All other keys. -/
  extra : Json.Entries
  deriving DecidableEq, Repr

/-- An edge as the editor saves it. -/
structure UiEdge where
  /-- The id of the edge, if it has one. -/
  id : Option String
  /-- The id of the node it leads from. -/
  source : String
  /-- The id of the port it leads from. -/
  sourceHandle : String
  /-- The id of the node it leads to. -/
  target : String
  /-- The id of the port it leads to. -/
  targetHandle : String
  /-- All other keys. -/
  extra : Json.Entries
  deriving DecidableEq, Repr

/-- A draft as the editor saves it. -/
structure UiSnapshot where
  /-- The nodes in order. -/
  nodes : List UiNode
  /-- The edges in order. -/
  edges : List UiEdge
  deriving DecidableEq, Repr

open Json (Raw Record)

namespace UiNodeData

/-- The keys that have a meaning. -/
def names : List String := ["label", "inputBoundId", "outputBoundId", "params", "exec", "execTs"]

/-- Reads the data of a node. -/
def read? (part : Raw) : Option UiNodeData := do
  let r ← Record.ofObject? names part
  return {
    label := ← r.withDefault "label" "" Raw.text?
    inputBoundId := ← r.optional "inputBoundId" Raw.text?
    outputBoundId := ← r.optional "outputBoundId" Raw.text?
    params := ← r.withDefault "params" [] Raw.object?
    exec := ← r.optional "exec" Raw.text?
    execTs := ← r.optional "execTs" Raw.text?
    extra := ← r.rest }

/-- Writes the data of a node. -/
def toJson (d : UiNodeData) : Json :=
  .object <|
    [("label", .string d.label)] ++
    Json.entryIfSome "inputBoundId" (d.inputBoundId.map .string) ++
    Json.entryIfSome "outputBoundId" (d.outputBoundId.map .string) ++
    [("params", .object d.params)] ++
    Json.entryIfSome "exec" (d.exec.map .string) ++
    Json.entryIfSome "execTs" (d.execTs.map .string) ++
    d.extra

end UiNodeData

namespace UiNode

/-- The keys that have a meaning. -/
def names : List String := ["id", "type", "position", "data"]

/-- Reads a node. -/
def read? (part : Raw) : Option UiNode := do
  let r ← Record.ofObject? names part
  return {
    id := ← r.required "id" Raw.text?
    type := ← r.required "type" Raw.text?
    position := ← r.withDefault "position" .initial Position.read?
    data := ← r.required "data" UiNodeData.read?
    extra := ← r.rest }

/-- Writes a node. -/
def toJson (n : UiNode) : Json :=
  .object <|
    [("id", .string n.id), ("type", .string n.type), ("position", n.position.toJson),
      ("data", n.data.toJson)] ++
    n.extra

end UiNode

namespace UiEdge

/-- The keys that have a meaning. -/
def names : List String := ["id", "source", "sourceHandle", "target", "targetHandle"]

/-- Reads an edge. -/
def read? (part : Raw) : Option UiEdge := do
  let r ← Record.ofObject? names part
  return {
    id := ← r.optional "id" Raw.text?
    source := ← r.required "source" Raw.text?
    sourceHandle := ← r.required "sourceHandle" Raw.text?
    target := ← r.required "target" Raw.text?
    targetHandle := ← r.required "targetHandle" Raw.text?
    extra := ← r.rest }

/-- Writes an edge. -/
def toJson (e : UiEdge) : Json :=
  .object <|
    Json.entryIfSome "id" (e.id.map .string) ++
    [("source", .string e.source), ("sourceHandle", .string e.sourceHandle),
      ("target", .string e.target), ("targetHandle", .string e.targetHandle)] ++
    e.extra

end UiEdge

namespace UiSnapshot

/-- Reads a draft. -/
def read? (part : Raw) : Option UiSnapshot := do
  let r ← Record.read? ["nodes", "edges"] part
  return {
    nodes := ← r.withDefault "nodes" [] (Raw.listOf? UiNode.read?)
    edges := ← r.withDefault "edges" [] (Raw.listOf? UiEdge.read?) }

/-- Writes a draft. -/
def toJson (s : UiSnapshot) : Json :=
  .object [("nodes", .array (s.nodes.map UiNode.toJson)),
    ("edges", .array (s.edges.map UiEdge.toJson))]

/-- The text of a draft. -/
def write (s : UiSnapshot) : String := s.toJson.compact

end UiSnapshot

end Workflow
