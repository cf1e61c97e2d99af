import Workflow.Graph.Basic

/-!
# Workflow definitions

A definition is what is executed: named tasks that refer to each other by name,
under a name, a description, a status and a global map. The same heading without
tasks is the metadata that a draft is compiled with.
-/

namespace Workflow

/-- Whether new runs of a workflow are accepted. -/
inductive WorkflowStatus where
  | active
  | inactive
  deriving DecidableEq, Repr

namespace WorkflowStatus

/-- The word for a status. -/
def name : WorkflowStatus → String
  | .active => "active"
  | .inactive => "inactive"

/-- Reads a status. -/
def read? (part : Json.Raw) : Option WorkflowStatus :=
  part.variant?.bind fun s => [active, inactive].find? (·.name == s)

/-- Writes a status. -/
def toJson (s : WorkflowStatus) : Json := .string s.name

end WorkflowStatus

open Json (Raw Record)

/-- What is said about a workflow beside its tasks. -/
structure Metadata where
  /-- The name of the workflow. -/
  name : String
  /-- What the workflow is for. -/
  description : String
  /-- Whether new runs are accepted. -/
  status : WorkflowStatus
  /-- Values that all tasks share. -/
  globals : Json.Entries
  deriving DecidableEq, Repr

namespace Metadata

/-- The metadata of an active workflow without shared values. -/
def named (name description : String) : Metadata := ⟨name, description, .active, []⟩

/-- Reads metadata. -/
def read? (part : Raw) : Option Metadata := do
  let r ← Record.read? ["name", "description", "status", "global"] part
  return {
    name := ← r.required "name" Raw.text?
    description := ← r.required "description" Raw.text?
    status := ← r.withDefault "status" .active WorkflowStatus.read?
    globals := ← r.withDefault "global" [] Raw.object? }

/-- Writes metadata. -/
def toJson (m : Metadata) : Json :=
  .object [("name", .string m.name), ("description", .string m.description),
    ("status", m.status.toJson), ("global", .object m.globals)]

/-- What keeps a workflow with this metadata from being compiled. -/
def problems (m : Metadata) : List String :=
  (if Text.isBlankText m.name then ["Name is required"] else []) ++
    (if Text.isBlankText m.description then ["Description is required"] else []) ++
    (if m.globals.keys.any Text.isBlankText then ["Global keys must not be empty"] else [])

end Metadata

/-- A task that is addressed by its name. -/
structure CompiledTask where
  /-- The node that the task is compiled from. -/
  id : NodeId
  /-- The name of the task. -/
  name : String
  /-- The type of the task. -/
  type : TaskType
  /-- The parameters of the task. -/
  params : Json.Entries
  /-- The names of the tasks that follow. -/
  next : List String
  /-- The names of the tasks that come before. -/
  previous : List String
  /-- The script. -/
  exec : Option String
  /-- The source of the script. -/
  execTs : Option String
  deriving DecidableEq, Repr

/-- A list of texts. -/
def Json.ofTexts (texts : List String) : Json := .array (texts.map .string)

namespace CompiledTask

/-- Reads a task. -/
def read? (part : Raw) : Option CompiledTask := do
  let r ← Record.read? ["id", "name", "type", "params", "next", "previous", "exec", "execTs"] part
  return {
    id := ⟨← r.required "id" Raw.text?⟩
    name := ← r.required "name" Raw.text?
    type := ← r.required "type" TaskType.read?
    params := ← r.withDefault "params" [] Raw.object?
    next := ← r.withDefault "next" [] (Raw.listOf? Raw.text?)
    previous := ← r.withDefault "previous" [] (Raw.listOf? Raw.text?)
    exec := ← r.optional "exec" Raw.text?
    execTs := ← r.optional "execTs" Raw.text? }

/-- Writes a task. -/
def toJson (t : CompiledTask) : Json :=
  .object <|
    [("id", .string t.id.text), ("name", .string t.name), ("type", t.type.toJson),
      ("params", .object t.params), ("next", Json.ofTexts t.next),
      ("previous", Json.ofTexts t.previous)] ++
    Json.entryIfSome "exec" (t.exec.map .string) ++
    Json.entryIfSome "execTs" (t.execTs.map .string)

end CompiledTask

/-- What is executed. -/
structure Definition where
  /-- The name of the workflow. -/
  name : String
  /-- What the workflow is for. -/
  description : String
  /-- Whether new runs are accepted. -/
  status : WorkflowStatus
  /-- Values that all tasks share. -/
  globals : Json.Entries
  /-- The tasks in order. -/
  tasks : List CompiledTask
  deriving DecidableEq, Repr

namespace Definition

/-- Reads a definition. -/
def read? (part : Raw) : Option Definition := do
  let r ← Record.read? ["name", "description", "status", "global", "tasks"] part
  return {
    name := ← r.required "name" Raw.text?
    description := ← r.required "description" Raw.text?
    status := ← r.required "status" WorkflowStatus.read?
    globals := ← r.withDefault "global" [] Raw.object?
    tasks := ← r.required "tasks" (Raw.listOf? CompiledTask.read?) }

/-- Writes a definition. -/
def toJson (d : Definition) : Json :=
  .object [("name", .string d.name), ("description", .string d.description),
    ("status", d.status.toJson), ("global", .object d.globals),
    ("tasks", .array (d.tasks.map CompiledTask.toJson))]

/-- The first task with a name. -/
def task? (d : Definition) (name : String) : Option CompiledTask :=
  d.tasks.find? (·.name == name)

/-- The names that tasks refer to and that no task has, as often as they are referred to. -/
def danglingReferences (d : Definition) : List String :=
  (d.tasks.flatMap fun t => t.next ++ t.previous).filter fun name => (d.task? name).isNone

end Definition

end Workflow
