import Workflow.Server.Run
import Workflow.Snapshot.Basic

/-!
# Stored definitions

The server keeps a definition together with the snapshot that it was compiled from,
so that it can be opened again in the editor, and lists the runs started from it.
-/

namespace Workflow

open Json (Raw Record)

/-- What the server keeps for the editor. -/
structure EditorState where
  /-- The snapshot, if one was saved. -/
  snapshot : Option UiSnapshot
  deriving DecidableEq, Repr

namespace EditorState

/-- The key under which the editor keeps its snapshot. -/
def key : String := "react"

/-- Nothing is kept. -/
def empty : EditorState := ⟨none⟩

/-- Reads what is kept for the editor. -/
def read? (part : Raw) : Option EditorState := do
  let r ← Record.read? [key] part
  return ⟨← r.optional key UiSnapshot.read?⟩

/-- Writes what is kept for the editor. -/
def toJson (s : EditorState) : Json :=
  .object (Json.entryIfSome key (s.snapshot.map UiSnapshot.toJson))

end EditorState

/-- A definition as the server keeps it. -/
structure StoredDefinition where
  /-- Identifies the definition. -/
  id : String
  /-- The name of the workflow. -/
  name : String
  /-- What the workflow is for. -/
  description : String
  /-- Values that all tasks share. -/
  globals : Json.Entries
  /-- Whether new runs are accepted. -/
  status : WorkflowStatus
  /-- The tasks in order. -/
  tasks : List CompiledTask
  /-- When the definition was created. -/
  createdAt : Timestamp
  /-- When the definition last changed. -/
  updatedAt : Timestamp
  /-- What is kept for the editor. -/
  editor : EditorState
  /-- The runs started from the definition. -/
  runs : List RunSummary
  deriving DecidableEq, Repr

namespace StoredDefinition

/-- The keys of a stored definition. -/
def names : List String :=
  ["_id", "name", "description", "global", "status", "tasks", "createdAt", "updatedAt", "uiObject",
    "runtimes"]

/-- Reads a stored definition. -/
def read? (part : Raw) : Option StoredDefinition := do
  let r ← Record.read? names part
  return {
    id := ← r.required "_id" Raw.text?
    name := ← r.required "name" Raw.text?
    description := ← r.withDefault "description" "" Raw.text?
    globals := ← r.withDefault "global" [] Raw.object?
    status := ← r.required "status" WorkflowStatus.read?
    tasks := ← r.withDefault "tasks" [] (Raw.listOf? CompiledTask.read?)
    createdAt := ← r.required "createdAt" Timestamp.read?
    updatedAt := ← r.required "updatedAt" Timestamp.read?
    editor := ← r.withDefault "uiObject" .empty EditorState.read?
    runs := ← r.withDefault "runtimes" [] (Raw.listOf? RunSummary.read?) }

/-- Writes a stored definition. -/
def toJson (d : StoredDefinition) : Json :=
  .object [("_id", .string d.id), ("name", .string d.name),
    ("description", .string d.description), ("global", .object d.globals),
    ("status", d.status.toJson), ("tasks", .array (d.tasks.map CompiledTask.toJson)),
    ("createdAt", d.createdAt.toJson), ("updatedAt", d.updatedAt.toJson),
    ("uiObject", d.editor.toJson), ("runtimes", .array (d.runs.map RunSummary.toJson))]

/-- The snapshot to open the definition with, if one was saved. -/
def snapshot (d : StoredDefinition) : Option UiSnapshot := d.editor.snapshot

/-- The metadata of the definition. -/
def metadata (d : StoredDefinition) : Metadata := ⟨d.name, d.description, d.status, d.globals⟩

end StoredDefinition

/-- A definition as it is listed. -/
structure DefinitionSummary where
  /-- Identifies the definition. -/
  id : String
  /-- The name of the workflow. -/
  name : String
  /-- What the workflow is for. -/
  description : String
  /-- Whether new runs are accepted. -/
  status : WorkflowStatus
  /-- When the definition was created. -/
  createdAt : Timestamp
  /-- When the definition last changed. -/
  updatedAt : Timestamp
  deriving DecidableEq, Repr

namespace DefinitionSummary

/-- Reads the summary of a definition. -/
def read? (part : Raw) : Option DefinitionSummary := do
  let r ← Record.read? ["_id", "name", "description", "status", "createdAt", "updatedAt"] part
  return {
    id := ← r.required "_id" Raw.text?
    name := ← r.required "name" Raw.text?
    description := ← r.withDefault "description" "" Raw.text?
    status := ← r.required "status" WorkflowStatus.read?
    createdAt := ← r.required "createdAt" Timestamp.read?
    updatedAt := ← r.required "updatedAt" Timestamp.read? }

/-- Writes the summary of a definition. -/
def toJson (s : DefinitionSummary) : Json :=
  .object [("_id", .string s.id), ("name", .string s.name),
    ("description", .string s.description), ("status", s.status.toJson),
    ("createdAt", s.createdAt.toJson), ("updatedAt", s.updatedAt.toJson)]

end DefinitionSummary

end Workflow
