import Workflow.Definition.Basic
import Workflow.Server.Timestamp

/-!
# Runs

The server reports a run with its state, its tasks and its log. A state that is not
known here is read as `unknown`, so that a newer server does no harm.
-/

namespace Workflow

open Json (Raw Record)

namespace Timestamp

/-- Reads a timestamp. -/
def read? (part : Raw) : Option Timestamp := part.text?.bind ofText?

/-- Writes a timestamp. -/
def toJson (t : Timestamp) : Json := .string t.write

end Timestamp

/-- The state of a run, or of a task in it. -/
inductive RunStatus where
  | pending
  | completed
  | failed
  /-- A state that is not known here. -/
  | unknown
  deriving DecidableEq, Repr

namespace RunStatus

/-- The word for a state as it is exchanged. -/
def name : RunStatus → String
  | .pending => "pending"
  | .completed => "completed"
  | .failed => "failed"
  | .unknown => "unknown"

/-- The word for a state as it is shown. -/
def title : RunStatus → String
  | .pending => "Pending"
  | .completed => "Completed"
  | .failed => "Failed"
  | .unknown => "Unknown"

/-- Reads a state. -/
def read? (part : Raw) : Option RunStatus :=
  part.variant?.map fun s => ([pending, completed, failed].find? (·.name == s)).getD unknown

/-- Writes a state. -/
def toJson (s : RunStatus) : Json := .string s.name

end RunStatus

/-- A run as it is listed with its definition. -/
structure RunSummary where
  /-- Identifies the run. -/
  id : String
  /-- The state of the run. -/
  status : RunStatus
  /-- When the run was started. -/
  createdAt : Timestamp
  /-- When the run last changed. -/
  updatedAt : Timestamp
  deriving DecidableEq, Repr

namespace RunSummary

/-- Reads the summary of a run. -/
def read? (part : Raw) : Option RunSummary := do
  let r ← Record.read? ["_id", "workflowStatus", "createdAt", "updatedAt"] part
  return {
    id := ← r.required "_id" Raw.text?
    status := ← r.required "workflowStatus" RunStatus.read?
    createdAt := ← r.required "createdAt" Timestamp.read?
    updatedAt := ← r.required "updatedAt" Timestamp.read? }

/-- Writes the summary of a run. -/
def toJson (s : RunSummary) : Json :=
  .object [("_id", .string s.id), ("workflowStatus", s.status.toJson),
    ("createdAt", s.createdAt.toJson), ("updatedAt", s.updatedAt.toJson)]

end RunSummary

/-- The definition that a run was started from. -/
structure RunDefinition where
  /-- Identifies the definition. -/
  id : String
  /-- The name of the workflow. -/
  name : String
  /-- Whether new runs are accepted. -/
  status : WorkflowStatus
  deriving DecidableEq, Repr

namespace RunDefinition

/-- Reads the definition of a run. -/
def read? (part : Raw) : Option RunDefinition := do
  let r ← Record.read? ["_id", "name", "status"] part
  return {
    id := ← r.required "_id" Raw.text?
    name := ← r.required "name" Raw.text?
    status := ← r.required "status" WorkflowStatus.read? }

/-- Writes the definition of a run. -/
def toJson (d : RunDefinition) : Json :=
  .object [("_id", .string d.id), ("name", .string d.name), ("status", d.status.toJson)]

end RunDefinition

/-- A line that a task wrote to the log. -/
structure LogLine where
  /-- When the line was written. -/
  time : Timestamp
  /-- The name of the task. -/
  taskName : String
  /-- What was written. -/
  text : String
  deriving DecidableEq, Repr

namespace LogLine

/-- Reads a line. -/
def read? (part : Raw) : Option LogLine := do
  let r ← Record.read? ["datetime", "taskName", "log"] part
  return {
    time := ← r.required "datetime" Timestamp.read?
    taskName := ← r.required "taskName" Raw.text?
    text := ← r.required "log" Raw.text? }

/-- Writes a line. -/
def toJson (l : LogLine) : Json :=
  .object [("datetime", l.time.toJson), ("taskName", .string l.taskName),
    ("log", .string l.text)]

end LogLine

/-- A task of a run. -/
structure RunTask where
  /-- Identifies the task. -/
  id : String
  /-- The name of the task. -/
  name : String
  /-- The type of the task. -/
  type : TaskType
  /-- The names of the tasks that follow. -/
  next : List String
  /-- The names of the tasks that come before. -/
  previous : List String
  /-- The parameters of the task. -/
  params : Json.Entries
  /-- The script. -/
  exec : Option String
  /-- The state of the task. -/
  status : RunStatus
  deriving DecidableEq, Repr

namespace RunTask

/-- Reads a task. -/
def read? (part : Raw) : Option RunTask := do
  let r ← Record.read? ["id", "name", "type", "next", "previous", "params", "exec", "status"] part
  return {
    id := ← r.required "id" Raw.text?
    name := ← r.required "name" Raw.text?
    type := ← r.required "type" TaskType.read?
    next := ← r.withDefault "next" [] (Raw.listOf? Raw.text?)
    previous := ← r.withDefault "previous" [] (Raw.listOf? Raw.text?)
    params := ← r.withDefault "params" [] Raw.object?
    exec := ← r.optional "exec" Raw.text?
    status := ← r.required "status" RunStatus.read? }

/-- Writes a task. -/
def toJson (t : RunTask) : Json :=
  .object <|
    [("id", .string t.id), ("name", .string t.name), ("type", t.type.toJson),
      ("next", Json.ofTexts t.next), ("previous", Json.ofTexts t.previous),
      ("params", .object t.params)] ++
    Json.entryIfSome "exec" (t.exec.map .string) ++
    [("status", t.status.toJson)]

end RunTask

/-- A run with its tasks and its log. -/
structure Run where
  /-- Identifies the run. -/
  id : String
  /-- When the run was started. -/
  createdAt : Timestamp
  /-- When the run last changed. -/
  updatedAt : Timestamp
  /-- The state of the run. -/
  status : RunStatus
  /-- The definition that it was started from. -/
  definition : RunDefinition
  /-- The log as raw text. -/
  logs : List String
  /-- The log, line by line. -/
  lines : List LogLine
  /-- The tasks in order. -/
  tasks : List RunTask
  deriving DecidableEq, Repr

namespace Run

/-- The keys of a run. -/
def names : List String :=
  ["_id", "createdAt", "updatedAt", "workflowStatus", "definition", "logs", "splittedLogs", "tasks"]

/-- Reads a run. -/
def read? (part : Raw) : Option Run := do
  let r ← Record.read? names part
  return {
    id := ← r.required "_id" Raw.text?
    createdAt := ← r.required "createdAt" Timestamp.read?
    updatedAt := ← r.required "updatedAt" Timestamp.read?
    status := ← r.required "workflowStatus" RunStatus.read?
    definition := ← r.required "definition" RunDefinition.read?
    logs := ← r.withDefault "logs" [] (Raw.listOf? Raw.text?)
    lines := ← r.withDefault "splittedLogs" [] (Raw.listOf? LogLine.read?)
    tasks := ← r.withDefault "tasks" [] (Raw.listOf? RunTask.read?) }

/-- Writes a run. -/
def toJson (r : Run) : Json :=
  .object [("_id", .string r.id), ("createdAt", r.createdAt.toJson),
    ("updatedAt", r.updatedAt.toJson), ("workflowStatus", r.status.toJson),
    ("definition", r.definition.toJson), ("logs", Json.ofTexts r.logs),
    ("splittedLogs", .array (r.lines.map LogLine.toJson)),
    ("tasks", .array (r.tasks.map RunTask.toJson))]

/-- The first task with a name. -/
def task? (r : Run) (name : String) : Option RunTask := r.tasks.find? (·.name == name)

/-- The lines that a task wrote, in order. -/
def linesOf (r : Run) (name : String) : List LogLine := r.lines.filter (·.taskName == name)

end Run

end Workflow
