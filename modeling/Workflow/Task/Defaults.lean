import Workflow.Task.Type

/-!
# What a new task starts with

A new task has a generated label and the params and scripts that its type starts
with. What is generated, labels and api keys, is handed in by the caller.
-/

namespace Workflow

/-- The texts generated for a new task. -/
structure FreshIds where
  /-- The id of the node. -/
  node : String
  /-- The id of its input port. -/
  input : String
  /-- The id of its output port. -/
  output : String
  /-- What follows the type in its label. -/
  label : String
  /-- An api key. -/
  key : String
  deriving DecidableEq, Repr

namespace TaskType

/-- The comment and the body around the heading of a script. -/
def scriptLines (purpose heading body : String) : String :=
  String.join (["/**", " * " ++ purpose, " */", heading ++ " \x7b", "  " ++ body, "\x7d"].map
    (· ++ "\n"))

/-- The label of a new task. -/
def defaultLabel (t : TaskType) (fresh : String) : String := t.labelPrefix ++ " " ++ fresh

/-- The params of a new task. -/
def defaultParams (t : TaskType) (key : String) : Json.Entries :=
  match t with
  | .wait => [("taskNames", .array [])]
  | .listen => [("apiKey", .string key)]
  | _ => []

/-- The script of a new task. -/
def defaultExec : TaskType → Option String
  | .function =>
    some (scriptLines "Return any JSON-serializable value; it becomes this task's result."
      "async function handler()" "return \x7b \"hello\": \"world\" \x7d;")
  | .guard =>
    some (scriptLines "Resolve to `true` to let the workflow continue past this guard."
      "async function handler()" "return true;")
  | _ => none

/-- The source of the script of a new task. -/
def defaultExecTs : TaskType → Option String
  | .function =>
    some (scriptLines "Return any JSON-serializable value; it becomes this task's result."
      "async function handler(): Promise<Record<string, any>>"
      "return \x7b \"hello\": \"world\" \x7d;")
  | .guard =>
    some (scriptLines "Resolve to `true` to let the workflow continue past this guard."
      "async function handler(): Promise<boolean>" "return true;")
  | _ => none

end TaskType

end Workflow
