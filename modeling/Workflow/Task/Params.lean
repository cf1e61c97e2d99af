import Workflow.Task.Type

/-!
# Params by task type

The params of a task are an open map. Only two types of task rely on a key: a task
that waits lists the labels of other tasks, and a task that listens has an api key.
-/

namespace Workflow

/-- What the params of a task say to its type. -/
inductive TaskParams where
  /-- The params of a type that relies on no key. -/
  | plain
  /-- The labels of the tasks to wait for. -/
  | wait (taskNames : List String)
  /-- The api key to listen for. -/
  | listen (apiKey : String)
  deriving DecidableEq, Repr

/-- Why params do not fit a type. -/
inductive ParamsIssue where
  /-- The task names are no list of texts. -/
  | taskNamesNotAList
  /-- The api key is missing, no text, or blank. -/
  | apiKeyMissing
  deriving DecidableEq, Repr

/-- The field that an issue is reported for. -/
def ParamsIssue.field : ParamsIssue → String
  | .taskNamesNotAList => "params.taskNames"
  | .apiKeyMissing => "params.apiKey"

/-- The sentence that reports an issue. -/
def ParamsIssue.message : ParamsIssue → String
  | .taskNamesNotAList => "Task names must be a list of task labels"
  | .apiKeyMissing => "API Key is required"

/-- The task names of a task that waits. A missing list waits on nothing. -/
def TaskParams.taskNames? (params : Json.Entries) : Option (List String) :=
  match params.get? "taskNames" with
  | none => some []
  | some (.array items) => items.mapM Json.text?
  | some _ => none

/-- The api key of a task that listens. -/
def TaskParams.apiKey? (params : Json.Entries) : Option String :=
  ((params.get? "apiKey").bind Json.text?).filter fun key => !Text.isBlankText key

/-- What the params say to a type of task, or why they do not fit it. -/
def TaskParams.narrow (t : TaskType) (params : Json.Entries) : Except ParamsIssue TaskParams :=
  match t with
  | .wait =>
    match taskNames? params with
    | some names => .ok (.wait names)
    | none => .error .taskNamesNotAList
  | .listen =>
    match apiKey? params with
    | some key => .ok (.listen key)
    | none => .error .apiKeyMissing
  | _ => .ok .plain

end Workflow
