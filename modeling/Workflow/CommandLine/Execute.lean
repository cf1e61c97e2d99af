import Workflow.CommandLine.Command
import Workflow.Definition.Compile
import Workflow.Json.ObjectText
import Workflow.Script.Edit
import Workflow.Server.Client
import Workflow.Snapshot.Graph

/-!
# Executing commands

A command is executed against a host, which has files, variables and a way to the
server. It ends with texts for the two outputs and an exit status: a command that
fails says why on the second output and ends with status one.
-/

namespace Workflow.CommandLine

/-- What surrounds the program. The texts of failures say what went wrong. -/
structure Host (m : Type → Type) where
  /-- The content of a file. -/
  readFile : String → m (Except String String)
  /-- Puts a content into a file. -/
  writeFile : String → String → m (Except String Unit)
  /-- The value of a variable. -/
  lookup : String → m (Option String)
  /-- The way to the server. -/
  transport : Transport m

/-- How a command ends. -/
structure Outcome where
  /-- The exit status. -/
  status : Nat
  /-- The text for the first output. -/
  output : String
  /-- The text for the second output. -/
  errors : String
  deriving DecidableEq, Repr

/-- Why a command fails. -/
inductive Failure where
  /-- There is no configuration. -/
  | config (cause : ConfigError)
  /-- A file cannot be read. -/
  | unreadable (kind path detail : String)
  /-- A file does not hold the snapshot of a graph. -/
  | snapshot (cause : SnapshotError)
  /-- A file does not hold a map. -/
  | globals (path : String) (cause : Json.ObjectTextError)
  /-- The overrides are not a map. -/
  | overrides (cause : Json.ObjectTextError)
  /-- The draft has problems, which the report lists. -/
  | refused (report : String)
  /-- The draft is not compiled for another reason. -/
  | compile (cause : CompileError)
  /-- A file cannot be written. -/
  | unwritable (path detail : String)
  /-- No task has the label or the id. -/
  | unknownTask (name : String)
  /-- The task carries no script. -/
  | script (cause : ScriptError)
  /-- The script cannot be executed. -/
  | rejected (cause : Script.Rejection)
  /-- The run is not started. -/
  | start (cause : ClientError)
  /-- The run cannot be shown. -/
  | fetch (cause : ClientError)
  deriving DecidableEq, Repr

namespace Failure

/-- What is said of a text that cannot be read. -/
def unreadableText : String := "the text has not the expected form"

/-- The sentence that reports a failed command. -/
def message : Failure → String
  | .config cause => "Failed to load config: " ++ cause.message unreadableText
  | .unreadable kind path detail => s!"Failed to read {kind} '{path}': {detail}"
  | .snapshot cause => "Failed to load snapshot: " ++ cause.message unreadableText
  | .globals path cause => s!"Invalid global map '{path}': " ++ cause.message unreadableText
  | .overrides cause => "Invalid overrides: " ++ cause.message unreadableText
  | .refused _ => "Compilation refused, the graph has validation problems."
  | .compile cause => "Compilation failed: " ++ cause.message
  | .unwritable path detail => s!"Failed to write '{path}': {detail}"
  | .unknownTask name => s!"No task named '{name}'"
  | .script cause => cause.message
  | .rejected cause => cause.message
  | .start cause => "Failed to start run: " ++ cause.message
  | .fetch cause => "Failed to fetch run: " ++ cause.message

/-- What is shown in front of the sentence. -/
def preface : Failure → String
  | .refused report => report ++ "\n"
  | _ => ""

/-- How a command ends that fails. -/
def outcome (f : Failure) : Outcome := ⟨1, "", f.preface ++ "\nError: " ++ f.message ++ "\n"⟩

end Failure

/-- How a command ends that succeeds. -/
def Outcome.success (output : String) : Outcome := ⟨0, output, ""⟩

/-- How the program ends when its arguments are not understood. -/
def UsageError.outcome (e : UsageError) : Outcome := ⟨2, "", "error: " ++ e.message ++ "\n"⟩

/-- The variable that holds the credential. -/
def tokenVariable : String := "FLOWDRAFT_TOKEN"

section

variable {m : Type → Type} [Monad m] {ε α : Type}

/-- A step of a command, of which a failure is named. -/
def attempt (failure : ε → Failure) (step : m (Except ε α)) : ExceptT Failure m α :=
  ExceptT.mk (Except.mapError failure <$> step)

/-- A result in a command, of which a failure is named. -/
def require (failure : ε → Failure) (result : Except ε α) : ExceptT Failure m α :=
  attempt failure (pure result)

variable (host : Host m)

/-- The content of a file of some kind. -/
def loadText (kind path : String) : ExceptT Failure m String :=
  attempt (.unreadable kind path) (host.readFile path)

/-- The variables of the configuration. -/
def loadVariables : m (String → Option String) := do
  let values ← Config.variableNames.mapM fun name => do return (name, ← host.lookup name)
  return fun name => (values.lookup name).join

/-- The configuration: a file if one is named, and otherwise the variables. -/
def loadConfig : Option String → ExceptT Failure m Config
  | some path => do
    let text ← attempt (fun detail => .config (.unreadableFile path detail)) (host.readFile path)
    require .config (Config.ofText text)
  | none => do
    let lookup ← ExceptT.lift (loadVariables host)
    require .config (Config.default.withOverrides lookup)

/-- The graph whose snapshot a file holds. -/
def loadGraph (path : String) : ExceptT Failure m Graph := do
  let text ← loadText host "snapshot file" path
  require .snapshot (Graph.ofText text)

/-- The global map that a file holds; without a file it is empty. -/
def loadGlobals : Option String → ExceptT Failure m Json.Entries
  | none => pure []
  | some path => do
    let text ← loadText host "global map" path
    require (.globals path) (Json.Entries.ofText text)

/-- Shows the problems of a snapshot. The status says whether there are any. -/
def validate (path : String) : ExceptT Failure m Outcome := do
  let g ← loadGraph host path
  let report : Report := ⟨g.validate⟩
  return ⟨if report.violations.isEmpty then 0 else 1, report.format g ++ "\n", ""⟩

/-- What is said of a draft that is not compiled. -/
def compileFailure (g : Graph) : CompileError → Failure
  | .invalidGraph violations => .refused (Report.format ⟨violations⟩ g)
  | cause => .compile cause

/-- Compiles a snapshot, and shows the definition or puts it into a file. -/
def compile (path name description : String) (globals output : Option String) :
    ExceptT Failure m Outcome := do
  let g ← loadGraph host path
  let metadata := { Metadata.named name description with globals := ← loadGlobals host globals }
  let definition ← require (compileFailure g) (g.compile metadata)
  let text := definition.toJson.pretty
  match output with
  | none => return .success (text ++ "\n")
  | some target =>
    attempt (.unwritable target) (host.writeFile target text)
    return .success s!"Wrote {definition.tasks.length} task(s) to '{target}'\n"

/-- The first task with an id or a label. -/
def findTask (g : Graph) (name : String) : Except Failure Node :=
  match g.nodes.find? fun n => n.id.text == name || n.label == name with
  | some n => .ok n
  | none => .error (.unknownTask name)

/-- Shows what the script of a task may use. -/
def contract (path task : String) (globals : Option String) : ExceptT Failure m Outcome := do
  let g ← loadGraph host path
  let globals ← loadGlobals host globals
  let n ← require id (findTask g task)
  let c ← require .script (n.contract globals)
  return .success (c.declarations ++ "\n")

/-- Shows a script without its types. -/
def transpile (path : String) : ExceptT Failure m Outcome := do
  let source ← loadText host "script" path
  let code ← require .rejected (Script.eraseTypes source)
  return .success code

/-- The client for a configuration, with the credential of the user. -/
def client (config : Config) : m Client := do
  return .ofConfig config (← host.lookup tokenVariable)

/-- What is said when a run has been started. -/
def startedText (id : String) (overrides : Json.Entries) : String :=
  let shown :=
    if overrides.isEmpty then "" else "Global overrides:\n" ++ Json.Entries.toText overrides ++ "\n"
  "Started a run of '" ++ id ++ "'\n" ++ shown

/-- Starts a run of a stored definition. -/
def startRun (config : Config) (id : String) (overrides : Option String) :
    ExceptT Failure m Outcome := do
  let c ← ExceptT.lift (client host config)
  let map ← require .overrides (Json.Entries.ofText (overrides.getD ""))
  attempt .start (c.startRun host.transport id map)
  return .success (startedText id map)

/-- What is shown of a task of a run. -/
def taskText (r : Run) (t : RunTask) : String :=
  s!"  {t.name} [{t.type.name}] {t.status.title}\n" ++
    String.join ((r.linesOf t.name).map fun l => s!"    {l.time.display} {l.text}\n")

/-- What is shown of a run. -/
def runText (r : Run) : String :=
  s!"Run {r.id} of '{r.definition.name}': {r.status.title}\n" ++
    String.join (r.tasks.map (taskText r))

/-- Shows a run. -/
def inspect (config : Config) (id : String) : ExceptT Failure m Outcome := do
  let c ← ExceptT.lift (client host config)
  let r ← attempt .fetch (c.fetchRun host.transport id)
  return .success (runText r)

/-- Executes a command under a configuration. -/
def Command.execute (config : Config) : Command → ExceptT Failure m Outcome
  | .validate path => CommandLine.validate host path
  | .compile path name description globals output =>
    CommandLine.compile host path name description globals output
  | .contract path task globals => CommandLine.contract host path task globals
  | .transpile path => CommandLine.transpile host path
  | .run id overrides => startRun host config id overrides
  | .inspect id => CommandLine.inspect host config id

/-- Loads the configuration and executes the command. -/
def Invocation.execute (i : Invocation) : ExceptT Failure m Outcome := do
  let config ← loadConfig host i.config
  i.command.execute host config

/-- Does what the arguments of the program ask for. -/
def execute (arguments : List String) : m Outcome :=
  match Invocation.ofArguments arguments with
  | .error e => pure e.outcome
  | .ok invocation => do
    match ← (invocation.execute host).run with
    | .ok outcome => return outcome
    | .error failure => return failure.outcome

end

end Workflow.CommandLine
