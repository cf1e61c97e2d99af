import Workflow.Json.Reader
import Workflow.Json.Record
import Workflow.Text.Blank

/-!
# Configuration

Where the server is, how long a request may take, and how long validation waits.
Values come from defaults, from a file, or from variables of the environment.
-/

namespace Workflow

open Json (Raw Record)

/-- The settings of clients and sessions. -/
structure Config where
  /-- The address of the server. -/
  serverUrl : String
  /-- The seconds that a request may take. -/
  requestTimeoutSecs : Nat
  /-- The milliseconds that validation waits after an edit. -/
  validationDebounceMs : Nat
  deriving DecidableEq, Repr

/-- Why there is no configuration. -/
inductive ConfigError where
  /-- The file cannot be read. -/
  | unreadableFile (path detail : String)
  /-- The file does not hold a configuration. -/
  | malformedFile
  /-- A variable of the environment holds no number. -/
  | invalidVariable (name value : String)
  deriving DecidableEq, Repr

/-- The sentence that reports that there is no configuration; `detail` says what is wrong
with a malformed file. -/
def ConfigError.message (detail : String) : ConfigError → String
  | .unreadableFile path reason => s!"Could not read config file '{path}': {reason}"
  | .malformedFile => s!"Failed to parse config: {detail}"
  | .invalidVariable name value =>
    s!"Environment variable '{name}' has an invalid value '{value}'"

namespace Config

/-- The settings when nothing else is said. -/
def default : Config := ⟨"http://localhost:8080", 30, 500⟩

/-- The numbers of a configuration have 64 bits. -/
def limit : Nat := Nat.pow 2 64

/-- Reads a configuration. -/
def read? (part : Raw) : Option Config := do
  let r ← Record.read? ["server_url", "request_timeout_secs", "validation_debounce_ms"] part
  return {
    serverUrl := ← r.withDefault "server_url" default.serverUrl Raw.text?
    requestTimeoutSecs :=
      ← r.withDefault "request_timeout_secs" default.requestTimeoutSecs (Raw.natBelow? limit)
    validationDebounceMs :=
      ← r.withDefault "validation_debounce_ms" default.validationDebounceMs (Raw.natBelow? limit) }

/-- Writes a configuration. -/
def toJson (c : Config) : Json :=
  .object [("server_url", .string c.serverUrl),
    ("request_timeout_secs", .number (.integer c.requestTimeoutSecs)),
    ("validation_debounce_ms", .number (.integer c.validationDebounceMs))]

/-- The configuration that a file holds. -/
def ofText (text : String) : Except ConfigError Config :=
  match (Raw.read? text).bind read? with
  | some c => .ok c
  | none => .error .malformedFile

/-- The variable that holds the address of the server. -/
def urlVariable : String := "FLOWDRAFT_SERVER_URL"

/-- The variable that holds the seconds that a request may take. -/
def timeoutVariable : String := "FLOWDRAFT_REQUEST_TIMEOUT_SECS"

/-- The variable that holds the milliseconds that validation waits. -/
def debounceVariable : String := "FLOWDRAFT_VALIDATION_DEBOUNCE_MS"

/-- The names of the variables that override settings. -/
def variableNames : List String := [urlVariable, timeoutVariable, debounceVariable]

/-- The number that a variable holds: digits, with a plus sign in front if one likes, and
with blanks around them. -/
def number? (value : String) : Option Nat :=
  let digits :=
    match (Text.trim value).toList with
    | '+' :: rest => rest
    | cs => cs
  if digits.isEmpty || !digits.all Char.isDigit then none
  else
    let n := Text.natOf digits
    if n < limit then some n else none

/-- The number that a variable overrides a setting with, if it is set. -/
def override (lookup : String → Option String) (name : String) (setting : Nat) :
    Except ConfigError Nat :=
  match lookup name with
  | none => .ok setting
  | some value =>
    match number? value with
    | some n => .ok n
    | none => .error (.invalidVariable name value)

/-- The configuration with the settings that variables override. -/
def withOverrides (c : Config) (lookup : String → Option String) : Except ConfigError Config := do
  let timeout ← override lookup timeoutVariable c.requestTimeoutSecs
  let debounce ← override lookup debounceVariable c.validationDebounceMs
  return ⟨(lookup urlVariable).getD c.serverUrl, timeout, debounce⟩

end Config

end Workflow
