import Workflow.Config
import Workflow.Server.Stored

/-!
# The client of the server

Every call is one request with the credential of the user. Without a credential no
request is made. An answer counts only if its status is one of success, and the
values it carries stand in an envelope. How requests travel is left open: a
transport answers a request, or says why there is no answer.
-/

namespace Workflow

open Json (Raw Record)

/-- What a definition is submitted with. -/
structure DefinitionDraft where
  /-- The compiled definition. -/
  definition : Definition
  /-- The snapshot that it was compiled from. -/
  snapshot : UiSnapshot
  deriving DecidableEq, Repr

/-- Writes a draft. -/
def DefinitionDraft.toJson (d : DefinitionDraft) : Json :=
  .object [("workflowData", d.definition.toJson), ("key", .string EditorState.key),
    ("ui", d.snapshot.toJson)]

/-- The order to start a run of a definition, with values that override the global map. -/
def startOrder (id : String) (globals : Json.Entries) : Json :=
  .object [("workflowDefinitionId", .string id), ("globalParams", .object globals)]

/-- What is asked of the server. -/
inductive Call where
  /-- Store a new definition. -/
  | create (draft : DefinitionDraft)
  /-- Store a definition in the place of another. -/
  | update (id : String) (draft : DefinitionDraft)
  /-- Answer with a definition. -/
  | fetch (id : String)
  /-- Answer with the list of definitions. -/
  | list
  /-- Answer with a run. -/
  | fetchRun (id : String)
  /-- Start a run of a definition. -/
  | startRun (id : String) (globals : Json.Entries)
  deriving DecidableEq, Repr

/-- The method of a request. -/
inductive Verb where
  | get
  | post
  | put
  deriving DecidableEq, Repr

/-- The word for a method. -/
def Verb.name : Verb → String
  | .get => "GET"
  | .post => "POST"
  | .put => "PUT"

namespace Call

/-- The method of the request for a call. -/
def verb : Call → Verb
  | .create _ | .startRun _ _ => .post
  | .update _ _ => .put
  | .fetch _ | .list | .fetchRun _ => .get

/-- Where on the server the request for a call goes. -/
def path : Call → String
  | .create _ => "/definition/add-workflow"
  | .update id _ => "/definition/edit/" ++ id
  | .fetch id => "/definition/" ++ id
  | .list => "/definition"
  | .fetchRun id => "/runtime/" ++ id
  | .startRun _ _ => "/workflow/start"

/-- What the request for a call carries. -/
def body : Call → Option Json
  | .create draft | .update _ draft => some draft.toJson
  | .startRun id globals => some (startOrder id globals)
  | .fetch _ | .list | .fetchRun _ => none

end Call

/-- A request to the server. -/
structure Request where
  /-- The method. -/
  verb : Verb
  /-- The address. -/
  url : String
  /-- The credential. -/
  token : String
  /-- What the request carries. -/
  body : Option Json
  deriving DecidableEq, Repr

/-- An answer of the server. -/
structure Response where
  /-- The status. -/
  status : Nat
  /-- What the answer carries. -/
  body : String
  deriving DecidableEq, Repr

/-- Whether the request succeeded. -/
def Response.isSuccess (r : Response) : Bool := 200 ≤ r.status && r.status < 300

/-- Why a call fails. -/
inductive ClientError where
  /-- There is no credential. -/
  | unauthorized
  /-- There is no answer. -/
  | request (url detail : String)
  /-- The answer is not one of success. -/
  | status (url : String) (code : Nat) (body : String)
  /-- The answer does not carry what was asked for. -/
  | decode (url detail : String)
  deriving DecidableEq, Repr

/-- The sentence that reports a failed call. -/
def ClientError.message : ClientError → String
  | .unauthorized => "Unauthorized: no bearer credential is available"
  | .request url detail => s!"Request to '{url}' failed: {detail}"
  | .status url code body => s!"Server answered '{url}' with status {code}: {body}"
  | .decode url detail => s!"Failed to decode response from '{url}': {detail}"

/-- The value in the envelope that an answer carries. -/
def Response.read? {α : Type} (r : Response) (read : Raw → Option α) : Option α := do
  let part ← Raw.read? r.body
  let envelope ← Record.read? ["data"] part
  envelope.required "data" read

/-- Who calls which server. -/
structure Client where
  /-- The address that paths are appended to. -/
  base : String
  /-- The credential as it was given. -/
  token : Option String
  deriving DecidableEq, Repr

/-- Answers a request, or says why there is no answer. -/
abbrev Transport (m : Type → Type) := Request → m (Except String Response)

namespace Client

/-- A text without the slashes at its end. -/
def trimSlashes (s : String) : String :=
  String.ofList (s.toList.reverse.dropWhile (· == '/')).reverse

/-- The client of the server that a configuration names. -/
def ofConfig (config : Config) (token : Option String) : Client :=
  ⟨trimSlashes config.serverUrl, token⟩

variable (c : Client)

/-- The credential, if it is not blank. -/
def credential : Option String := c.token.filter fun t => !Text.isBlankText t

/-- The address for a call. -/
def url (call : Call) : String := c.base ++ call.path

/-- The request for a call. -/
def request (call : Call) : Except ClientError Request :=
  match c.credential with
  | none => .error .unauthorized
  | some token => .ok ⟨call.verb, c.url call, token, call.body⟩

/-- What an answer to a call means. -/
def receive (call : Call) : Except String Response → Except ClientError Response
  | .error detail => .error (.request (c.url call) detail)
  | .ok response =>
    if response.isSuccess then .ok response
    else .error (.status (c.url call) response.status response.body)

/-- The value that was asked for. -/
def decode {α : Type} (call : Call) (read : Raw → Option α) (response : Response) :
    Except ClientError α :=
  match response.read? read with
  | some value => .ok value
  | none => .error (.decode (c.url call) "the answer has not the expected form")

variable {m : Type → Type} [Monad m] (transport : Transport m)

/-- Makes a call. -/
def perform (call : Call) : m (Except ClientError Response) :=
  match c.request call with
  | .error e => pure (.error e)
  | .ok request => c.receive call <$> transport request

/-- Makes a call that is answered by a value. -/
def ask {α : Type} (call : Call) (read : Raw → Option α) : m (Except ClientError α) :=
  (· >>= c.decode call read) <$> c.perform transport call

/-- Makes a call of which only the success matters. -/
def tell (call : Call) : m (Except ClientError Unit) :=
  (Except.map fun _ => ()) <$> c.perform transport call

/-- Stores a new definition. -/
def create (draft : DefinitionDraft) : m (Except ClientError Unit) :=
  c.tell transport (.create draft)

/-- Stores a definition in the place of another. -/
def update (id : String) (draft : DefinitionDraft) : m (Except ClientError Unit) :=
  c.tell transport (.update id draft)

/-- The definition with an id. -/
def fetch (id : String) : m (Except ClientError StoredDefinition) :=
  c.ask transport (.fetch id) StoredDefinition.read?

/-- The definitions that are stored. -/
def list : m (Except ClientError (List DefinitionSummary)) :=
  c.ask transport .list (Raw.listOf? DefinitionSummary.read?)

/-- The run with an id. -/
def fetchRun (id : String) : m (Except ClientError Run) :=
  c.ask transport (.fetchRun id) Run.read?

/-- Starts a run of a definition. -/
def startRun (id : String) (globals : Json.Entries) : m (Except ClientError Unit) :=
  c.tell transport (.startRun id globals)

end Client

end Workflow
