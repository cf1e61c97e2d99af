import Workflow.Definition.Compile
import Workflow.Script.Edit
import Workflow.Server.Client
import Workflow.Snapshot.Graph
import Workflow.Validation.Debounce

/-!
# Editing sessions

A session is the work of one user on one draft. Every change of the draft that
succeeds schedules a validation under a key that says what was changed. The reason
why the source of a node cannot be executed is kept until the source is mended or
the node removed. At most one submission is under way.
-/

namespace Workflow

/-- A draft on its way to the store. -/
structure Submission where
  /-- The stored definition that the draft replaces, if it was opened from one. -/
  replaces : Option String
  /-- The draft. -/
  draft : DefinitionDraft
  deriving DecidableEq, Repr

/-- The work of one user on one draft. -/
structure Session where
  /-- The draft. -/
  graph : Graph
  /-- What the draft is compiled with. -/
  metadata : Metadata
  /-- The stored definition that the draft was opened from. -/
  definitionId : Option String
  /-- The rules to validate with. -/
  rules : List Rule
  /-- The validations that wait, if validation follows edits. -/
  debouncer : Option Debouncer
  /-- Why sources cannot be executed. -/
  rejections : List (NodeId × Script.Rejection)
  /-- The submission that is under way. -/
  submission : Option Submission
  deriving DecidableEq, Repr

namespace Session

/-- A session over a graph. -/
def ofGraph (g : Graph) (m : Metadata) : Session where
  graph := g
  metadata := m
  definitionId := none
  rules := Rule.standard
  debouncer := none
  rejections := []
  submission := none

/-- A session over an empty draft. -/
def new (m : Metadata) : Session := ofGraph .empty m

/-- A session over a stored definition, whose draft is empty if no snapshot was saved. -/
def reopen (d : StoredDefinition) : Except SnapshotError Session := do
  let g ← d.snapshot.elim (.ok .empty) UiSnapshot.toGraph
  return { ofGraph g d.metadata with definitionId := some d.id }

variable (s : Session)

/-- The session with other rules. -/
def withRules (rules : List Rule) : Session := { s with rules := rules }

/-- The session with validation that follows edits after a delay. -/
def withDebounce (delay : Nat) : Session :=
  { s with debouncer := some (.start s.rules delay) }

/-- The session with validation that follows edits as a configuration says. -/
def withConfig (c : Config) : Session := s.withDebounce c.validationDebounceMs

/-- The key for changes of the structure of the graph. -/
def graphKey : String := "graph"

/-- The key for changes of a field of a node. -/
def fieldKey (field : String) (id : NodeId) : String := field ++ ":" ++ id.text

/-- Schedules a validation of the draft as it is now. -/
def schedule (key : String) : Session :=
  { s with debouncer := s.debouncer.map fun d => d.schedule key s.graph }

/-- Schedules a validation for each of some fields of a node. -/
def scheduleFields (id : NodeId) (fields : List String) : Session :=
  fields.foldl (fun s field => s.schedule (fieldKey field id)) s

/-- All validations take place that are due. -/
def settle : Session := { s with debouncer := s.debouncer.map Debouncer.settle }

/-- Lets time pass. -/
def elapse (ms : Nat) : Session := { s with debouncer := s.debouncer.map (·.elapse ms) }

/-- Receives the validations that have settled. -/
def receive : Session × Option (List Settled) :=
  match s.debouncer with
  | none => (s, none)
  | some d =>
    let (d, settled) := d.receive
    ({ s with debouncer := some d }, some settled)

/-- Lets time pass, and receives the validations that have settled. -/
def advance (ms : Nat) : Session × Option (List Settled) := (s.elapse ms).receive

/-- The session with other metadata. -/
def setMetadata (m : Metadata) : Session := { s with metadata := m }

/-- The session with another draft, of which the structure has changed. -/
def restructured (g : Graph) : Session := { s with graph := g }.schedule graphKey

/-- Adds a new node, whose ids are not in use. -/
def addNode (fresh : FreshIds) (type : TaskType) : Session × NodeId :=
  let (g, n) := s.graph.addNode fresh type
  (s.restructured g, n.id)

/-- The reasons why sources cannot be executed, without the one for a node. -/
def rejectionsWithout (id : NodeId) : List (NodeId × Script.Rejection) :=
  s.rejections.filter (·.1 != id)

/-- Removes a node and the edges at it. -/
def removeNode (id : NodeId) : Except GraphError (Session × Node) := do
  let (g, n) ← s.graph.removeNode id
  return ({ s with rejections := s.rejectionsWithout id }.restructured g, n)

/-- Connects an output port to an input port. -/
def connect (sourcePort targetPort : PortId) : Except GraphError (Session × EdgeId) := do
  let (g, e) ← s.graph.connect sourcePort targetPort
  return (s.restructured g, e.id)

/-- Removes an edge. -/
def disconnect (id : EdgeId) : Except GraphError Session := do
  let (g, _) ← s.graph.disconnect id
  return s.restructured g

/-- Changes the data of a node. -/
def updateNode (id : NodeId) (patch : Patch) : Except GraphError Session := do
  let (g, _) ← s.graph.updateNode id patch
  return { s with graph := g }.scheduleFields id patch.touchedFields

/-- The patch that puts other params in the place of those of a node. -/
def replacement (n : Node) (params : Json.Entries) : Patch :=
  { Patch.empty with
    params := params
    removeParams := n.params.keys.filter fun key => !params.has key }

/-- Replaces the params of a node. -/
def replaceParams (id : NodeId) (params : Json.Entries) : Except GraphError Session :=
  match s.graph.node? id with
  | none => .error (.unknownNode id)
  | some n => s.updateNode id (replacement n params)

/-- Stores an edited source with a node. The answer says why it cannot be executed. -/
def editScript (id : NodeId) (source : String) :
    Except ScriptError (Session × Option Script.Rejection) := do
  let (g, rejection) ← s.graph.editScript id source
  let edited := { s with graph := g, rejections := s.rejectionsWithout id }
  match rejection with
  | some r =>
    let kept := { edited with rejections := edited.rejections ++ [(id, r)] }
    return (kept.scheduleFields id ["execTs"], some r)
  | none => return (edited.scheduleFields id ["exec", "execTs"], none)

/-- Why the source of a node cannot be executed. -/
def rejection? (id : NodeId) : Option Script.Rejection := s.rejections.lookup id

/-- The contract of the script of a node. -/
def contract (id : NodeId) : Except ScriptError Script.Contract :=
  s.graph.contract id s.metadata.globals

/-- Validates the draft now. -/
def validate : Report := ⟨s.graph.validateBy s.rules⟩

/-- The definition of the draft. -/
def compile : Except CompileError Definition := s.graph.compileBy s.rules s.metadata

/-- The snapshot of the draft. -/
def snapshot : UiSnapshot := .ofGraph s.graph

/-- Ends the session. No validation takes place any more; what has settled remains to be
delivered. -/
def close : Option Debouncer := s.debouncer.map Debouncer.cancelAll

end Session

end Workflow
