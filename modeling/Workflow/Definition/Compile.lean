import Workflow.Definition.Basic
import Workflow.Validation.Report

/-!
# Compiling a draft

A draft that keeps the rules becomes a definition: every node is a task under its
label, and edges turn into lists of names. Ports and edge ids leave no trace.
-/

namespace Workflow

/-- Why a draft is not compiled. -/
inductive CompileError where
  /-- The graph breaks rules. -/
  | invalidGraph (violations : List Violation)
  /-- The metadata are not complete. -/
  | invalidMetadata (problems : List String)
  deriving DecidableEq, Repr

/-- The sentence that reports a draft that is not compiled. -/
def CompileError.message : CompileError → String
  | .invalidGraph violations =>
    s!"Refusing to compile a graph with {violations.length} validation violation(s)"
  | .invalidMetadata problems =>
    "Workflow metadata is invalid: " ++ "; ".intercalate problems

namespace Graph

variable (g : Graph)

/-- The labels of nodes that are in the graph, each once. -/
def labelsOf (ids : List NodeId) : List String :=
  (ids.filterMap fun id => (g.node? id).map Node.label).eraseDups

/-- The names of the tasks that follow a node, in the order of the edges. -/
def nextNames (n : Node) : List String :=
  n.output.elim [] fun port =>
    g.labelsOf ((g.edges.filter (·.sourcePort == port)).map Edge.target)

/-- The names of the tasks that come before a node, in the order of the edges. -/
def previousNames (n : Node) : List String :=
  n.input.elim [] fun port =>
    g.labelsOf ((g.edges.filter (·.targetPort == port)).map Edge.source)

/-- A script that is not blank. -/
def scriptText (script : Option String) : Option String :=
  script.filter fun s => !Text.isBlankText s

/-- The task of a node. -/
def compileNode (n : Node) : CompiledTask :=
  ⟨n.id, n.label, n.type, n.params, g.nextNames n, g.previousNames n, scriptText n.exec,
    scriptText n.execTs⟩

/-- The definition of a draft in which a validation found the given violations. -/
def compileAfter (violations : List Violation) (m : Metadata) :
    Except CompileError Definition :=
  match violations with
  | [] =>
    match m.problems with
    | [] => .ok ⟨m.name, m.description, m.status, m.globals, g.nodes.map g.compileNode⟩
    | problems => .error (.invalidMetadata problems)
  | violations => .error (.invalidGraph violations)

/-- The definition of a draft that keeps the given rules. -/
def compileBy (rules : List Rule) (m : Metadata) : Except CompileError Definition :=
  g.compileAfter (g.validateBy rules) m

/-- The definition of a draft that keeps the standard rules. -/
def compile (m : Metadata) : Except CompileError Definition := g.compileBy Rule.standard m

end Graph

end Workflow
