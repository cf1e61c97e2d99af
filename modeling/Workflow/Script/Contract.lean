import Workflow.Script.Builtin
import Workflow.Script.Inference

/-!
# The contract of a script

The author of a script sees declarations of what the script may use: types read off
the global map of the workflow and off the params of the task, and the built-ins.
-/

namespace Workflow.Script

/-- The declarations that the author of a script sees. -/
structure Contract where
  /-- The type of the global map and the interfaces it refers to. -/
  globalTypes : String
  /-- The type of the params and the interfaces it refers to. -/
  paramTypes : String
  /-- The built-ins. -/
  builtins : String
  deriving DecidableEq, Repr

/-- The contract for a global map and the params of a task. -/
def Contract.generate (globals params : Json.Entries) : Contract :=
  ⟨(Declarations.infer globalMapName (.object globals)).render,
    (Declarations.infer paramMapName (.object params)).render,
    builtinDeclarations⟩

/-- The whole text that the author sees. -/
def Contract.declarations (c : Contract) : String :=
  c.globalTypes ++ "\n" ++ c.paramTypes ++ "\n" ++ c.builtins

end Workflow.Script
