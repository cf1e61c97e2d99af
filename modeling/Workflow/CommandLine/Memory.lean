import Workflow.CommandLine.Execute
import Workflow.CommandLine.FileTree
import Workflow.Server.Offline

/-!
# A host in memory

A tree of files and a list of variables are enough of a host to execute commands. What
is written to the devices for the outputs of the program is kept as well. There is no
network.
-/

namespace Workflow.CommandLine

/-- A tree of files with the variables of a program. -/
structure Memory where
  /-- The files. -/
  tree : FileTree
  /-- The values of variables by their names. -/
  environment : List (String × String)
  /-- What has been written to the device of the first output. -/
  output : String
  /-- What has been written to the device of the second output. -/
  errors : String
  deriving DecidableEq, Repr

namespace Memory

/-- The memory with some files in the working folder and some variables. -/
def ofFiles (files environment : List (String × String)) : Memory :=
  ⟨.ofFiles files, environment, "", ""⟩

variable (h : Memory)

/-- The memory after a content has been put into a file. -/
def write (path content : String) : Except FileFault Memory := do
  let p ← h.tree.target path
  match Device.table.lookup p with
  | none => return { h with tree := h.tree.put p content }
  | some .null | some .input => return h
  | some .full => if content.isEmpty then return h else throw .noSpace
  | some .output => return { h with output := h.output ++ content }
  | some .errors => return { h with errors := h.errors ++ content }

/-- How a command has ended, together with what it wrote to the devices before. -/
def close (outcome : Outcome) : Outcome :=
  { outcome with output := h.output ++ outcome.output, errors := h.errors ++ outcome.errors }

/-- A host whose state is the memory. -/
def host : Host (StateM Memory) where
  readFile path := do return ((← get).tree.read path).mapError FileFault.message
  writeFile path content := do
    match (← get).write path content with
    | .ok h => set h; return .ok ()
    | .error fault => return .error fault.message
  lookup name := do return (← get).environment.lookup name
  transport := .offline

end Memory

end Workflow.CommandLine
