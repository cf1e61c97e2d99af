import Workflow.Json.Record
import Workflow.Text.Blank

/-!
# Task types

There are six types of task. Compiled definitions name a type in capital letters and
the editor in small ones; people may write it in any case. The type decides on which
sides a task has a port and whether it carries a script.
-/

namespace Workflow

/-- The type of a task. -/
inductive TaskType where
  /-- Where a workflow begins. -/
  | start
  /-- Where a workflow ends. -/
  | finish
  /-- Runs a script and keeps its result. -/
  | function
  /-- Runs a script that decides whether the workflow goes on. -/
  | guard
  /-- Waits for other tasks. -/
  | wait
  /-- Waits for a call with an api key. -/
  | listen
  deriving DecidableEq, Repr

namespace TaskType

/-- All types, in order. -/
def all : List TaskType := [.start, .finish, .function, .guard, .wait, .listen]

/-- The name in compiled definitions. -/
def name : TaskType → String
  | .start => "START"
  | .finish => "END"
  | .function => "FUNCTION"
  | .guard => "GUARD"
  | .wait => "WAIT"
  | .listen => "LISTEN"

/-- The name in the editor. -/
def editorName : TaskType → String
  | .start => "start"
  | .finish => "end"
  | .function => "function"
  | .guard => "guard"
  | .wait => "wait"
  | .listen => "listen"

/-- The word that generated labels begin with. -/
def labelPrefix : TaskType → String
  | .start => "Start"
  | .finish => "End"
  | .function => "Function"
  | .guard => "Guard"
  | .wait => "Wait"
  | .listen => "Listen"

/-- Whether tasks of the type carry a script. -/
def isScriptable : TaskType → Bool
  | .function | .guard => true
  | _ => false

/-- Whether tasks of the type have an input port. -/
def hasInput : TaskType → Bool
  | .start => false
  | _ => true

/-- Whether tasks of the type have an output port. -/
def hasOutput : TaskType → Bool
  | .finish | .listen => false
  | _ => true

/-- A text with its ASCII letters in capitals. -/
def upperAscii (s : String) : String := String.ofList (s.toList.map Char.toUpper)

/-- The type that a text names, in any case and with blanks around it. -/
def ofText? (s : String) : Option TaskType :=
  all.find? fun t => t.name == upperAscii (Text.trim s)

/-- The type that is named in a compiled definition. -/
def read? (part : Json.Raw) : Option TaskType :=
  part.variant?.bind fun s => all.find? fun t => t.name == s

/-- The type as it is named in a compiled definition. -/
def toJson (t : TaskType) : Json := .string t.name

end TaskType

end Workflow
