import Workflow.CommandLine.Arguments

/-!
# Commands

What the program can be asked to do from the command line. The option that names a
configuration file may stand in front of the command or behind it; behind it counts
more.
-/

namespace Workflow.CommandLine

/-- What the program is asked to do. -/
inductive Command where
  /-- Show the problems of a snapshot. -/
  | validate (snapshot : String)
  /-- Compile a snapshot. -/
  | compile (snapshot name description : String) (globals output : Option String)
  /-- Show what the script of a task may use. -/
  | contract (snapshot task : String) (globals : Option String)
  /-- Erase the types of a script. -/
  | transpile (script : String)
  /-- Start a run of a stored definition. -/
  | run (definition : String) (overrides : Option String)
  /-- Show a run. -/
  | inspect (run : String)
  deriving DecidableEq, Repr

/-- A command with the configuration it is to use. -/
structure Invocation where
  /-- The configuration file. -/
  config : Option String
  /-- The command. -/
  command : Command
  deriving DecidableEq, Repr

/-- The option that names a configuration file. -/
def configFlag : Flag := ⟨"config", some 'c'⟩

/-- The options of a command, given by its name. -/
def flagsOf? : String → Option (List Flag)
  | "validate" | "transpile" | "inspect" => some [configFlag]
  | "compile" =>
    some [configFlag, ⟨"name", some 'n'⟩, ⟨"description", some 'd'⟩, ⟨"global", some 'g'⟩,
      ⟨"output", some 'o'⟩]
  | "contract" => some [configFlag, ⟨"global", some 'g'⟩]
  | "run" => some [configFlag, ⟨"overrides", none⟩]
  | _ => none

/-- The command with a name and arguments. -/
def Command.ofArguments (name : String) (a : Arguments) : Except UsageError Command := do
  match name with
  | "validate" => return .validate (← a.one "snapshot_path")
  | "compile" =>
    return .compile (← a.one "snapshot_path") (← a.required "name") (← a.required "description")
      (a.option? "global") (a.option? "output")
  | "contract" =>
    let (snapshot, task) ← a.two "snapshot_path" "task"
    return .contract snapshot task (a.option? "global")
  | "transpile" => return .transpile (← a.one "script_path")
  | "run" => return .run (← a.one "definition_id") (a.option? "overrides")
  | "inspect" => return .inspect (← a.one "run_id")
  | other => throw (.unknownCommand other)

/-- What the arguments of the program ask for. -/
def Invocation.ofArguments (arguments : List String) : Except UsageError Invocation := do
  let (outer, rest) ← Arguments.readFrom [configFlag] true .empty arguments
  match rest with
  | [] => throw (.missingArgument "command")
  | name :: rest =>
    match flagsOf? name with
    | none => throw (.unknownCommand name)
    | some flags =>
      let (inner, _) ← Arguments.readFrom flags false .empty rest
      let command ← Command.ofArguments name inner
      return ⟨inner.option? configFlag.long <|> outer.option? configFlag.long, command⟩

end Workflow.CommandLine
