/-!
# Arguments

The arguments of a program are positional values and options. An option takes a
value: the rest of its own argument or the next argument, which then may not look
like an option. Two dashes end the options.
-/

namespace Workflow.CommandLine

/-- An option that takes a value. -/
structure Flag where
  /-- The name behind two dashes. -/
  long : String
  /-- The letter behind one dash. -/
  short : Option Char
  deriving DecidableEq, Repr

/-- Why arguments are not understood. -/
inductive UsageError where
  /-- There is no such option. -/
  | unknownFlag (text : String)
  /-- An option lacks its value. -/
  | missingValue (flag : String)
  /-- An option is given twice. -/
  | repeatedFlag (flag : String)
  /-- An argument that must be there is missing. -/
  | missingArgument (name : String)
  /-- There are too many arguments. -/
  | unexpectedArgument (text : String)
  /-- There is no such command. -/
  | unknownCommand (text : String)
  deriving DecidableEq, Repr

/-- The sentence that reports arguments that are not understood. -/
def UsageError.message : UsageError → String
  | .unknownFlag text => s!"unknown option '{text}'"
  | .missingValue flag => s!"option '--{flag}' needs a value"
  | .repeatedFlag flag => s!"option '--{flag}' is given twice"
  | .missingArgument name => s!"'{name}' is missing"
  | .unexpectedArgument text => s!"unexpected argument '{text}'"
  | .unknownCommand text => s!"unknown command '{text}'"

/-- What an argument begins with. -/
inductive Word where
  /-- A positional value. -/
  | value (text : String)
  /-- An option, with the value that stands in the same argument. -/
  | flag (f : Flag) (value : Option String)
  /-- Two dashes. -/
  | dashes
  deriving DecidableEq, Repr

/-- Whether an argument looks like an option. -/
def looksLikeFlag (text : String) : Bool :=
  match text.toList with
  | '-' :: _ :: _ => true
  | _ => false

/-- The word that an argument is. -/
def Word.read (flags : List Flag) (text : String) : Except UsageError Word :=
  match text.toList with
  | ['-', '-'] => .ok .dashes
  | '-' :: '-' :: rest =>
    let name := String.ofList (rest.takeWhile (· != '='))
    let own := (rest.dropWhile (· != '=')).tail?.map String.ofList
    match flags.find? (·.long == name) with
    | some f => .ok (.flag f own)
    | none => .error (.unknownFlag text)
  | '-' :: c :: rest =>
    match flags.find? (·.short == some c) with
    | some f =>
      match rest with
      | [] => .ok (.flag f none)
      | '=' :: own => .ok (.flag f (some (String.ofList own)))
      | own => .ok (.flag f (some (String.ofList own)))
    | none => .error (.unknownFlag text)
  | _ => .ok (.value text)

/-- The arguments of a command. -/
structure Arguments where
  /-- The positional values in order. -/
  values : List String
  /-- The values of options by the names of the options. -/
  options : List (String × String)
  deriving DecidableEq, Repr

namespace Arguments

/-- No arguments. -/
def empty : Arguments := ⟨[], []⟩

/-- The value of an option. -/
def option? (a : Arguments) (name : String) : Option String := a.options.lookup name

/-- The arguments with the value of an option, which must not have one yet. -/
def addOption (a : Arguments) (f : Flag) (value : String) : Except UsageError Arguments :=
  if (a.option? f.long).isSome then .error (.repeatedFlag f.long)
  else .ok { a with options := a.options ++ [(f.long, value)] }

/-- The arguments with a positional value more. -/
def addValue (a : Arguments) (text : String) : Arguments := { a with values := a.values ++ [text] }

/-- Reads arguments up to the end, or up to the first positional value if only options are
wanted. The second part holds what was not read. -/
def readFrom (flags : List Flag) (optionsOnly : Bool) (a : Arguments) :
    List String → Except UsageError (Arguments × List String)
  | [] => .ok (a, [])
  | text :: rest =>
    match Word.read flags text with
    | .error e => .error e
    | .ok .dashes =>
      if optionsOnly then .ok (a, text :: rest) else .ok (rest.foldl addValue a, [])
    | .ok (.value v) =>
      if optionsOnly then .ok (a, text :: rest) else readFrom flags optionsOnly (a.addValue v) rest
    | .ok (.flag f (some v)) =>
      match a.addOption f v with
      | .error e => .error e
      | .ok a => readFrom flags optionsOnly a rest
    | .ok (.flag f none) =>
      match rest with
      | [] => .error (.missingValue f.long)
      | v :: rest =>
        if looksLikeFlag v then .error (.missingValue f.long)
        else
          match a.addOption f v with
          | .error e => .error e
          | .ok a => readFrom flags optionsOnly a rest

/-- The value of an option that must be there. -/
def required (a : Arguments) (name : String) : Except UsageError String :=
  match a.option? name with
  | some v => .ok v
  | none => .error (.missingArgument name)

/-- The only positional value. -/
def one (a : Arguments) (name : String) : Except UsageError String :=
  match a.values with
  | [] => .error (.missingArgument name)
  | [v] => .ok v
  | _ :: text :: _ => .error (.unexpectedArgument text)

/-- The two positional values. -/
def two (a : Arguments) (first second : String) : Except UsageError (String × String) :=
  match a.values with
  | [] => .error (.missingArgument first)
  | [_] => .error (.missingArgument second)
  | [v, w] => .ok (v, w)
  | _ :: _ :: text :: _ => .error (.unexpectedArgument text)

end Arguments

end Workflow.CommandLine
