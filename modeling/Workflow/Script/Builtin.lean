/-!
# Built-ins of task scripts

Every task script may use a few functions of the platform: it reads the maps of its
workflow, writes to the log and sends requests. They are declared for the author in
a fixed text.
-/

namespace Workflow.Script

/-- The methods of a request. -/
inductive RequestMethod where
  | get
  | delete
  | head
  | options
  | post
  | put
  | patch
  | purge
  | link
  | unlink
  deriving DecidableEq, Repr

/-- All methods, in the order in which they are declared. -/
def RequestMethod.all : List RequestMethod := [
  .get, .delete, .head, .options, .post, .put, .patch, .purge, .link, .unlink]

/-- The method in small letters. -/
def RequestMethod.name : RequestMethod → String
  | .get => "get"
  | .delete => "delete"
  | .head => "head"
  | .options => "options"
  | .post => "post"
  | .put => "put"
  | .patch => "patch"
  | .purge => "purge"
  | .link => "link"
  | .unlink => "unlink"

/-- The method in capital letters. -/
def RequestMethod.upperName (m : RequestMethod) : String :=
  String.ofList (m.name.toList.map Char.toUpper)

/-- The method with a name, which is in small or in capital letters throughout. -/
def RequestMethod.ofName? (name : String) : Option RequestMethod :=
  RequestMethod.all.find? fun m => m.name == name || m.upperName == name

/-- The name of the type of the global map. -/
def globalMapName : String := "GlobalMap"

/-- The name of the type of the params of a task. -/
def paramMapName : String := "ParamMap"

/-- A method in single quotes. -/
def quoteMethod (name : String) : String := "'" ++ name ++ "'"

/-- Both spellings of every method as the members of a union. -/
def methodUnion : String :=
  " | ".intercalate
    (RequestMethod.all.flatMap fun m => [quoteMethod m.name, quoteMethod m.upperName])

/-- The declarations of the built-ins, line by line. -/
def builtinLines : List String := [
  "type HttpMethod = " ++ methodUnion ++ ";",
  "",
  "interface HttpRequest \x7b",
  "  url: string;",
  "  payload?: any;",
  "  headers: Record<string, string>;",
  "  method: HttpMethod;",
  "  queryParams?: Record<string, any>;",
  "\x7d",
  "",
  "type HttpResult = \x7b success: true; data: any \x7d | \x7b success: false; error: any \x7d;",
  "",
  "declare function getWorkflowGlobal(): " ++ globalMapName ++ ";",
  "declare function getWorkflowParams(): " ++ paramMapName ++ ";",
  "declare function getWorkflowResults(): Record<string, any>;",
  "declare function logger(...args: any[]): void;",
  "declare function httpClient(params: HttpRequest): Promise<HttpResult>;",
  "declare function getHttpClient(): typeof httpClient;"]

/-- The declarations of the built-ins. -/
def builtinDeclarations : String := String.join (builtinLines.map (· ++ "\n"))

end Workflow.Script
