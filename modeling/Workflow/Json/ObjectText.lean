import Workflow.Json.Reader
import Workflow.Json.Writer
import Workflow.Text.Blank

/-!
# Maps typed by people

Params, global maps and overrides are typed as text. Blank text stands for the empty
map; anything else has to be one JSON object without blank keys.
-/

namespace Workflow.Json

/-- Why a typed text is no map. -/
inductive ObjectTextError where
  /-- The text is not JSON. -/
  | unreadable
  /-- The value is not an object. -/
  | notAnObject
  /-- A key is blank. -/
  | emptyKey
  deriving DecidableEq, Repr

/-- The sentence that reports a text that is no map; `detail` says what is wrong with an
unreadable one. -/
def ObjectTextError.message (detail : String) : ObjectTextError → String
  | .unreadable => s!"Error parsing JSON: {detail}"
  | .notAnObject => "Expected a JSON object"
  | .emptyKey => "No empty keys"

/-- The map that a person typed. -/
def Entries.ofText (text : String) : Except ObjectTextError Entries :=
  let trimmed := Text.trim text
  if trimmed.isEmpty then .ok []
  else
    match read? trimmed with
    | none => .error .unreadable
    | some (.object entries) =>
      if (Entries.keys entries).any Text.isBlankText then .error .emptyKey else .ok entries
    | some _ => .error .notAnObject

/-- A map as it is shown to a person. -/
def Entries.toText (entries : Entries) : String := (Json.object entries).pretty

end Workflow.Json
