import Workflow.Json.Entries

/-!
# JSON as read

Reading a text comes in two steps: the grammar is checked for all of it, and then
the parts that somebody asks for are turned into values. A part that obeys the
grammar but has no value is `refused`: a number beyond the range of doubles, a text
with half a surrogate pair, or a value nested too deeply. It does no harm where
nobody asks for it. The keys of an object are kept with their repetitions.
-/

namespace Workflow.Json

/-- A part of a text that obeys the grammar. -/
inductive Raw where
  /-- The value `null`. -/
  | null
  /-- The values `true` and `false`. -/
  | bool (b : Bool)
  /-- A number. -/
  | number (n : Number)
  /-- A text. -/
  | string (s : String)
  /-- A list of parts. -/
  | array (items : List Raw)
  /-- Parts under keys; a key may be refused, and may occur again. -/
  | object (entries : List (Option String × Raw))
  /-- A part that has no value. -/
  | refused
  deriving Repr

namespace Raw

instance : Inhabited Raw := ⟨.null⟩

mutual

/-- The value of a part, if all of it has one. -/
def value? : Raw → Option Json
  | .null => some .null
  | .bool b => some (.bool b)
  | .number n => some (.number n)
  | .string s => some (.string s)
  | .array items => (items? items).map .array
  | .object entries => (entries? entries).map fun es => .object (Entries.ofList es)
  | .refused => none

/-- The values of a list of parts. -/
def items? : List Raw → Option (List Json)
  | [] => some []
  | item :: rest => do
    let v ← value? item
    let vs ← items? rest
    return v :: vs

/-- The values of the entries of an object, keys still repeated. -/
def entries? : List (Option String × Raw) → Option (List (String × Json))
  | [] => some []
  | (key?, part) :: rest => do
    let key ← key?
    let v ← value? part
    let vs ← entries? rest
    return (key, v) :: vs

end

mutual

/-- A value as a part; nothing of it is refused. -/
def ofJson : Json → Raw
  | .null => .null
  | .bool b => .bool b
  | .number n => .number n
  | .string s => .string s
  | .array items => .array (ofItems items)
  | .object entries => .object (ofEntries entries)

/-- A list of values as parts. -/
def ofItems : List Json → List Raw
  | [] => []
  | item :: rest => ofJson item :: ofItems rest

/-- The entries of an object as parts. -/
def ofEntries : List (String × Json) → List (Option String × Raw)
  | [] => []
  | (key, v) :: rest => (some key, ofJson v) :: ofEntries rest

end

end Raw

end Workflow.Json
