import Workflow.Json.Raw

/-!
# Reading records

A record is written as an object, or, if it collects no unknown keys, as a list of
its fields in order. A known key may be given once only. What stands under unknown
keys is set aside: it is either never asked for or read as a whole.
-/

namespace Workflow.Json

namespace Raw

/-- The text of a part that is a text. -/
def text? : Raw → Option String
  | .string s => some s
  | _ => none

/-- The double of a part that is a number; an integer is rounded. -/
def double? : Raw → Option Double
  | .number (.double d) => some d
  | .number (.integer n) => Double.ofRatio (decide (n < 0)) n.natAbs 1
  | _ => none

/-- The integer of a part that is an integer from zero up to below a limit. -/
def natBelow? (limit : Nat) : Raw → Option Nat
  | .number (.integer n) => if 0 ≤ n ∧ n < limit then some n.toNat else none
  | _ => none

/-- The entries of a part that is an object. -/
def object? (part : Raw) : Option Entries := part.value?.bind Json.entries?

/-- The items of a part that is a list, each read in the same way. -/
def listOf? {α : Type} (read : Raw → Option α) : Raw → Option (List α)
  | .array items => items.mapM read
  | _ => none

/-- The name of a variant, written as a text or as the only key of an object with the
value `null`. -/
def variant? : Raw → Option String
  | .string s => some s
  | .object [(some s, .null)] => some s
  | _ => none

end Raw

/-- The parts of a record. -/
structure Record where
  /-- The parts under known names. -/
  fields : List (String × Raw)
  /-- The parts under all other keys, in order. -/
  unknown : List (String × Raw)

namespace Record

/-- An entry of an object whose key is a text. -/
def namedEntry? (e : Option String × Raw) : Option (String × Raw) := e.1.map fun key => (key, e.2)

/-- The parts of an object as fields with the given names and unknown ones. -/
def ofObject? (names : List String) : Raw → Option Record
  | .object entries => do
    let named ← entries.mapM namedEntry?
    let (fields, unknown) := named.partition fun e => names.contains e.1
    if (fields.map Prod.fst).Nodup then some ⟨fields, unknown⟩ else none
  | _ => none

/-- The parts of an object, or of a list of the fields in order, of which the last ones
may be missing. -/
def read? (names : List String) : Raw → Option Record
  | .array items => if items.length ≤ names.length then some ⟨names.zip items, []⟩ else none
  | part => ofObject? names part

variable (r : Record) {α : Type}

/-- The part under a known name. -/
def part? (name : String) : Option Raw := r.fields.lookup name

/-- A field that must be there. -/
def required (name : String) (read : Raw → Option α) : Option α := (r.part? name).bind read

/-- A field that stands for a default when it is missing. -/
def withDefault (name : String) (default : α) (read : Raw → Option α) : Option α :=
  match r.part? name with
  | none => some default
  | some part => read part

/-- A value that may be `null`. -/
def nullable (read : Raw → Option α) : Raw → Option (Option α)
  | .null => some none
  | part => (read part).map some

/-- A field that may be missing or `null`. -/
def optional (name : String) (read : Raw → Option α) : Option (Option α) :=
  r.withDefault name none (nullable read)

/-- The values under unknown keys. -/
def rest : Option Entries :=
  (Raw.entries? (r.unknown.map fun e => (some e.1, e.2))).map Entries.ofList

end Record

/-- An entry that is left out when there is no value. -/
def entryIfSome (key : String) (value : Option Json) : Entries :=
  (value.map fun v => (key, v)).toList

/-- A text, or `null` when there is none. -/
def ofOption (s : Option String) : Json := s.elim .null .string

end Workflow.Json
