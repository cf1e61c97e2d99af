import Workflow.Json.Basic

/-!
# Entries of an object

Entries keep the order in which their keys were first inserted. Inserting under a
key that is there replaces the value in place. Removing an entry moves the last one
into its place, so a removal costs no more than the look-up but disturbs the order.
-/

namespace Workflow.Json

/-- Values under keys, in order. -/
abbrev Entries := List (String × Json)

namespace Entries

/-- The keys in order. -/
def keys (es : Entries) : List String := es.map Prod.fst

/-- The value under a key. -/
def get? (es : Entries) (key : String) : Option Json :=
  (es.find? (·.1 == key)).map Prod.snd

/-- Whether there is a value under a key. -/
def has (es : Entries) (key : String) : Bool := es.any (·.1 == key)

/-- The entries with a value under a key, which takes the place of the one that was there
and goes to the end otherwise. -/
def insert (es : Entries) (key : String) (value : Json) : Entries :=
  if es.has key then es.map fun e => if e.1 == key then (key, value) else e
  else es ++ [(key, value)]

/-- Inserts many entries, one after the other. -/
def insertAll (es : Entries) (more : List (String × Json)) : Entries :=
  more.foldl (fun acc e => acc.insert e.1 e.2) es

/-- The entries of a list in which a key may occur again; the last value counts. -/
def ofList (es : List (String × Json)) : Entries := insertAll [] es

/-- The entries without the one under a key, whose place the last entry takes. -/
def remove (es : Entries) (key : String) : Entries :=
  match es.findIdx? (·.1 == key) with
  | none => es
  | some i =>
    match es.getLast? with
    | none => es
    | some last => (es.set i last).dropLast

/-- Removes the entries under many keys, one after the other. -/
def removeAll (es : Entries) (keys : List String) : Entries := keys.foldl remove es

end Entries

/-- The entries of a value that is an object. -/
def entries? : Json → Option Entries
  | .object es => some es
  | _ => none

end Workflow.Json
