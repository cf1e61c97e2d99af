import Workflow.Script.Shape

/-!
# Inferring types from example values

The type of a list of examples has a member for every kind of value among them. All
objects among them are merged into one interface, whose fields are those of any of
the objects, and all arrays into one array type, whose items are merged in turn. A
key that some of the merged objects lack is optional. Interfaces are named after the
key under which they occur, with a number behind the name when it is taken.

The recursion ends because the examples merged for a field or for the items of an
array weigh less than the examples they are taken from.
-/

namespace Workflow.Script

mutual

/-- The number of values in a value, itself included. -/
def weight : Json → Nat
  | .array items => 1 + weightItems items
  | .object entries => 1 + weightEntries entries
  | _ => 1

/-- The number of values in a list of values. -/
def weightItems : List Json → Nat
  | [] => 0
  | item :: rest => weight item + weightItems rest

/-- The number of values in a list of entries. -/
def weightEntries : List (String × Json) → Nat
  | [] => 0
  | (_, value) :: rest => weight value + weightEntries rest

end

/-- The number of values in the entries of many objects. -/
def weightObjects : List Json.Entries → Nat
  | [] => 0
  | entries :: rest => weightEntries entries + weightObjects rest

/-- The primitive type of a value that has no parts. -/
def primitiveOf : Json → Option Primitive
  | .null => some .any
  | .bool _ => some .boolean
  | .number _ => some .number
  | .string _ => some .string
  | .array _ | .object _ => none

/-- The primitive types of the values that have no parts, each once. -/
def primitivesOf (values : List Json) : List Primitive := (values.filterMap primitiveOf).eraseDups

/-- The objects among the values. -/
def objectsOf (values : List Json) : List Json.Entries := values.filterMap Json.entries?

/-- The items of a value that is an array. -/
def itemsOf? : Json → Option (List Json)
  | .array items => some items
  | _ => none

/-- The items of all arrays among the values, if there is an array. -/
def mergedItems? (values : List Json) : Option (List Json) :=
  match values.filterMap itemsOf? with
  | [] => none
  | lists => some lists.flatten

/-- The keys of all objects, each once, in the order of their first occurrence. -/
def mergedKeys (objects : List Json.Entries) : List String :=
  (objects.flatMap Json.Entries.keys).eraseDups

/-- The values under a key in those of the objects that have one. -/
def valuesUnder (key : String) (objects : List Json.Entries) : List Json :=
  objects.filterMap (·.get? key)

/-- The type with the given members. The type of every value absorbs all others. -/
def Shape.ofMembers (primitives : List Primitive) (composites : List Shape) : Shape :=
  if primitives.contains .any then .primitive .any
  else
    match primitives.map .primitive ++ composites with
    | [] => .primitive .any
    | [member] => member
    | members => .union members

/-- A key in the style of type names: its ASCII letters and digits, each run of which
starts with a capital letter. -/
def capitalize : Bool → List Char → List Char
  | _, [] => []
  | first, c :: rest =>
    if c.isAlphanum then (if first then c.toUpper else c) :: capitalize false rest
    else capitalize true rest

/-- The name of an interface for the values under a key. -/
def typeName (key : String) : String :=
  match capitalize true key.toList with
  | [] => "Item"
  | c :: rest => String.ofList (if c.isDigit then '_' :: c :: rest else c :: rest)

/-- The first of a name and the name with 2, 3, … behind it that is not used. As many
candidates as there are used names, and one more, suffice. -/
def freshName (used : List String) (base : String) : String :=
  let numbered := (List.range used.length).map fun n => base ++ toString (n + 2)
  ((base :: numbered).find? fun name => !used.contains name).getD base

/-- The interfaces declared so far for a type or for fields, and the names in use. -/
structure Inferred (α : Type) where
  /-- The type or the fields. -/
  result : α
  /-- The interfaces declared for it. -/
  interfaces : List Interface
  /-- All names in use. -/
  used : List String

theorem weight_le_of_find {entries : List (String × Json)} {e : String × Json}
    {p : String × Json → Bool} (h : entries.find? p = some e) :
    weight e.2 ≤ weightEntries entries := by
  induction entries with
  | nil => simp at h
  | cons head rest ih =>
    obtain ⟨key, value⟩ := head
    rw [List.find?_cons] at h
    rw [weightEntries]
    split at h
    · cases h; exact Nat.le_add_right _ _
    · have := ih h; omega

theorem weight_valuesUnder_le (key : String) (objects : List Json.Entries) :
    weightItems (valuesUnder key objects) ≤ weightObjects objects := by
  induction objects with
  | nil => simp [valuesUnder, weightItems, weightObjects]
  | cons entries rest ih =>
    simp only [valuesUnder, List.filterMap_cons, weightObjects]
    cases h : entries.get? key with
    | none =>
      simp only [valuesUnder] at ih ⊢
      omega
    | some v =>
      obtain ⟨e, he, rfl⟩ := Option.map_eq_some_iff.1 h
      have := weight_le_of_find he
      simp only [weightItems, valuesUnder] at ih ⊢
      omega

theorem weightItems_append (xs ys : List Json) :
    weightItems (xs ++ ys) = weightItems xs + weightItems ys := by
  induction xs with
  | nil => simp [weightItems]
  | cons x rest ih => simp only [List.cons_append, weightItems, ih]; omega

/-- Objects among values weigh less than the values, each object counting itself. -/
theorem weight_objectsOf_le (values : List Json) :
    weightObjects (objectsOf values) + (objectsOf values).length ≤ weightItems values := by
  induction values with
  | nil => simp [objectsOf, weightObjects, weightItems]
  | cons v rest ih =>
    simp only [objectsOf, List.filterMap_cons] at ih ⊢
    cases v with
    | object entries =>
      simp only [Json.entries?, weightObjects, List.length_cons, weightItems, weight]
      omega
    | _ => simp only [Json.entries?, weightItems, weight]; omega

theorem weight_flatten_le (values : List Json) :
    weightItems (values.filterMap itemsOf?).flatten + (values.filterMap itemsOf?).length ≤
      weightItems values := by
  induction values with
  | nil => simp [weightItems]
  | cons v rest ih =>
    simp only [List.filterMap_cons]
    cases v with
    | array items =>
      simp only [itemsOf?, List.flatten_cons, weightItems_append, List.length_cons, weightItems,
        weight]
      omega
    | _ => simp only [itemsOf?, weightItems, weight]; omega

/-- Items of arrays weigh less than the values that hold the arrays. -/
theorem weight_mergedItems_lt {values items : List Json} (h : mergedItems? values = some items) :
    weightItems items < weightItems values := by
  have hle := weight_flatten_le values
  unfold mergedItems? at h
  split at h
  · simp at h
  · rename_i hne
    cases h
    have : 0 < (values.filterMap itemsOf?).length := List.length_pos_iff.2 hne
    omega

mutual

/-- The type of the values under a key. -/
def inferValues (key : String) (values : List Json) (used : List String) : Inferred Shape :=
  let afterObjects : Inferred (List Shape) :=
    if h : objectsOf values = [] then ⟨[], [], used⟩
    else
      have := List.length_pos_iff.2 h
      let name := freshName used (typeName key)
      let fields := inferFields (objectsOf values) (mergedKeys (objectsOf values)) (name :: used)
      ⟨[.named name], ⟨name, fields.result⟩ :: fields.interfaces, fields.used⟩
  let afterArrays : Inferred (List Shape) :=
    match h : mergedItems? values with
    | none => afterObjects
    | some items =>
      have := weight_mergedItems_lt h
      let inner := inferValues key items afterObjects.used
      ⟨afterObjects.result ++ [.array inner.result], afterObjects.interfaces ++ inner.interfaces,
        inner.used⟩
  { afterArrays with result := .ofMembers (primitivesOf values) afterArrays.result }
termination_by (weightItems values, 0, 0)
decreasing_by
  · apply Prod.Lex.left
    have := weight_objectsOf_le values
    omega
  · apply Prod.Lex.left
    omega

/-- The fields under some of the keys of merged objects. -/
def inferFields (objects : List Json.Entries) (keys : List String) (used : List String) :
    Inferred (List Field) :=
  match keys with
  | [] => ⟨[], [], used⟩
  | key :: rest =>
    let values := valuesUnder key objects
    let field := inferValues key values used
    let more := inferFields objects rest field.used
    ⟨⟨key, field.result, decide (values.length < objects.length)⟩ :: more.result,
      field.interfaces ++ more.interfaces, more.used⟩
termination_by (weightObjects objects, 1, keys.length)
decreasing_by
  · have := weight_valuesUnder_le key objects
    rw [Prod.lex_def, Prod.lex_def]
    simp only
    omega
  · apply Prod.Lex.right
    apply Prod.Lex.right
    simp

end

/-- The declarations for an example value under a root name. An object is declared as an
interface, and any other value as an alias of its type. -/
def Declarations.infer (root : String) (value : Json) : Declarations :=
  match value.entries? with
  | some entries =>
    let fields := inferFields [entries] (mergedKeys [entries]) [root]
    ⟨root, none, ⟨root, fields.result⟩ :: fields.interfaces⟩
  | none =>
    let inferred := inferValues "item" [value] [root]
    ⟨root, some inferred.result, inferred.interfaces⟩

end Workflow.Script
