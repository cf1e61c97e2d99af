import Mathlib.Data.List.Flatten
import Mathlib.Logic.Function.Basic
import Workflow.Proofs.Distinct
import Workflow.Proofs.Inference.Naming

/-!
# Places of merged examples

The examples that are merged for a part of a type are found by going from the root through keys
of objects and items of arrays. Each such place has one type, and a place at which there are
objects has one interface. The interfaces that are inferred are those of the places with objects,
each once.
-/

namespace Workflow.Script

/-! ## Places -/

/-- A part of the values at a place. -/
inductive Part where
  /-- What the objects have under a key. -/
  | field (key : String)
  /-- What is in the arrays. -/
  | items
  deriving DecidableEq, Repr

/-- The way from the root to a place. -/
abbrev ValuePlace := List Part

/-- The examples that are merged for a part. -/
def Part.examples (values : List Json) : Part → List Json
  | .field key => valuesUnder key (objectsOf values)
  | .items => (values.filterMap itemsOf?).flatten

/-- The examples that are merged at a place. -/
def examplesAt (values : List Json) : ValuePlace → List Json
  | [] => values
  | part :: rest => examplesAt (part.examples values) rest

/-- The examples of a part are taken from those of the whole. -/
theorem examplesAt_concat (values : List Json) (p : ValuePlace) (part : Part) :
    examplesAt values (p ++ [part]) = part.examples (examplesAt values p) := by
  induction p generalizing values with
  | nil => rfl
  | cons first rest ih => exact ih (first.examples values)

/-- Where there are no values there are no examples. -/
theorem examplesAt_nil (p : ValuePlace) : examplesAt [] p = [] := by
  induction p with
  | nil => rfl
  | cons first rest ih =>
    cases first with
    | field key => exact ih
    | items => exact ih

/-- Types and names of the places. -/
structure Legend where
  /-- The type of the values at a place. -/
  shape : ValuePlace → Shape
  /-- The name of the interface for the objects at a place. -/
  name : ValuePlace → String

/-- The legend that calls nothing by a name. -/
def Legend.blank : Legend := ⟨fun _ => .primitive .any, fun _ => ""⟩

/-- The legend for some values from those for their parts. -/
def Legend.join (shape : Shape) (name : String) (parts : Part → Legend) : Legend where
  shape
    | [] => shape
    | part :: rest => (parts part).shape rest
  name
    | [] => name
    | part :: rest => (parts part).name rest

/-- The fields for merged objects whose values have certain types. -/
def mergedFields (objects : List Json.Entries) (shape : String → Shape) (keys : List String) :
    List Field :=
  keys.map fun key =>
    ⟨key, shape key, decide ((valuesUnder key objects).length < objects.length)⟩

/-- The members of a type that have parts. -/
def composites (values : List Json) (name : String) (item : Shape) : List Shape :=
  (if objectsOf values = [] then [] else [.named name]) ++
    (if values.filterMap itemsOf? = [] then [] else [.array item])

variable {values : List Json} {l : Legend} {places : List ValuePlace}

/-- The interface for the objects at a place. -/
def Legend.interface (l : Legend) (values : List Json) (p : ValuePlace) : Interface :=
  let objects := objectsOf (examplesAt values p)
  ⟨l.name p, mergedFields objects (fun key => l.shape (p ++ [.field key])) (mergedKeys objects)⟩

/-- A legend gives every place its type, and the places with objects are listed. -/
structure Legend.Explains (l : Legend) (values : List Json) (places : List ValuePlace) : Prop where
  /-- The type of a place is put together from what is merged there. -/
  shape : ∀ p, l.shape p = .ofMembers (primitivesOf (examplesAt values p))
    (composites (examplesAt values p) (l.name p) (l.shape (p ++ [.items])))
  /-- The places with objects. -/
  mem_places : ∀ p, p ∈ places ↔ objectsOf (examplesAt values p) ≠ []

/-- Where there are no values the blank legend explains all. -/
theorem explains_blank : Legend.blank.Explains [] [] where
  shape p := by rw [examplesAt_nil]; rfl
  mem_places p := by simp [examplesAt_nil, objectsOf]

/-- Some values are explained when their parts are. -/
theorem Legend.Explains.join {name : String} {parts : Part → Legend}
    {below : Part → List ValuePlace}
    (h : ∀ part, (parts part).Explains (part.examples values) (below part))
    (hplaces : ∀ p, p ∈ places ↔ match p with
      | [] => objectsOf values ≠ []
      | part :: rest => rest ∈ below part) :
    (Legend.join (.ofMembers (primitivesOf values)
      (composites values name ((parts .items).shape []))) name parts).Explains values places where
  shape p := by
    cases p with
    | nil => rfl
    | cons part rest => exact (h part).shape rest
  mem_places p := by
    rw [hplaces]
    cases p with
    | nil => exact Iff.rfl
    | cons part rest => exact (h part).mem_places rest

/-! ## Inference finds the legend -/

/-- What is inferred for some values is explained by a legend. -/
def Explained (values : List Json) (r : Inferred Shape) : Prop :=
  ∃ (l : Legend) (places : List ValuePlace), l.Explains values places ∧
    r.interfaces = places.map (l.interface values) ∧ r.result = l.shape []

/-- The fields that are inferred for some keys are explained by legends. -/
def FieldsExplained (objects : List Json.Entries) (keys : List String)
    (r : Inferred (List Field)) : Prop :=
  ∃ (legends : String → Legend) (below : String → List ValuePlace),
    (∀ key ∈ keys, (legends key).Explains (valuesUnder key objects) (below key)) ∧
    (∀ key, key ∉ keys → legends key = .blank ∧ below key = []) ∧
    r.interfaces = keys.flatMap (fun key =>
      (below key).map ((legends key).interface (valuesUnder key objects))) ∧
    r.result = mergedFields objects (fun key => (legends key).shape []) keys

theorem fieldsExplained_nil (objects : List Json.Entries) (used : List String) :
    FieldsExplained objects [] ⟨[], [], used⟩ :=
  ⟨fun _ => .blank, fun _ => [], by simp, fun _ _ => ⟨rfl, rfl⟩, rfl, rfl⟩

/-- Fields are explained one by one, each under a key of its own. -/
theorem FieldsExplained.cons {objects : List Json.Entries} {key : String} {rest : List String}
    {field : Inferred Shape} {more : Inferred (List Field)}
    (hfield : Explained (valuesUnder key objects) field)
    (hmore : FieldsExplained objects rest more) (hkey : key ∉ rest) :
    FieldsExplained objects (key :: rest)
      ⟨⟨key, field.result, decide ((valuesUnder key objects).length < objects.length)⟩ ::
        more.result, field.interfaces ++ more.interfaces, more.used⟩ := by
  obtain ⟨l, places, hl, hinterfaces, hresult⟩ := hfield
  obtain ⟨legends, below, hlegends, hblank, hothers, hresults⟩ := hmore
  have hother {k : String} (hk : k ∈ rest) : k ≠ key := fun h => hkey (h ▸ hk)
  refine ⟨Function.update legends key l, Function.update below key places, ?_, ?_, ?_, ?_⟩
  · intro k hk
    rcases List.mem_cons.mp hk with rfl | hk
    · simpa using hl
    · simpa [hother hk] using hlegends k hk
  · intro k hk
    obtain ⟨hne, hk⟩ := not_or.mp (List.mem_cons.not.mp hk)
    simpa [hne] using hblank k hk
  · rw [List.flatMap_cons, Function.update_self, Function.update_self, hinterfaces, hothers]
    refine congrArg (_ ++ ·) (List.flatMap_congr fun k hk => ?_)
    rw [Function.update_of_ne (hother hk), Function.update_of_ne (hother hk)]
  · rw [mergedFields, List.map_cons, Function.update_self, hresults, hresult]
    refine congrArg (_ :: ·) (List.map_congr_left fun k hk => ?_)
    rw [Function.update_of_ne (hother hk)]

/-- Where there are no values anything is inferred, and explained. -/
theorem explained_nil (used : List String) : Explained [] ⟨.primitive .any, [], used⟩ :=
  ⟨.blank, [], explains_blank, rfl, rfl⟩

/-- A key is merged if one of the objects has it. -/
theorem mem_mergedKeys {objects : List Json.Entries} {key : String} :
    key ∈ mergedKeys objects ↔ ∃ entries ∈ objects, entries.has key := by
  simp [mergedKeys, List.mem_eraseDups, Json.Entries.keys, Json.Entries.has]

/-- A key that none of the objects has has no values. -/
theorem valuesUnder_of_not_mem {objects : List Json.Entries} {key : String}
    (h : key ∉ mergedKeys objects) : valuesUnder key objects = [] := by
  refine List.filterMap_eq_nil_iff.mpr fun entries hentries => ?_
  rw [Json.Entries.get?, Option.map_eq_none_iff, List.find?_eq_none]
  intro e he hkey
  exact h (mem_mergedKeys.mpr ⟨entries, hentries, List.any_eq_true.mpr ⟨e, he, hkey⟩⟩)

/-- The interface for merged objects, if there are any, and those that it refers to. -/
def objectInterfaces (objects : List Json.Entries) (name : String)
    (fields : Inferred (List Field)) : List Interface :=
  if objects = [] then [] else ⟨name, fields.result⟩ :: fields.interfaces

/-- The places with objects: the values themselves, if there are objects among them, and the places
below their parts. -/
def placesWithObjects (objects : List Json.Entries) (below : Part → List ValuePlace) :
    List ValuePlace :=
  (if objects = [] then [] else [[]]) ++
    (mergedKeys objects).flatMap (fun key => (below (.field key)).map (.field key :: ·)) ++
    (below .items).map (.items :: ·)

/-- The places with objects are the root and those below a merged key. -/
theorem mem_placesWithObjects_iff {objects : List Json.Entries} {below : Part → List ValuePlace}
    (hbelow : ∀ key, key ∉ mergedKeys objects → below (.field key) = []) (p : ValuePlace) :
    p ∈ placesWithObjects objects below ↔ match p with
      | [] => objects ≠ []
      | part :: rest => rest ∈ below part := by
  rw [placesWithObjects, List.mem_append, List.mem_append, List.mem_ite_nil_left,
    List.mem_singleton]
  cases p with
  | nil => simp
  | cons part rest =>
    cases part with
    | items => simp
    | field key =>
      -- A key that no object has was given no place.
      have hmem : rest ∈ below (.field key) → key ∈ mergedKeys objects := by
        intro hrest
        by_contra hkey
        rw [hbelow key hkey] at hrest
        cases hrest
      simpa using hmem

/-- A legend for the fields of the objects and one for the items of the arrays make a legend. -/
theorem exists_legend (name : String) {fields : Inferred (List Field)} {inner : Inferred Shape}
    (hfields : FieldsExplained (objectsOf values) (mergedKeys (objectsOf values)) fields)
    (hinner : Explained (Part.items.examples values) inner) :
    ∃ (l : Legend) (places : List ValuePlace), l.Explains values places ∧
      objectInterfaces (objectsOf values) name fields ++ inner.interfaces =
        places.map (l.interface values) ∧
      l.shape [] = .ofMembers (primitivesOf values) (composites values name inner.result) ∧
      l.name [] = name := by
  obtain ⟨legends, below, hlegends, hblank, hinterfaces, hresult⟩ := hfields
  obtain ⟨last, lastPlaces, hlast, hitems, hitem⟩ := hinner
  let parts : Part → Legend
    | .field key => legends key
    | .items => last
  let placesOf : Part → List ValuePlace
    | .field key => below key
    | .items => lastPlaces
  have hparts (part : Part) : (parts part).Explains (part.examples values) (placesOf part) := by
    cases part with
    | items => exact hlast
    | field key =>
      by_cases hkey : key ∈ mergedKeys (objectsOf values)
      · exact hlegends key hkey
      · obtain ⟨hlegend, hbelow⟩ := hblank key hkey
        show (legends key).Explains (valuesUnder key (objectsOf values)) (below key)
        rw [hlegend, hbelow, valuesUnder_of_not_mem hkey]
        exact explains_blank
  have hbelow (key : String) (hkey : key ∉ mergedKeys (objectsOf values)) :
      placesOf (.field key) = [] := (hblank key hkey).2
  refine ⟨_, placesWithObjects (objectsOf values) placesOf,
    Legend.Explains.join hparts (mem_placesWithObjects_iff hbelow), ?_, ?_, rfl⟩
  · rw [placesWithObjects, objectInterfaces, List.map_append, List.map_append, List.map_map,
      List.map_flatMap, hitems]
    refine congrArg₂ _ ?_ rfl
    split
    · rename_i hobjects
      simp [hobjects, mergedKeys]
    · rw [hinterfaces, hresult, List.map_singleton]
      refine congrArg₂ List.cons rfl (List.flatMap_congr fun key _ => ?_)
      rw [List.map_map]
      rfl
  · rw [← hitem]
    rfl

/-- No items are put together if none of the values is a list. -/
theorem mergedItems?_eq_none_iff : mergedItems? values = none ↔ values.filterMap itemsOf? = [] := by
  rw [mergedItems?]
  split <;> simp_all

/-- The items that are put together are the examples of the place of items. -/
theorem mergedItems?_eq_some_iff {items : List Json} : mergedItems? values = some items ↔
    values.filterMap itemsOf? ≠ [] ∧ Part.items.examples values = items := by
  rw [mergedItems?, Part.examples]
  split <;> simp_all

/-- The items of the arrays are explained, also where there is no array. -/
theorem exists_explained_inferItems {key : String} (used : List String)
    (hitems : ∀ items, mergedItems? values = some items → ∀ used,
      Explained items (inferValues key items used)) :
    ∃ inner, Explained (Part.items.examples values) inner ∧
      (inferItems key (mergedItems? values) used).interfaces = inner.interfaces ∧
      (inferItems key (mergedItems? values) used).result =
        if values.filterMap itemsOf? = [] then [] else [.array inner.result] := by
  cases hmerged : mergedItems? values with
  | none =>
    have hnone := mergedItems?_eq_none_iff.mp hmerged
    refine ⟨⟨.primitive .any, [], used⟩, ?_, rfl, by simp [inferItems, hnone]⟩
    rw [Part.examples, hnone]
    exact explained_nil used
  | some items =>
    obtain ⟨hsome, rfl⟩ := mergedItems?_eq_some_iff.mp hmerged
    exact ⟨_, hitems _ hmerged used, rfl, by rw [if_neg hsome]; rfl⟩

/-- Values are explained if the fields of their objects and the items of their lists are. -/
theorem Explained.inferValues {key : String} {used : List String}
    (hfields : objectsOf values ≠ [] → ∀ used,
      FieldsExplained (objectsOf values) (mergedKeys (objectsOf values))
        (inferFields (objectsOf values) (mergedKeys (objectsOf values)) used))
    (hitems : ∀ items, mergedItems? values = some items → ∀ used,
      Explained items (inferValues key items used)) :
    Explained values (inferValues key values used) := by
  let name := freshName used (typeName key)
  let fields := inferFields (objectsOf values) (mergedKeys (objectsOf values)) (name :: used)
  have hfields : FieldsExplained (objectsOf values) (mergedKeys (objectsOf values)) fields := by
    by_cases hobjects : objectsOf values = []
    · simp only [fields, hobjects, mergedKeys, List.flatMap_nil, List.eraseDups_nil,
        inferFields_nil]
      exact fieldsExplained_nil _ _
    · exact hfields hobjects _
  have hobjects : (inferObjects key (objectsOf values) used).interfaces =
      objectInterfaces (objectsOf values) name fields := by
    rw [inferObjects, objectInterfaces]
    split <;> rfl
  have hnamed : (inferObjects key (objectsOf values) used).result =
      if objectsOf values = [] then [] else [.named name] := by
    rw [inferObjects]
    split <;> rfl
  rw [inferValues_eq]
  generalize inferObjects key (objectsOf values) used = objects at hobjects hnamed
  obtain ⟨inner, hinner, hinterfaces, hresult⟩ := exists_explained_inferItems objects.used hitems
  obtain ⟨l, places, hl, hall, hshape, -⟩ := exists_legend name hfields hinner
  refine ⟨l, places, hl, ?_, ?_⟩
  · rw [← hall, ← hobjects, ← hinterfaces]
  · rw [hshape, composites, ← hnamed, ← hresult]

/-- What is inferred is explained by a legend. -/
theorem explained_infer : (∀ values key used, Explained values (inferValues key values used)) ∧
    ∀ objects keys, keys.Nodup → ∀ used, FieldsExplained objects keys
      (inferFields objects keys used) := by
  refine examples_induction ?_ ?_ ?_
  · intro values hfields hitems key used
    exact .inferValues (fun hobjects => hfields hobjects (nodup_eraseDups _))
      fun items hmerged => hitems items hmerged key
  · intro objects _ used
    rw [inferFields_nil]
    exact fieldsExplained_nil objects used
  · intro objects key rest hfield hmore hkeys used
    obtain ⟨hkey, hrest⟩ := List.nodup_cons.mp hkeys
    rw [inferFields_cons]
    exact (hmore hrest _).cons (hfield key used) hkey

/-- The type that declarations give the value that they are made for. -/
def Declarations.rootShape (d : Declarations) : Shape := d.aliased.getD (.named d.root)

/-- The declarations for a value are those for all places. -/
theorem Declarations.exists_legend_infer (root : String) (v : Json) :
    ∃ (l : Legend) (places : List ValuePlace), l.Explains [v] places ∧
      (Declarations.infer root v).interfaces = places.map (l.interface [v]) ∧
      (Declarations.infer root v).rootShape = l.shape [] := by
  cases hv : v.entries? with
  | none =>
    rw [infer, hv]
    exact explained_infer.1 [v] "item" [root]
  | some entries =>
    obtain rfl : v = .object entries := by cases v <;> simp_all [Json.entries?]
    have hfields : FieldsExplained (objectsOf [.object entries])
        (mergedKeys (objectsOf [.object entries]))
        (inferFields [entries] (mergedKeys [entries]) [root]) :=
      explained_infer.2 [entries] _ (nodup_eraseDups _) [root]
    have hinner : Explained (Part.items.examples [.object entries]) ⟨.primitive .any, [], []⟩ :=
      explained_nil []
    obtain ⟨l, places, hl, hinterfaces, hshape, -⟩ := exists_legend root hfields hinner
    refine ⟨l, places, hl, ?_, ?_⟩
    · rw [← hinterfaces, List.append_nil]
      rfl
    · rw [hshape]
      rfl

end Workflow.Script
