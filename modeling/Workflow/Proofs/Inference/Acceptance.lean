import Workflow.Proofs.Inference.Merging

/-!
# Inferred types accept their examples

A declaration says which values it accepts. The type of a place accepts all values that are merged
there, and it is no looser than they require: a key is optional only if one of the merged objects
lacks it, each member of a union is there for one of the merged values, and the type of every
value is given only where `null` or nothing at all is merged.
-/

namespace Workflow.Script

/-- A value is of a type. A name stands for a declared interface, which accepts the objects that
have all keys that it requires and no key that it does not declare. -/
inductive Accepts (declared : List Interface) : Shape → Json → Prop
  | any (x : Json) : Accepts declared (.primitive .any) x
  | boolean (b : Bool) : Accepts declared (.primitive .boolean) (.bool b)
  | number (n : Json.Number) : Accepts declared (.primitive .number) (.number n)
  | string (s : String) : Accepts declared (.primitive .string) (.string s)
  | array {item : Shape} {items : List Json} :
      (∀ x ∈ items, Accepts declared item x) → Accepts declared (.array item) (.array items)
  | union {members : List Shape} {member : Shape} {x : Json} :
      member ∈ members → Accepts declared member x → Accepts declared (.union members) x
  | named {i : Interface} {entries : Json.Entries} : i ∈ declared →
      (∀ key, entries.has key → ∃ f ∈ i.fields, f.key = key) →
      (∀ f ∈ i.fields, f.optional = false → entries.has f.key) →
      (∀ f ∈ i.fields, ∀ x, entries.get? f.key = some x → Accepts declared f.shape x) →
      Accepts declared (.named i.name) (.object entries)

/-- The types of which a type is a choice. -/
def Shape.members : Shape → List Shape
  | .union members => members
  | shape => [shape]

/-- An interface declares the keys of merged objects, and a key as optional if one of them lacks
it. -/
structure Interface.Fits (i : Interface) (objects : List Json.Entries) : Prop where
  /-- Each key is declared once. -/
  nodup_keys : (i.fields.map Field.key).Nodup
  /-- The keys are those of the objects. -/
  keys : ∀ key, (∃ f ∈ i.fields, f.key = key) ↔ ∃ entries ∈ objects, entries.has key
  /-- A key is optional if an object lacks it. -/
  optional : ∀ f ∈ i.fields, f.optional = true ↔ ∃ entries ∈ objects, entries.has f.key = false

/-- The declarations for a value, read with a legend that gives each place its type and each place
with objects the name of its interface. -/
structure Declarations.Describes (d : Declarations) (v : Json) (l : Legend) : Prop where
  /-- The value itself is at the root. -/
  root : d.rootShape = l.shape []
  /-- Every value is accepted where it is merged. -/
  accepts : ∀ p, ∀ x ∈ examplesAt [v] p, Accepts d.interfaces (l.shape p) x
  /-- Every object is accepted by the interface of its place, even where its type is looser. -/
  object : ∀ p entries, .object entries ∈ examplesAt [v] p →
    Accepts d.interfaces (.named (l.name p)) (.object entries)
  /-- Every array is accepted by the array type of its place, even where its type is looser. -/
  array : ∀ p items, .array items ∈ examplesAt [v] p →
    Accepts d.interfaces (.array (l.shape (p ++ [.items]))) (.array items)
  /-- A type is primitive, the interface of its place, the array type of its place, or a choice
  between these. -/
  members : ∀ p, ∀ m ∈ (l.shape p).members, (∃ q, m = .primitive q) ∨ m = .named (l.name p) ∨
    m = .array (l.shape (p ++ [.items]))
  /-- Every member of a union accepts one of the values that are merged. -/
  inhabited : ∀ p members, l.shape p = .union members → ∀ m ∈ members,
    ∃ x ∈ examplesAt [v] p, Accepts d.interfaces m x
  /-- Only `null` and nothing at all have the type of every value. -/
  any : ∀ p, l.shape p = .primitive .any ↔ examplesAt [v] p = [] ∨ .null ∈ examplesAt [v] p
  /-- No two interfaces have the same name. -/
  nodup_names : (d.interfaces.map Interface.name).Nodup
  /-- An interface is that of one place, where there are objects, and its fields have the types of
  the places under their keys. -/
  interface : ∀ i ∈ d.interfaces, ∃ p, objectsOf (examplesAt [v] p) ≠ [] ∧ i.name = l.name p ∧
    (∀ q, objectsOf (examplesAt [v] q) ≠ [] → l.name q = i.name → q = p) ∧
    i.Fits (objectsOf (examplesAt [v] p)) ∧
    ∀ f ∈ i.fields, f.shape = l.shape (p ++ [.field f.key])

/-! ## Members -/

/-- A value of a primitive type is accepted by the type. -/
theorem Primitive.accepts_of_primitiveOf {declared : List Interface} {x : Json} {q : Primitive}
    (h : primitiveOf x = some q) : Accepts declared (.primitive q) x := by
  cases x <;> simp only [primitiveOf, Option.some.injEq, reduceCtorEq] at h <;> subst h
  · exact .any _
  · exact .boolean _
  · exact .number _
  · exact .string _

variable {declared : List Interface} {primitives : List Primitive} {others : List Shape}
  {members : List Shape} {member : Shape} {x : Json}

/-- A type accepts what one of its members accepts. -/
theorem Accepts.ofMembers (hmember : member ∈ primitives.map .primitive ++ others)
    (h : Accepts declared member x) : Accepts declared (.ofMembers primitives others) x := by
  rw [Shape.ofMembers]
  split
  · exact .any x
  · split
    · exact .any x
    · rename_i only heq
      rw [heq] at hmember
      exact List.mem_singleton.mp hmember ▸ h
    · exact .union hmember h

/-- A choice between types that are no choices is one between just these, unless it is the type of
every value. -/
theorem Shape.members_ofMembers (h : ∀ m ∈ others, m.isUnion = false) :
    Shape.ofMembers primitives others = .primitive .any ∨
      (Shape.ofMembers primitives others).members = primitives.map .primitive ++ others := by
  rw [ofMembers]
  split
  · exact .inl rfl
  · split
    · exact .inl rfl
    · rename_i only heq
      right
      have hunion : only.isUnion = false := by
        have hmem : only ∈ primitives.map Shape.primitive ++ others := by simp [heq]
        rcases List.mem_append.mp hmem with hmem | hmem
        · obtain ⟨q, -, rfl⟩ := List.mem_map.mp hmem
          rfl
        · exact h only hmem
      rw [heq]
      cases only with
      | union => cases hunion
      | primitive | named | array => rfl
    · exact .inr rfl

/-- The type of some members is that of anything exactly if one member is, or if there are none. -/
theorem Shape.ofMembers_eq_any_iff (h : .primitive .any ∉ others) :
    Shape.ofMembers primitives others = .primitive .any ↔
      .any ∈ primitives ∨ primitives = [] ∧ others = [] := by
  by_cases hany : .any ∈ primitives
  · simp [ofMembers, hany]
  · have hmembers : .primitive .any ∉ primitives.map Shape.primitive ++ others := by
      simp [hany, h]
    have hcontains : ¬primitives.contains .any := by simpa using hany
    rw [ofMembers, if_neg hcontains]
    split
    · rename_i heq
      simpa [hany] using heq
    · rename_i only heq
      have hne : only ≠ .primitive .any := by
        rintro rfl
        simp [heq] at hmembers
      have hsome : ¬(primitives = [] ∧ others = []) := by
        rintro ⟨rfl, rfl⟩
        cases heq
      simp [hany, hne, hsome]
    · rename_i hempty _
      have hsome : ¬(primitives = [] ∧ others = []) := by
        rintro ⟨rfl, rfl⟩
        exact hempty rfl
      simp [hany, hsome]

/-! ## Values -/

theorem get?_eq_none_iff {entries : Json.Entries} {key : String} :
    entries.get? key = none ↔ entries.has key = false := by
  simp [Json.Entries.get?, Json.Entries.has]

/-- The objects among the values are those that are merged. -/
theorem object_mem_iff {values : List Json} {entries : Json.Entries} :
    .object entries ∈ values ↔ entries ∈ objectsOf values := by
  rw [objectsOf, List.mem_filterMap]
  constructor
  · exact fun h => ⟨_, h, rfl⟩
  · rintro ⟨x, hx, heq⟩
    cases x <;> simp only [Json.entries?, Option.some.injEq, reduceCtorEq] at heq
    exact heq ▸ hx

/-- The lists among the values are those whose items are put together. -/
theorem array_mem_iff {values : List Json} {items : List Json} :
    .array items ∈ values ↔ items ∈ values.filterMap itemsOf? := by
  rw [List.mem_filterMap]
  constructor
  · exact fun h => ⟨_, h, rfl⟩
  · rintro ⟨x, hx, heq⟩
    cases x <;> simp only [itemsOf?, Option.some.injEq, reduceCtorEq] at heq
    exact heq ▸ hx

/-- The primitive type of a value is one of those that are found. -/
theorem mem_primitivesOf {values : List Json} {q : Primitive} (hx : x ∈ values)
    (hq : primitiveOf x = some q) : q ∈ primitivesOf values :=
  List.mem_eraseDups.mpr (List.mem_filterMap.mpr ⟨x, hx, hq⟩)

/-- Anything is found as a type exactly if one of the values is null. -/
theorem any_mem_primitivesOf_iff {values : List Json} :
    .any ∈ primitivesOf values ↔ .null ∈ values := by
  rw [primitivesOf, List.mem_eraseDups, List.mem_filterMap]
  constructor
  · rintro ⟨x, hx, heq⟩
    cases x <;> simp only [primitiveOf, Option.some.injEq, reduceCtorEq] at heq
    exact hx
  · exact fun h => ⟨_, h, rfl⟩

/-- The value of a key is smaller than the object. -/
theorem weight_lt_of_get? {entries : Json.Entries} {key : String} (h : entries.get? key = some x) :
    weight x < weight (.object entries) := by
  obtain ⟨e, he, rfl⟩ := Option.map_eq_some_iff.mp h
  have hle := weight_le_of_find he
  rw [weight]
  omega

/-- An item is smaller than its list. -/
theorem weight_lt_of_mem {items : List Json} (h : x ∈ items) :
    weight x < weight (.array items) := by
  have hle : weight x ≤ weightItems items := by
    induction items with
    | nil => cases h
    | cons first rest ih =>
      rw [weightItems]
      rcases List.mem_cons.mp h with rfl | h
      · omega
      · have := ih h
        omega
  rw [weight]
  omega

/-! ## Places -/

variable {values : List Json} {l : Legend} {places : List ValuePlace}

/-- There are objects to be merged exactly if one of the values is one. -/
theorem objectsOf_ne_nil_iff : objectsOf values ≠ [] ↔ ∃ entries, .object entries ∈ values := by
  constructor
  · intro h
    obtain ⟨entries, hentries⟩ := List.exists_mem_of_ne_nil _ h
    exact ⟨entries, object_mem_iff.mpr hentries⟩
  · rintro ⟨entries, hentries⟩
    exact List.ne_nil_of_mem (object_mem_iff.mp hentries)

/-- There are lists to be put together exactly if one of the values is one. -/
theorem arrays_ne_nil_iff : values.filterMap itemsOf? ≠ [] ↔ ∃ items, .array items ∈ values := by
  constructor
  · intro h
    obtain ⟨items, hitems⟩ := List.exists_mem_of_ne_nil _ h
    exact ⟨items, array_mem_iff.mpr hitems⟩
  · rintro ⟨items, hitems⟩
    exact List.ne_nil_of_mem (array_mem_iff.mp hitems)

/-- The members with parts are the interface, if there is an object, and the array type, if there
is an array. -/
theorem mem_composites_iff {name : String} {item : Shape} : member ∈ composites values name item ↔
    (∃ entries, .object entries ∈ values) ∧ member = .named name ∨
      (∃ items, .array items ∈ values) ∧ member = .array item := by
  rw [composites, List.mem_append, List.mem_ite_nil_left, List.mem_ite_nil_left,
    List.mem_singleton, List.mem_singleton, ← objectsOf_ne_nil_iff, ← arrays_ne_nil_iff]

/-- No member of a union is one itself. -/
theorem isUnion_of_mem_composites {name : String} {item : Shape}
    (h : member ∈ composites values name item) : member.isUnion = false := by
  rcases mem_composites_iff.mp h with ⟨-, rfl⟩ | ⟨-, rfl⟩ <;> rfl

/-- The interface of a place fits the objects that are merged there. -/
theorem Legend.fits_interface (l : Legend) (values : List Json) (p : ValuePlace) :
    (l.interface values p).Fits (objectsOf (examplesAt values p)) := by
  have hkeys : (l.interface values p).fields.map Field.key =
      mergedKeys (objectsOf (examplesAt values p)) := by
    rw [interface, mergedFields, List.map_map]
    exact List.map_id _
  refine ⟨hkeys ▸ nodup_eraseDups _, fun key => ?_, fun f hf => ?_⟩
  · rw [← mem_mergedKeys, ← hkeys, List.mem_map]
  · obtain ⟨key, -, rfl⟩ := List.mem_map.mp hf
    simp only [decide_eq_true_eq, valuesUnder, List.length_filterMap_lt_length_iff_exists,
      get?_eq_none_iff, exists_prop]

namespace Legend.Explains

variable (hl : l.Explains values places) {p : ValuePlace} {entries : Json.Entries}
  {items : List Json}
  (hdeclared : ∀ p ∈ places, l.interface values p ∈ declared)

include hl in
/-- What a member accepts the type of the place accepts. -/
theorem accepts_member (hmember : member ∈ (primitivesOf (examplesAt values p)).map .primitive ++
      composites (examplesAt values p) (l.name p) (l.shape (p ++ [.items])))
    (h : Accepts declared member x) : Accepts declared (l.shape p) x := by
  rw [hl.shape p]
  exact h.ofMembers hmember

include hl hdeclared in
/-- An object is accepted by the interface of its place if its values are accepted. -/
theorem accepts_named (hentries : .object entries ∈ examplesAt values p)
    (h : ∀ key y, entries.get? key = some y → y ∈ examplesAt values (p ++ [.field key]) →
      Accepts declared (l.shape (p ++ [.field key])) y) :
    Accepts declared (.named (l.name p)) (.object entries) := by
  have hobject := object_mem_iff.mp hentries
  have hplace : p ∈ places := (hl.mem_places p).mpr (List.ne_nil_of_mem hobject)
  have hfits := l.fits_interface values p
  refine .named (hdeclared p hplace) ?_ ?_ ?_
  · exact fun key hkey => (hfits.keys key).mpr ⟨entries, hobject, hkey⟩
  · intro f hf hrequired
    by_contra hlacks
    have hoptional := (hfits.optional f hf).mpr ⟨entries, hobject, by simpa using hlacks⟩
    rw [hrequired] at hoptional
    cases hoptional
  · intro f hf y hy
    obtain ⟨key, -, rfl⟩ := List.mem_map.mp hf
    refine h key y hy ?_
    rw [examplesAt_concat]
    exact List.mem_filterMap.mpr ⟨entries, hobject, hy⟩

/-- An item of an example is an example of the place of items. -/
theorem mem_items (hitems : .array items ∈ examplesAt values p) (hx : x ∈ items) :
    x ∈ examplesAt values (p ++ [.items]) := by
  rw [examplesAt_concat]
  exact List.mem_flatten.mpr ⟨items, array_mem_iff.mp hitems, hx⟩

include hl hdeclared in
/-- Every value is accepted where it is merged. -/
theorem accepts (hx : x ∈ examplesAt values p) : Accepts declared (l.shape p) x := by
  induction hn : weight x using Nat.strongRecOn generalizing x p with
  | _ n ih =>
    cases x with
    | null | bool | number | string =>
      refine hl.accepts_member (List.mem_append_left _ ?_) (Primitive.accepts_of_primitiveOf rfl)
      exact List.mem_map_of_mem (mem_primitivesOf hx rfl)
    | array items =>
      have harray : Accepts declared (.array (l.shape (p ++ [.items]))) (.array items) :=
        .array fun y hy => ih _ (hn ▸ weight_lt_of_mem hy) (mem_items hx hy) rfl
      exact hl.accepts_member
        (List.mem_append_right _ (mem_composites_iff.mpr (.inr ⟨⟨items, hx⟩, rfl⟩))) harray
    | object entries =>
      have hobject : Accepts declared (.named (l.name p)) (.object entries) :=
        hl.accepts_named hdeclared hx fun key y hy hmem =>
          ih _ (hn ▸ weight_lt_of_get? hy) hmem rfl
      exact hl.accepts_member
        (List.mem_append_right _ (mem_composites_iff.mpr (.inl ⟨⟨entries, hx⟩, rfl⟩))) hobject

include hl hdeclared in
/-- An object that is an example of a place is accepted by the interface of the place. -/
theorem accepts_object (hentries : .object entries ∈ examplesAt values p) :
    Accepts declared (.named (l.name p)) (.object entries) :=
  hl.accepts_named hdeclared hentries fun _ _ _ hy => hl.accepts hdeclared hy

include hl hdeclared in
/-- A list that is an example of a place is accepted by the type of its items. -/
theorem accepts_array (hitems : .array items ∈ examplesAt values p) :
    Accepts declared (.array (l.shape (p ++ [.items]))) (.array items) :=
  .array fun _ hy => hl.accepts hdeclared (mem_items hitems hy)

include hl hdeclared in
/-- A member of a type is there for one of the values that are merged. -/
theorem exists_accepted (hmember : member ∈ (primitivesOf (examplesAt values p)).map .primitive ++
      composites (examplesAt values p) (l.name p) (l.shape (p ++ [.items]))) :
    ∃ x ∈ examplesAt values p, Accepts declared member x := by
  rcases List.mem_append.mp hmember with hprimitive | hcomposite
  · obtain ⟨q, hq, rfl⟩ := List.mem_map.mp hprimitive
    obtain ⟨x, hx, hxq⟩ := List.mem_filterMap.mp (List.mem_eraseDups.mp hq)
    exact ⟨x, hx, Primitive.accepts_of_primitiveOf hxq⟩
  · rcases mem_composites_iff.mp hcomposite with ⟨⟨entries, hentries⟩, rfl⟩ | ⟨⟨items, hitems⟩, rfl⟩
    · exact ⟨_, hentries, hl.accepts_object hdeclared hentries⟩
    · exact ⟨_, hitems, hl.accepts_array hdeclared hitems⟩

include hl in
/-- What is merged at a place has the members of its type, unless this is the type of every
value. -/
theorem shape_eq_any_or_members (p : ValuePlace) : l.shape p = .primitive .any ∨
    (l.shape p).members = (primitivesOf (examplesAt values p)).map .primitive ++
      composites (examplesAt values p) (l.name p) (l.shape (p ++ [.items])) := by
  rw [hl.shape p]
  exact Shape.members_ofMembers fun _ hm => isUnion_of_mem_composites hm

include hl in
/-- A member of the type of a place is primitive, an interface or a list. -/
theorem eq_of_mem_members (hmember : member ∈ (l.shape p).members) :
    (∃ q, member = .primitive q) ∨ member = .named (l.name p) ∨
      member = .array (l.shape (p ++ [.items])) := by
  rcases hl.shape_eq_any_or_members p with hany | hmembers
  · rw [hany] at hmember
    exact .inl ⟨.any, List.mem_singleton.mp hmember⟩
  · rw [hmembers] at hmember
    rcases List.mem_append.mp hmember with hprimitive | hcomposite
    · obtain ⟨q, -, rfl⟩ := List.mem_map.mp hprimitive
      exact .inl ⟨q, rfl⟩
    · rcases mem_composites_iff.mp hcomposite with ⟨-, rfl⟩ | ⟨-, rfl⟩
      · exact .inr (.inl rfl)
      · exact .inr (.inr rfl)

include hl in
/-- The type of a place is that of anything exactly if nothing is known of it or null stands there.
-/
theorem shape_eq_any_iff (p : ValuePlace) : l.shape p = .primitive .any ↔
    examplesAt values p = [] ∨ .null ∈ examplesAt values p := by
  have hcomposites : .primitive .any ∉
      composites (examplesAt values p) (l.name p) (l.shape (p ++ [.items])) := by
    simp [mem_composites_iff]
  rw [hl.shape p, Shape.ofMembers_eq_any_iff hcomposites, any_mem_primitivesOf_iff, or_comm]
  refine or_congr ⟨fun ⟨hprimitives, hnone⟩ => ?_, fun h => ?_⟩ Iff.rfl
  · -- A value without a primitive type is an object or an array.
    refine List.eq_nil_iff_forall_not_mem.mpr fun x hx => ?_
    cases x with
    | null | bool | number | string =>
      exact List.ne_nil_of_mem (mem_primitivesOf hx rfl) hprimitives
    | array items =>
      exact List.ne_nil_of_mem (mem_composites_iff.mpr (.inr ⟨⟨items, hx⟩, rfl⟩)) hnone
    | object entries =>
      exact List.ne_nil_of_mem (mem_composites_iff.mpr (.inl ⟨⟨entries, hx⟩, rfl⟩)) hnone
  · rw [h]
    exact ⟨rfl, rfl⟩

end Legend.Explains

/-- Inferred types accept the examples that they are inferred from and are no looser than these
require. -/
theorem Declarations.describes_infer (root : String) (v : Json) :
    Accepts (Declarations.infer root v).interfaces (Declarations.infer root v).rootShape v ∧
      ∃ l, (Declarations.infer root v).Describes v l := by
  obtain ⟨l, places, hl, hinterfaces, hroot⟩ := exists_legend_infer root v
  have hdeclared : ∀ p ∈ places, l.interface [v] p ∈ (Declarations.infer root v).interfaces := by
    intro p hp
    rw [hinterfaces]
    exact List.mem_map_of_mem hp
  have hnames : ((Declarations.infer root v).interfaces.map Interface.name).Nodup := by
    obtain ⟨taken, hnames, hnodup, -⟩ := exists_names_infer root v
    exact (hnames ▸ hnodup).sublist (List.sublist_append_right _ _)
  refine ⟨?_, l, ?_⟩
  · rw [hroot]
    exact hl.accepts hdeclared (List.mem_singleton_self v)
  · exact {
      root := hroot
      accepts := fun p x hx => hl.accepts hdeclared hx
      object := fun p entries hentries => hl.accepts_object hdeclared hentries
      array := fun p items hitems => hl.accepts_array hdeclared hitems
      members := fun p m hm => hl.eq_of_mem_members hm
      inhabited := by
        intro p members hunion m hm
        rcases hl.shape_eq_any_or_members p with hany | hmembers
        · rw [hunion] at hany
          cases hany
        · rw [hunion] at hmembers
          exact hl.exists_accepted hdeclared (hmembers ▸ hm)
      any := hl.shape_eq_any_iff
      nodup_names := hnames
      interface := by
        intro i hi
        rw [hinterfaces] at hi
        obtain ⟨p, hp, rfl⟩ := List.mem_map.mp hi
        refine ⟨p, (hl.mem_places p).mp hp, rfl, fun q hq hname => ?_, l.fits_interface [v] p, ?_⟩
        · rw [hinterfaces, List.map_map] at hnames
          exact List.inj_on_of_nodup_map hnames ((hl.mem_places q).mpr hq) hp hname
        · intro f hf
          obtain ⟨key, -, rfl⟩ := List.mem_map.mp hf
          rfl }

end Workflow.Script
