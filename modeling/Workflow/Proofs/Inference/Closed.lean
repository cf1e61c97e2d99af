import Workflow.Proofs.Inference.Rendering
import Workflow.Proofs.Inference.Merging
import Workflow.Proofs.Json.WrittenText

/-!
# Inferred declarations are closed

An interface is listed before the ones that its fields refer to, and its name is taken before
theirs are. In the end every name that a type refers to is declared, and declared once. The fields
of an interface have different keys, and different keys are written differently.
-/

namespace Workflow

/-- Different texts are written differently between quotes. -/
theorem Json.writeText_injective {s t : String} (h : Json.writeText s = Json.writeText t) :
    s = t := by
  have hs := Json.leaves_readText s []
  rw [(List.cons.inj h).2] at hs
  obtain ⟨_, hs⟩ := hs
  obtain ⟨_, ht⟩ := Json.leaves_readText t []
  simpa using hs.symm.trans ht

namespace Script

variable {name key : String}

/-! ## Keys -/

/-- A key is written between quotes unless it starts as a name does. -/
theorem renderKey_eq_or (key : String) : renderKey key = (Json.string key).compact ∨
    renderKey key = key ∧ ∀ c ∈ key.toList.head?, isKeyStart c = true := by
  unfold renderKey
  split
  · rename_i c rest htext
    split
    · rename_i hplain
      rw [Bool.and_eq_true] at hplain
      exact .inr ⟨rfl, by simpa [htext] using hplain.1⟩
    · exact .inl rfl
  · exact .inl rfl

theorem head?_compact_string (s : String) : (Json.string s).compact.toList.head? = some '"' := by
  rw [Json.compact, Json.compactChars, Json.writeText, String.toList_ofList, List.head?_cons]

/-- Different keys are written differently, since no key that is written as it is starts with a
quote. -/
theorem renderKey_injective {k l : String} (h : renderKey k = renderKey l) : k = l := by
  have hapart {plain quoted : String} (hstart : ∀ c ∈ plain.toList.head?, isKeyStart c = true) :
      plain ≠ (Json.string quoted).compact := by
    intro heq
    rw [heq, head?_compact_string] at hstart
    exact absurd (hstart '"' rfl) (by decide)
  obtain hk | ⟨hk, hkstart⟩ := renderKey_eq_or k <;> obtain hl | ⟨hl, hlstart⟩ := renderKey_eq_or l
  · rw [hk, hl, Json.compact, Json.compact, Json.compactChars, Json.compactChars] at h
    exact Json.writeText_injective (String.ofList_injective h)
  · exact absurd (hl.symm.trans (h.symm.trans hk)) (hapart hlstart)
  · exact absurd (hk.symm.trans (h.trans hl)) (hapart hkstart)
  · rw [← hk, h, hl]

/-! ## Mentions -/

/-- A type refers to an interface. -/
inductive Shape.Mentions : Shape → String → Prop
  | named (name : String) : Mentions (.named name) name
  | array {item : Shape} {name : String} : Mentions item name → Mentions (.array item) name
  | union {members : List Shape} {member : Shape} {name : String} :
      member ∈ members → Mentions member name → Mentions (.union members) name

namespace Shape

variable {p : Primitive} {item : Shape} {other : String}

@[simp] theorem not_mentions_primitive : ¬ (primitive p).Mentions name := nofun

@[simp] theorem mentions_named_iff : (named other).Mentions name ↔ name = other := by
  constructor
  · rintro ⟨⟩
    rfl
  · rintro rfl
    exact .named name

@[simp] theorem mentions_array_iff : (array item).Mentions name ↔ item.Mentions name := by
  constructor
  · rintro (_ | h)
    exact h
  · exact .array

/-- A type that is made of members refers to what they refer to, and primitive members refer to
nothing. -/
theorem exists_mentions_of_ofMembers {primitives : List Primitive} {composites : List Shape}
    (h : (ofMembers primitives composites).Mentions name) : ∃ m ∈ composites, m.Mentions name := by
  have hall {m : Shape} (hm : m ∈ primitives.map .primitive ++ composites)
      (hname : m.Mentions name) : ∃ m ∈ composites, m.Mentions name := by
    rcases List.mem_append.mp hm with hm | hm
    · obtain ⟨p, -, rfl⟩ := List.mem_map.mp hm
      exact absurd hname not_mentions_primitive
    · exact ⟨m, hm, hname⟩
  rw [ofMembers] at h
  split at h
  · exact absurd h not_mentions_primitive
  · split at h
    · exact absurd h not_mentions_primitive
    · rename_i heq
      exact hall (heq ▸ List.mem_singleton_self _) h
    · obtain _ | _ | ⟨hm, hname⟩ := h
      exact hall hm hname

end Shape

/-! ## What is referred to is declared -/

namespace Interface

/-- The fields refer to interfaces of a list only, and no two have the same key. -/
structure ClosedIn (names : List String) (i : Interface) : Prop where
  declared : ∀ f ∈ i.fields, ∀ name, f.shape.Mentions name → name ∈ names
  nodup_keys : (i.fields.map Field.key).Nodup

theorem ClosedIn.mono {names more : List String} {i : Interface} (h : i.ClosedIn names)
    (hsub : names ⊆ more) : i.ClosedIn more :=
  ⟨fun f hf name hname => hsub (h.declared f hf name hname), h.nodup_keys⟩

end Interface

namespace Inferred

variable {α β γ : Type}

/-- What is inferred and the interfaces for it refer to these interfaces only. -/
structure Closed (mentions : α → String → Prop) (r : Inferred α) : Prop where
  result : ∀ name, mentions r.result name → name ∈ r.names
  interfaces : ∀ i ∈ r.interfaces, i.ClosedIn r.names

/-- Parts that are closed make a whole that is. -/
theorem Closed.append {P : α → String → Prop} {Q : β → String → Prop} {R : γ → String → Prop}
    {r : Inferred α} {t : Inferred β} {result : γ} (hr : r.Closed P) (ht : t.Closed Q)
    (hresult : ∀ name, R result name → P r.result name ∨ Q t.result name) :
    (⟨result, r.interfaces ++ t.interfaces, t.used⟩ : Inferred γ).Closed R := by
  have hnames : (⟨result, r.interfaces ++ t.interfaces, t.used⟩ : Inferred γ).names =
      r.names ++ t.names := List.map_append
  refine ⟨fun name hname => ?_, List.forall_mem_append.mpr ⟨fun i hi => ?_, fun i hi => ?_⟩⟩ <;>
    rw [hnames]
  · exact List.mem_append.mpr ((hresult name hname).imp (hr.result name) (ht.result name))
  · exact (hr.interfaces i hi).mono (List.subset_append_left _ _)
  · exact (ht.interfaces i hi).mono (List.subset_append_right _ _)

end Inferred

open Inferred

/-- A type refers to an interface in one of many members. -/
def MembersMention (members : List Shape) (name : String) : Prop :=
  ∃ m ∈ members, m.Mentions name

/-- A type of one of many fields refers to an interface. -/
def FieldsMention (fields : List Field) (name : String) : Prop :=
  ∃ f ∈ fields, f.shape.Mentions name

/-- Fields are inferred for the keys in order. -/
theorem keys_inferFields (objects : List Json.Entries) (keys used : List String) :
    (inferFields objects keys used).result.map Field.key = keys := by
  induction keys generalizing used with
  | nil => rw [inferFields_nil, List.map_nil]
  | cons key rest ih => rw [inferFields_cons, List.map_cons, ih]

/-- An interface for merged objects is closed when what is inferred for its fields is. -/
theorem closed_interface {objects : List Json.Entries} {used : List String}
    (h : (inferFields objects (mergedKeys objects) used).Closed FieldsMention) (name : String) :
    ∀ i ∈ (⟨name, (inferFields objects (mergedKeys objects) used).result⟩ : Interface) ::
        (inferFields objects (mergedKeys objects) used).interfaces,
      i.ClosedIn (name :: (inferFields objects (mergedKeys objects) used).names) := by
  refine List.forall_mem_cons.mpr ⟨⟨fun f hf other hother => ?_, ?_⟩, fun i hi => ?_⟩
  · exact List.mem_cons_of_mem name (h.result other ⟨f, hf, hother⟩)
  · rw [keys_inferFields]
    exact nodup_eraseDups _
  · exact (h.interfaces i hi).mono (List.subset_cons_self _ _)

theorem closed_inferObjects {objects : List Json.Entries} {used : List String}
    (h : objects ≠ [] → ∀ used,
      (inferFields objects (mergedKeys objects) used).Closed FieldsMention) :
    (inferObjects key objects used).Closed MembersMention := by
  rw [inferObjects]
  split
  · exact ⟨by simp [MembersMention], by simp⟩
  · rename_i hobjects
    have hclosed := h hobjects (freshName used (typeName key) :: used)
    refine ⟨?_, closed_interface hclosed _⟩
    rintro name ⟨m, hm, hname⟩
    obtain rfl := List.mem_singleton.mp hm
    obtain rfl := Shape.mentions_named_iff.mp hname
    exact List.mem_cons_self

theorem closed_inferItems {items? : Option (List Json)} {used : List String}
    (h : ∀ items, items? = some items → ∀ used,
      (inferValues key items used).Closed Shape.Mentions) :
    (inferItems key items? used).Closed MembersMention := by
  cases items? with
  | none => exact ⟨by simp [inferItems, MembersMention], by simp [inferItems]⟩
  | some items =>
    obtain ⟨hitem, hinterfaces⟩ := h items rfl used
    refine ⟨?_, hinterfaces⟩
    rintro name ⟨m, hm, hname⟩
    obtain rfl := List.mem_singleton.mp hm
    exact hitem name (Shape.mentions_array_iff.mp hname)

/-- Whatever is inferred refers only to interfaces that are inferred with it. -/
theorem closed_infer :
    (∀ values key used, (inferValues key values used).Closed Shape.Mentions) ∧
    ∀ objects keys used, (inferFields objects keys used).Closed FieldsMention := by
  refine examples_induction ?_ ?_ ?_
  · intro values hfields hitems key used
    have hobjects : (inferObjects key (objectsOf values) used).Closed MembersMention :=
      closed_inferObjects fun hobjects => hfields hobjects
    rw [inferValues_eq]
    generalize inferObjects key (objectsOf values) used = objects at hobjects
    have harrays : (inferItems key (mergedItems? values) objects.used).Closed MembersMention :=
      closed_inferItems fun items h => hitems items h key
    refine hobjects.append harrays fun name hname => ?_
    obtain ⟨m, hm, hname⟩ := Shape.exists_mentions_of_ofMembers hname
    exact (List.mem_append.mp hm).imp (⟨m, ·, hname⟩) (⟨m, ·, hname⟩)
  · intro objects used
    rw [inferFields_nil]
    exact ⟨by simp [FieldsMention], by simp⟩
  · intro objects key rest hfield hmore used
    rw [inferFields_cons]
    refine (hfield key used).append (hmore _) fun name hname => ?_
    obtain ⟨f, hf, hname⟩ := hname
    rcases List.mem_cons.mp hf with rfl | hf
    · exact .inl hname
    · exact .inr ⟨f, hf, hname⟩

namespace Declarations

/-- The names of the interfaces. -/
def interfaceNames (d : Declarations) : List String := d.interfaces.map Interface.name

/-- The declarations are complete and declare nothing twice. -/
structure Closed (d : Declarations) : Prop where
  /-- No name is declared twice, be it that of an interface or the one for the value. -/
  nodup_names : d.names.Nodup
  /-- What an alias refers to is declared as an interface, once. -/
  alias_declared : ∀ shape ∈ d.aliased, ∀ name, shape.Mentions name →
    d.interfaceNames.count name = 1
  /-- What a field refers to is declared as an interface, once. -/
  field_declared : ∀ i ∈ d.interfaces, ∀ f ∈ i.fields, ∀ name, f.shape.Mentions name →
    d.interfaceNames.count name = 1
  /-- No two fields of an interface have the same key. -/
  nodup_keys : ∀ i ∈ d.interfaces, (i.fields.map Field.key).Nodup
  /-- No two fields of an interface are written with the same key. -/
  nodup_written : ∀ i ∈ d.interfaces, (i.fields.map fun f => renderKey f.key).Nodup
  /-- The name of an interface for a part of the value is an identifier. -/
  isTypeName : ∀ i ∈ d.interfaces, i.name ≠ d.root → IsTypeName i.name

/-- What refers only to interfaces that are there refers to interfaces that are there once. -/
theorem Closed.of_subset {d : Declarations} (hnames : d.names.Nodup)
    (halias : ∀ shape ∈ d.aliased, ∀ name, shape.Mentions name → name ∈ d.interfaceNames)
    (hclosed : ∀ i ∈ d.interfaces, i.ClosedIn d.interfaceNames)
    (hident : ∀ i ∈ d.interfaces, i.name ≠ d.root → IsTypeName i.name) : d.Closed := by
  have hnodup : d.interfaceNames.Nodup := hnames.sublist (List.sublist_append_right _ _)
  exact {
    nodup_names := hnames
    alias_declared := fun shape hshape name hname =>
      List.count_eq_one_of_mem hnodup (halias shape hshape name hname)
    field_declared := fun i hi f hf name hname =>
      List.count_eq_one_of_mem hnodup ((hclosed i hi).declared f hf name hname)
    nodup_keys := fun i hi => (hclosed i hi).nodup_keys
    nodup_written := fun i hi => by
      have hkeys := (hclosed i hi).nodup_keys.map @renderKey_injective
      rwa [List.map_map] at hkeys
    isTypeName := hident }

theorem root_infer (root : String) (v : Json) : (Declarations.infer root v).root = root := by
  rw [infer]
  cases v.entries? <;> rfl

/-- The declarations for a value are closed: interfaces have names of their own, what a type refers
to is declared once, and so is each key. -/
theorem infer_closed (root : String) (v : Json) : (Declarations.infer root v).Closed := by
  obtain ⟨taken, hnames, hnodup, hfresh⟩ := exists_names_infer root v
  have hident : ∀ i ∈ (Declarations.infer root v).interfaces,
      i.name ≠ (Declarations.infer root v).root → IsTypeName i.name := by
    intro i hi hne
    have hmem : i.name ∈ root :: taken :=
      hnames ▸ List.mem_append_right _ (List.mem_map_of_mem hi)
    rw [root_infer] at hne
    obtain ⟨used, key, hname⟩ := hfresh i.name ((List.mem_cons.mp hmem).resolve_left hne)
    exact hname ▸ isTypeName_freshName used key
  obtain hvalue | ⟨entries, hvalue⟩ := Option.eq_none_or_eq_some v.entries?
  · obtain ⟨hshape, hinterfaces⟩ := closed_infer.1 [v] "item" [root]
    refine .of_subset (hnames ▸ hnodup) ?_ ?_ hident <;> rw [infer, hvalue]
    · rintro shape ⟨⟩
      exact hshape
    · exact hinterfaces
  · have hfields := closed_infer.2 [entries] (mergedKeys [entries]) [root]
    refine .of_subset (hnames ▸ hnodup) ?_ ?_ hident <;> rw [infer, hvalue]
    · rintro _ ⟨⟩
    · exact closed_interface hfields root

end Declarations

end Script

end Workflow
