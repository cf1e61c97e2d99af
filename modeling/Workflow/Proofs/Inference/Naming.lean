import Mathlib.Data.List.Nodup
import Mathlib.Data.List.Perm.Subperm
import Workflow.Script.Inference
import Workflow.Text.Digits

/-!
# Names of inferred interfaces

The type of examples is put together from the interface for the objects among them and the type of
the items of the arrays among them. Every interface takes a name that is not in use, and the
names in use are passed on from one part to the next, so no name is taken twice.
-/

namespace Workflow.Script

/-! ## How a type is put together -/

/-- The interface for merged objects, if there are any, and those that it refers to. -/
def inferObjects (key : String) (objects : List Json.Entries) (used : List String) :
    Inferred (List Shape) :=
  if objects = [] then ⟨[], [], used⟩
  else
    let name := freshName used (typeName key)
    let fields := inferFields objects (mergedKeys objects) (name :: used)
    ⟨[.named name], ⟨name, fields.result⟩ :: fields.interfaces, fields.used⟩

/-- The type of arrays with merged items, if there are any. -/
def inferItems (key : String) (items? : Option (List Json)) (used : List String) :
    Inferred (List Shape) :=
  match items? with
  | none => ⟨[], [], used⟩
  | some items =>
    let inner := inferValues key items used
    ⟨[.array inner.result], inner.interfaces, inner.used⟩

/-- A type consists of its primitive members, the interface for the objects and the type of the
arrays. -/
theorem inferValues_eq (key : String) (values : List Json) (used : List String) :
    inferValues key values used =
      let objects := inferObjects key (objectsOf values) used
      let items := inferItems key (mergedItems? values) objects.used
      ⟨.ofMembers (primitivesOf values) (objects.result ++ items.result),
        objects.interfaces ++ items.interfaces, items.used⟩ := by
  rw [inferValues, inferObjects]
  by_cases hobjects : objectsOf values = []
  · simp only [hobjects, dif_pos, if_pos]
    split <;> rename_i hitems <;> simp [hitems, inferItems]
  · simp only [hobjects, dif_neg, if_neg, not_false_eq_true]
    split <;> rename_i hitems <;> simp [hitems, inferItems]

theorem inferFields_nil (objects : List Json.Entries) (used : List String) :
    inferFields objects [] used = ⟨[], [], used⟩ := by
  rw [inferFields]

theorem inferFields_cons (objects : List Json.Entries) (key : String) (rest used : List String) :
    inferFields objects (key :: rest) used =
      let values := valuesUnder key objects
      let field := inferValues key values used
      let more := inferFields objects rest field.used
      ⟨⟨key, field.result, decide (values.length < objects.length)⟩ :: more.result,
        field.interfaces ++ more.interfaces, more.used⟩ := by
  rw [inferFields]

/-- What holds of examples when it holds of the fields of the objects among them and of the items
of the arrays among them holds of all examples. -/
theorem examples_induction {P : List Json → Prop} {Q : List Json.Entries → List String → Prop}
    (values : ∀ values,
      (objectsOf values ≠ [] → Q (objectsOf values) (mergedKeys (objectsOf values))) →
      (∀ items, mergedItems? values = some items → P items) → P values)
    (nil : ∀ objects, Q objects [])
    (cons : ∀ objects key rest, P (valuesUnder key objects) → Q objects rest →
      Q objects (key :: rest)) :
    (∀ values, P values) ∧ ∀ objects keys, Q objects keys := by
  have main (n : Nat) : (∀ values, weightItems values < n → P values) ∧
      ∀ objects, weightObjects objects < n → ∀ keys, Q objects keys := by
    induction n with
    | zero =>
      exact ⟨fun _ h => absurd h (Nat.not_lt_zero _), fun _ h => absurd h (Nat.not_lt_zero _)⟩
    | succ n ih =>
      obtain ⟨ihvalues, ihfields⟩ := ih
      have hvalues : ∀ vs, weightItems vs < n + 1 → P vs := by
        intro vs hvs
        refine values vs (fun hobjects => ihfields _ ?_ _) fun items hitems => ihvalues _ ?_
        · have hle := weight_objectsOf_le vs
          have hpos := List.length_pos_iff.mpr hobjects
          omega
        · have hlt := weight_mergedItems_lt hitems
          omega
      refine ⟨hvalues, fun objects hobjects keys => ?_⟩
      induction keys with
      | nil => exact nil objects
      | cons key rest ihkeys =>
        have hle := weight_valuesUnder_le key objects
        exact cons objects key rest (hvalues _ (by omega)) ihkeys
  exact ⟨fun vs => (main _).1 vs (Nat.lt_succ_self _),
    fun objects => (main _).2 objects (Nat.lt_succ_self _)⟩

/-! ## Names -/

/-- The names from which one is taken. -/
def candidates (base : String) (n : Nat) : List String :=
  base :: (List.range n).map fun k => base ++ toString (k + 2)

theorem nodup_candidates (base : String) (n : Nat) : (candidates base n).Nodup := by
  refine List.nodup_cons.mpr ⟨?_, ?_⟩
  · intro h
    obtain ⟨k, -, hk⟩ := List.mem_map.mp h
    have hempty : toString (k + 2) = "" := String.append_eq_left_iff.mp hk
    have hdigits : Text.natOf (Nat.toDigits 10 (k + 2)) = 0 := by
      rw [← Text.toList_toString, hempty]
      rfl
    rw [Text.natOf_toDigits] at hdigits
    omega
  · refine List.nodup_range.map fun j k h => ?_
    have hsame := Text.toString_injective ((String.append_right_inj base).mp h)
    omega

/-- A name that is taken is a candidate that is not in use. -/
theorem freshName_spec (used : List String) (base : String) :
    freshName used base ∈ candidates base used.length ∧ freshName used base ∉ used := by
  have hsome : ((candidates base used.length).find? fun name => !used.contains name).isSome := by
    rw [List.find?_isSome]
    by_contra hnone
    -- The candidates are more than the names in use.
    have hsub : candidates base used.length ⊆ used := by
      intro name hname
      by_contra hfree
      exact hnone ⟨name, hname, by simpa using hfree⟩
    have hle := ((nodup_candidates base used.length).subperm hsub).length_le
    rw [candidates, List.length_cons, List.length_map, List.length_range] at hle
    exact absurd hle (Nat.not_succ_le_self _)
  obtain ⟨name, hname⟩ := Option.isSome_iff_exists.mp hsome
  have hfresh : freshName used base = name := by
    rw [candidates] at hname
    rw [freshName, hname, Option.getD_some]
  rw [hfresh]
  exact ⟨List.mem_of_find?_eq_some hname, by simpa using List.find?_some hname⟩

namespace Inferred

variable {α β : Type} {used : List String}

/-- The names of the interfaces, in the order in which they were taken. -/
def names (r : Inferred α) : List String := r.interfaces.map Interface.name

/-- The names of the interfaces are new, and they are the only ones that were taken. -/
structure Named (used : List String) (r : Inferred α) : Prop where
  /-- The names were taken one after the other. -/
  used_eq : r.used = r.names.reverse ++ used
  /-- A name was not in use when it was taken. -/
  nodup : used.Nodup → r.used.Nodup
  /-- Each name was taken for a key. -/
  fresh : ∀ name ∈ r.names, ∃ taken key, name = freshName taken (typeName key)

theorem named_nil (result : α) : Named used ⟨result, [], used⟩ where
  used_eq := rfl
  nodup := id
  fresh := by simp [names]

/-- Names are passed on from one part to the next. -/
theorem Named.append {r : Inferred α} {t : Inferred β} (hr : r.Named used) (ht : t.Named r.used)
    {γ : Type} (result : γ) : Named used ⟨result, r.interfaces ++ t.interfaces, t.used⟩ where
  used_eq := by
    have hnames : (⟨result, r.interfaces ++ t.interfaces, t.used⟩ : Inferred γ).names =
        r.names ++ t.names := List.map_append
    rw [hnames, List.reverse_append, List.append_assoc, ← hr.used_eq]
    exact ht.used_eq
  nodup h := ht.nodup (hr.nodup h)
  fresh name hname := by
    rw [names, List.map_append] at hname
    exact (List.mem_append.mp hname).elim (hr.fresh name) (ht.fresh name)

end Inferred

open Inferred

theorem named_inferObjects {key : String} {objects : List Json.Entries} {used : List String}
    (h : objects ≠ [] → ∀ used, (inferFields objects (mergedKeys objects) used).Named used) :
    (inferObjects key objects used).Named used := by
  rw [inferObjects]
  split
  · exact named_nil _
  · rename_i hobjects
    obtain ⟨hmem, hnew⟩ := freshName_spec used (typeName key)
    obtain ⟨hused, hnodup, hfresh⟩ := h hobjects (freshName used (typeName key) :: used)
    refine ⟨?_, fun hnames => hnodup (List.nodup_cons.mpr ⟨hnew, hnames⟩), ?_⟩
    · simpa [names] using hused
    · intro name hname
      rcases List.mem_cons.mp hname with rfl | hname
      · exact ⟨used, key, rfl⟩
      · exact hfresh name hname

theorem named_inferItems {key : String} {items? : Option (List Json)} {used : List String}
    (h : ∀ items, items? = some items → (inferValues key items used).Named used) :
    (inferItems key items? used).Named used := by
  cases items? with
  | none => exact named_nil _
  | some items =>
    obtain ⟨hused, hnodup, hfresh⟩ := h items rfl
    exact ⟨hused, hnodup, hfresh⟩

/-- No name of an interface is taken twice. -/
theorem named_infer : (∀ values key used, (inferValues key values used).Named used) ∧
    ∀ objects keys used, (inferFields objects keys used).Named used := by
  refine examples_induction ?_ ?_ ?_
  · intro values hfields hitems key used
    rw [inferValues_eq]
    exact (named_inferObjects hfields).append
      (named_inferItems fun items hitem => hitems items hitem key _) _
  · intro objects used
    rw [inferFields_nil]
    exact named_nil _
  · intro objects key rest hfield hmore used
    rw [inferFields_cons]
    exact (hfield key used).append (hmore _) _

theorem named_inferValues (key : String) (values : List Json) (used : List String) :
    (inferValues key values used).Named used := named_infer.1 values key used

theorem named_inferFields (objects : List Json.Entries) (keys used : List String) :
    (inferFields objects keys used).Named used := named_infer.2 objects keys used

/-- The names that are declared, the one for the value first. -/
def Declarations.names (d : Declarations) : List String :=
  (d.aliased.map fun _ => d.root).toList ++ d.interfaces.map Interface.name

/-- No name is declared twice for one value. The one for the value is the root name, and the others
were taken for keys. -/
theorem Declarations.exists_names_infer (root : String) (v : Json) : ∃ taken,
    (Declarations.infer root v).names = root :: taken ∧ (root :: taken).Nodup ∧
      ∀ name ∈ taken, ∃ used key, name = freshName used (typeName key) := by
  have main {α : Type} {r : Inferred α} (hr : r.Named [root]) : (root :: r.names).Nodup := by
    have hnodup := hr.nodup (List.nodup_singleton root)
    rw [hr.used_eq, List.nodup_append_comm] at hnodup
    exact List.nodup_cons.mpr (by simpa using List.nodup_cons.mp hnodup)
  rw [infer, names]
  cases v.entries? with
  | none =>
    have hnamed := named_inferValues "item" [v] [root]
    exact ⟨_, rfl, main hnamed, hnamed.fresh⟩
  | some entries =>
    have hnamed := named_inferFields [entries] (mergedKeys [entries]) [root]
    exact ⟨_, rfl, main hnamed, hnamed.fresh⟩

end Workflow.Script
