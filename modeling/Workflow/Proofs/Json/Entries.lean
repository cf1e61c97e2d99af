import Mathlib.Data.List.Induction
import Mathlib.Data.List.Nodup
import Mathlib.Data.List.Perm.Basic
import Workflow.Json.Entries
import Workflow.Proofs.Distinct

/-!
# Laws of entries

Where keys occur once, entries are a map: what is found under a key is what stands there.
Inserting and removing change what is found under their own keys only. New keys go to the end,
but a removal moves the last entry into the hole that it leaves, so it keeps the order only where
at most one entry is behind that hole.
-/

namespace Workflow.Json.Entries

variable {es more : Entries} {key k : String} {value : Json} {e : String × Json}

theorem keys_cons (e : String × Json) (es : Entries) : keys (e :: es) = e.1 :: es.keys := rfl

theorem keys_append (es more : Entries) : keys (es ++ more) = es.keys ++ more.keys :=
  List.map_append

/-! ### Looking up -/

/-- The first entry of a key gives its value. -/
theorem get?_cons (e : String × Json) (es : Entries) (key : String) :
    get? (e :: es) key = if e.1 = key then some e.2 else es.get? key := by
  rw [get?, List.find?_cons, get?]
  by_cases h : e.1 = key
  · simp [h]
  · rw [beq_eq_false_iff_ne.mpr h, if_neg h]

/-- Entries behind others give a value only for the keys that those lack. -/
theorem get?_append (es more : Entries) (key : String) :
    get? (es ++ more) key = (es.get? key).or (more.get? key) := by
  rw [get?, List.find?_append, Option.map_or, get?, get?]

/-- A key is there if it has a value. -/
theorem has_eq_isSome_get? (es : Entries) (key : String) : es.has key = (es.get? key).isSome := by
  rw [has, get?, Option.isSome_map, List.isSome_find?]

/-- A key has no value exactly if it is none of the keys. -/
theorem get?_eq_none_iff : es.get? key = none ↔ key ∉ es.keys := by
  rw [get?, Option.map_eq_none_iff, List.find?_eq_none, keys, List.mem_map]
  constructor
  · rintro h ⟨e, he, rfl⟩
    exact h e he (beq_self_eq_true _)
  · intro h e he hkey
    exact h ⟨e, he, beq_iff_eq.mp hkey⟩

/-- Whether a key is there is whether it is among the keys. -/
theorem has_eq_true_iff : es.has key = true ↔ key ∈ es.keys := by
  rw [has_eq_isSome_get?, Option.isSome_iff_ne_none, ne_eq, get?_eq_none_iff, not_not]

/-- Where keys occur once, what is found under a key is what stands there. -/
theorem get?_eq_some_iff (h : es.keys.Nodup) : es.get? key = some value ↔ (key, value) ∈ es := by
  induction es with
  | nil => simp [get?]
  | cons e es ih =>
    obtain ⟨he, hes⟩ := List.nodup_cons.mp h
    rw [get?_cons, List.mem_cons]
    split
    · rename_i hkey
      have hother : (key, value) ∉ es := fun hmem => he (hkey ▸ List.mem_map_of_mem hmem)
      obtain ⟨k, v⟩ := e
      simp_all [eq_comm]
    · rename_i hkey
      have hne : (key, value) ≠ e := by
        rintro rfl
        exact hkey rfl
      rw [ih hes]
      simp [hne]

/-- Entries with the same parts are the same map. -/
theorem get?_eq_of_perm (h : es.keys.Nodup) (hperm : es.Perm more) (key : String) :
    es.get? key = more.get? key := by
  have hmore : more.keys.Nodup := (hperm.map Prod.fst).nodup_iff.mp h
  refine Option.ext fun value => ?_
  rw [get?_eq_some_iff h, get?_eq_some_iff hmore, hperm.mem_iff]

/-- Entries in which the same is found under every key have the same parts. -/
theorem perm_of_get?_eq (h : es.keys.Nodup) (hmore : more.keys.Nodup)
    (hsame : ∀ key, es.get? key = more.get? key) : es.Perm more := by
  refine (List.perm_ext_iff_of_nodup h.of_map hmore.of_map).mpr fun e => ?_
  rw [← get?_eq_some_iff h, ← get?_eq_some_iff hmore, hsame]

/-- Dropping the entries under some keys hides what stood there, and nothing else. -/
theorem get?_filter (es : Entries) (keep : String → Bool) (key : String) :
    get? (es.filter fun e => keep e.1) key = if keep key then es.get? key else none := by
  induction es with
  | nil => simp [get?]
  | cons e es ih =>
    rw [List.filter_cons]
    by_cases hkey : e.1 = key
    · by_cases hkeep : keep key = true
      · simp [get?_cons, hkey, hkeep]
      · simp [hkey, hkeep, ih]
    · by_cases hkeep : keep e.1 = true <;> simp [get?_cons, hkey, hkeep, ih]

/-! ### Inserting -/

/-- To set a key adds no other entry. -/
theorem mem_insert (h : e ∈ es.insert key value) : e ∈ es ∨ e = (key, value) := by
  rw [insert] at h
  split at h
  · obtain ⟨old, hold, rfl⟩ := List.mem_map.mp h
    split
    · exact .inr rfl
    · exact .inl hold
  · simpa using h

/-- A key that is there keeps its place when it is set, and a new one comes last. -/
theorem keys_insert (es : Entries) (key : String) (value : Json) :
    (es.insert key value).keys = if es.has key then es.keys else es.keys ++ [key] := by
  rw [insert]
  split
  · rw [keys, List.map_map]
    refine List.map_congr_left fun e _ => ?_
    by_cases he : e.1 = key <;> simp [he]
  · simp [keys]

/-- To set a key keeps the keys distinct. -/
theorem nodup_keys_insert (h : es.keys.Nodup) (key : String) (value : Json) :
    (es.insert key value).keys.Nodup := by
  rw [keys_insert]
  split
  · exact h
  · rename_i hnew
    refine List.nodup_append.mpr ⟨h, List.nodup_singleton key, ?_⟩
    rintro k hk _ hkey rfl
    obtain rfl := List.mem_singleton.mp hkey
    obtain ⟨e, he, rfl⟩ := List.mem_map.mp hk
    exact hnew (List.any_eq_true.mpr ⟨e, he, beq_self_eq_true _⟩)

/-- A value that is replaced in place is found under its key. -/
theorem get?_replace (es : Entries) (key : String) (value : Json) (k : String) :
    get? (es.map fun e => if e.1 == key then (key, value) else e) k =
      if key = k then (es.get? k).map fun _ => value else es.get? k := by
  induction es with
  | nil => simp [get?]
  | cons e es ih =>
    rw [List.map_cons, get?_cons, get?_cons, ih]
    by_cases he : e.1 = key
    · by_cases hk : key = k <;> simp [he, hk]
    · by_cases hk : key = k
      · simp [← hk, he]
      · simp [he, hk]

/-- What is inserted is found, and what stands under other keys is found as before. -/
theorem get?_insert (es : Entries) (key : String) (value : Json) (k : String) :
    (es.insert key value).get? k = if key = k then some value else es.get? k := by
  rw [insert, has_eq_isSome_get?]
  split
  · rename_i hhas
    rw [get?_replace]
    split
    · rename_i hkey
      obtain ⟨old, hold⟩ := Option.isSome_iff_exists.mp hhas
      rw [← hkey, hold, Option.map_some]
    · rfl
  · rename_i hnew
    rw [get?_append, get?_cons]
    split
    · rename_i hkey
      rw [← hkey, Option.not_isSome_iff_eq_none.mp hnew, Option.none_or]
    · exact Option.or_none

/-- To set keys one after the other keeps them distinct. -/
theorem nodup_keys_insertAll (es : Entries) (h : es.keys.Nodup) (more : List (String × Json)) :
    (es.insertAll more).keys.Nodup := by
  induction more generalizing es with
  | nil => exact h
  | cons e more ih => exact ih _ (nodup_keys_insert h e.1 e.2)

/-- Of many entries under different keys, each is found under its own key. -/
theorem get?_insertAll (es : Entries) (h : more.keys.Nodup) (key : String) :
    (es.insertAll more).get? key = (more.get? key).or (es.get? key) := by
  induction more generalizing es with
  | nil => rfl
  | cons e more ih =>
    obtain ⟨he, hmore⟩ := List.nodup_cons.mp h
    change ((es.insert e.1 e.2).insertAll more).get? key = _
    rw [ih (es.insert e.1 e.2) hmore, get?_insert, get?_cons]
    split
    · rename_i hkey
      have hother : get? more key = none := get?_eq_none_iff.mpr (hkey ▸ he)
      rw [hother, Option.none_or, Option.some_or]
    · rfl

/-- To set keys one after the other adds no other entries. -/
theorem mem_insertAll (es : Entries) {more : List (String × Json)}
    (h : e ∈ es.insertAll more) : e ∈ es ∨ e ∈ more := by
  induction more generalizing es with
  | nil => exact .inl h
  | cons first more ih =>
    obtain h | h := ih (es.insert first.1 first.2) h
    · obtain h | rfl := mem_insert h
      · exact .inl h
      · exact .inr List.mem_cons_self
    · exact .inr (List.mem_cons_of_mem first h)

/-- Entries with new keys come behind those that are there, in their order. -/
theorem insertAll_eq_append (es : Entries) {more : Entries} (h : (es ++ more).keys.Nodup) :
    es.insertAll more = es ++ more := by
  induction more generalizing es with
  | nil => simp [insertAll]
  | cons e more ih =>
    have hnew : es.has e.1 = false := by
      rw [keys_append, keys_cons] at h
      have hapart := (List.nodup_append.mp h).2.2
      refine List.any_eq_false.mpr fun old hold hkey => ?_
      exact hapart _ (List.mem_map_of_mem hold) _ List.mem_cons_self (beq_iff_eq.mp hkey)
    have hinsert : es.insert e.1 e.2 = es ++ [e] := by simp [insert, hnew]
    change (es.insert e.1 e.2).insertAll more = _
    rw [hinsert, ih _ (by simpa using h)]
    simp

/-- Keys that are new go to the end, in the order in which they are inserted. -/
theorem keys_insertAll (es : Entries) (h : more.keys.Nodup) :
    (es.insertAll more).keys = es.keys ++ (keys more).filter fun key => decide (key ∉ es.keys) := by
  induction more generalizing es with
  | nil => simp [insertAll, keys]
  | cons e more ih =>
    obtain ⟨he, hmore⟩ := List.nodup_cons.mp h
    change ((es.insert e.1 e.2).insertAll more).keys =
      es.keys ++ (e.1 :: keys more).filter fun key => decide (key ∉ es.keys)
    rw [ih (es.insert e.1 e.2) hmore, keys_insert]
    by_cases hkey : e.1 ∈ es.keys
    · rw [if_pos (has_eq_true_iff.mpr hkey), List.filter_cons_of_neg (by simpa using hkey)]
    · have hlater : (keys more).filter (fun key => decide (key ∉ es.keys ++ [e.1])) =
          (keys more).filter fun key => decide (key ∉ es.keys) := by
        refine List.filter_congr fun key hmem => ?_
        have hne : key ≠ e.1 := fun heq => he (heq ▸ hmem)
        simp [hne]
      rw [if_neg (mt has_eq_true_iff.mp hkey), List.filter_cons_of_pos (by simpa using hkey), hlater,
        List.append_assoc, List.singleton_append]

/-- Entries that are put together one by one have distinct keys. -/
theorem nodup_keys_ofList (es : List (String × Json)) : (ofList es).keys.Nodup :=
  nodup_keys_insertAll [] List.nodup_nil es

/-- Entries that are put together one by one are among the given ones. -/
theorem mem_ofList {es : List (String × Json)} (h : e ∈ ofList es) : e ∈ es :=
  (mem_insertAll [] h).resolve_left List.not_mem_nil

/-- Entries in which keys occur once are what they make. -/
theorem ofList_eq_self (h : es.keys.Nodup) : ofList es = es :=
  insertAll_eq_append [] h

/-! ### Removing -/

/-- The place of a key is found exactly if the key is there. -/
theorem findIdx?_eq_none_iff : es.findIdx? (·.1 == key) = none ↔ key ∉ es.keys := by
  rw [List.findIdx?_eq_none_iff, keys, List.mem_map]
  constructor
  · rintro h ⟨e, he, rfl⟩
    exact absurd (h e he) (by simp)
  · intro h e he
    exact beq_eq_false_iff_ne.mpr fun hkey => h ⟨e, he, hkey⟩

/-- To remove a key that is not there changes nothing. -/
theorem remove_of_not_mem (h : key ∉ es.keys) : es.remove key = es := by
  rw [remove, findIdx?_eq_none_iff.mpr h]

/-- Removing an entry moves the last of those behind it into its place. -/
theorem remove_append_cons {front back : Entries} (hfront : e.1 ∉ front.keys) :
    remove (front ++ e :: back) e.1 = front ++ (back.getLast?.toList ++ back.dropLast) := by
  have hindex : (front ++ e :: back).findIdx? (·.1 == e.1) = some front.length := by
    rw [List.findIdx?_append, findIdx?_eq_none_iff.mpr hfront, List.findIdx?_cons]
    simp
  rw [remove, hindex]
  obtain rfl | ⟨inner, last, rfl⟩ := List.eq_nil_or_concat back
  · simp
  · have hlast : (front ++ e :: (inner ++ [last])).getLast? = some last := by
      rw [← List.cons_append, ← List.append_assoc, List.getLast?_concat]
    have hset : (front ++ e :: (inner ++ [last])).set front.length last =
        front ++ last :: inner ++ [last] := by
      simp
    rw [List.concat_eq_append]
    simp only [hlast, hset, List.dropLast_concat, List.getLast?_concat, Option.toList_some,
      List.singleton_append]

/-- Removing an entry keeps the others, if not their order. -/
theorem remove_perm (h : es.keys.Nodup) (key : String) :
    (es.remove key).Perm (es.filter fun e => e.1 != key) := by
  by_cases hkey : key ∈ es.keys
  · obtain ⟨e, he, rfl⟩ := List.mem_map.mp hkey
    obtain ⟨front, back, rfl⟩ := List.append_of_mem he
    rw [keys_append, keys_cons, List.nodup_append, List.nodup_cons] at h
    obtain ⟨-, ⟨hback, -⟩, hfront⟩ := h
    have hfront : e.1 ∉ keys front := fun hmem => hfront _ hmem _ List.mem_cons_self rfl
    have hkeep {part : Entries} (hpart : e.1 ∉ part.keys) :
        part.filter (fun e' => e'.1 != e.1) = part := by
      refine List.filter_eq_self.mpr fun e' he' => bne_iff_ne.mpr fun heq => ?_
      exact hpart (heq ▸ List.mem_map_of_mem he')
    rw [remove_append_cons hfront, List.filter_append, List.filter_cons_of_neg (by simp),
      hkeep hfront, hkeep hback]
    refine .append_left front ?_
    obtain rfl | ⟨inner, last, rfl⟩ := List.eq_nil_or_concat back
    · simp
    · have hmoved : ([last] ++ inner).Perm (inner ++ [last]) := List.perm_append_comm
      simpa using hmoved
  · rw [remove_of_not_mem hkey, List.filter_eq_self.mpr]
    intro e he
    exact bne_iff_ne.mpr fun heq => hkey (heq ▸ List.mem_map_of_mem he)

/-- To remove a key keeps the others distinct. -/
theorem nodup_keys_remove (h : es.keys.Nodup) (key : String) : (es.remove key).keys.Nodup :=
  ((remove_perm h key).map Prod.fst).nodup_iff.mpr (h.sublist (List.filter_sublist.map _))

/-- To remove keys one after the other keeps the others distinct. -/
theorem nodup_keys_removeAll (h : es.keys.Nodup) (keys : List String) :
    (es.removeAll keys).keys.Nodup := by
  induction keys generalizing es with
  | nil => exact h
  | cons key keys ih => exact ih (nodup_keys_remove h key)

/-- Under a key that is removed nothing is found, and under other keys what was found before. -/
theorem get?_remove (h : es.keys.Nodup) (key k : String) :
    (es.remove key).get? k = if k = key then none else es.get? k := by
  rw [get?_eq_of_perm (nodup_keys_remove h key) (remove_perm h key), get?_filter es (· != key)]
  by_cases hk : k = key <;> simp [hk]

/-- Behind the removal of keys these have no values, and all others have theirs. -/
theorem get?_removeAll (h : es.keys.Nodup) (keys : List String) (k : String) :
    (es.removeAll keys).get? k = if k ∈ keys then none else es.get? k := by
  induction keys generalizing es with
  | nil => simp [removeAll]
  | cons key keys ih =>
    change ((es.remove key).removeAll keys).get? k = _
    rw [ih (nodup_keys_remove h key), get?_remove h]
    by_cases hkey : k = key
    · simp [hkey]
    · simp [hkey]

/-- The last of the keys is removed from what the others leave. -/
theorem removeAll_concat (es : Entries) (keys : List String) (key : String) :
    es.removeAll (keys ++ [key]) = (es.removeAll keys).remove key := by
  rw [removeAll, List.foldl_concat, removeAll]

/-- Removing many entries keeps the keys that are not removed. -/
theorem keys_removeAll_perm (h : es.keys.Nodup) (removed : List String) :
    (es.removeAll removed).keys.Perm (es.keys.filter fun key => decide (key ∉ removed)) := by
  refine (List.perm_ext_iff_of_nodup (nodup_keys_removeAll h removed) (h.filter _)).mpr fun k => ?_
  rw [← not_iff_not, ← get?_eq_none_iff, get?_removeAll h, List.mem_filter]
  by_cases hk : k ∈ removed <;> simp [hk, get?_eq_none_iff]

/-! ### The order of keys -/

/-- Removing a key moves the last of those behind it into its place. -/
theorem keys_remove {front back : List String} (hfront : key ∉ front)
    (hkeys : es.keys = front ++ key :: back) :
    (es.remove key).keys = front ++ (back.getLast?.toList ++ back.dropLast) := by
  obtain ⟨front, rest, rfl, rfl, hrest⟩ := List.map_eq_append_iff.mp hkeys
  obtain ⟨e, back, rfl, rfl, rfl⟩ := List.map_eq_cons_iff.mp hrest
  rw [remove_append_cons hfront, keys_append, keys_append]
  simp only [keys, Option.toList_map, List.getLast?_map, List.map_dropLast]

/-- A removal keeps the order of the other keys exactly if at most one key is behind the one that
is removed. -/
theorem keys_remove_eq_filter_iff (h : es.keys.Nodup) :
    (es.remove key).keys = es.keys.filter (· != key) ↔
      ∀ front back, es.keys = front ++ key :: back → back.length ≤ 1 := by
  rw [← h.erase_eq_filter]
  by_cases hkey : key ∈ es.keys
  · obtain ⟨front, back, hkeys⟩ := List.append_of_mem hkey
    rw [hkeys] at h ⊢
    obtain ⟨-, hrest, hapart⟩ := List.nodup_append.mp h
    obtain ⟨hback, hnodup⟩ := List.nodup_cons.mp hrest
    have hfront : key ∉ front := fun hmem => hapart _ hmem _ List.mem_cons_self rfl
    rw [keys_remove hfront hkeys, List.erase_append_right _ hfront, List.erase_cons_head,
      List.append_cancel_left_eq, getLast?_append_dropLast_eq_iff hnodup]
    constructor
    · intro hlength front' back' heq
      obtain ⟨-, -, rfl⟩ := (List.append_cons_inj_of_notMem hfront hback).mp heq
      exact hlength
    · exact fun hall => hall _ _ rfl
  · rw [remove_of_not_mem hkey, List.erase_of_not_mem hkey]
    refine iff_of_true rfl fun front back heq => absurd ?_ hkey
    rw [heq]
    exact List.mem_append_right front List.mem_cons_self

/-- After removals that kept the order, one more keeps it exactly if at most one of the keys that
are left is behind the key. -/
theorem keys_removeAll_concat_iff (h : es.keys.Nodup) {removed : List String}
    (hkept : (es.removeAll removed).keys = es.keys.filter fun k => decide (k ∉ removed)) :
    ((es.removeAll (removed ++ [key])).keys =
        es.keys.filter fun k => decide (k ∉ removed ++ [key])) ↔
      ∀ front back, (es.keys.filter fun k => decide (k ∉ removed)) = front ++ key :: back →
        back.length ≤ 1 := by
  have hfilter : (es.keys.filter fun k => decide (k ∉ removed ++ [key])) =
      (es.keys.filter fun k => decide (k ∉ removed)).filter (· != key) := by
    rw [List.filter_filter]
    refine List.filter_congr fun k _ => ?_
    by_cases hk : k = key <;> simp [hk]
  rw [removeAll_concat, hfilter, ← hkept]
  exact keys_remove_eq_filter_iff (nodup_keys_removeAll h removed)

/-- Removals keep the order all along exactly if each meets a key behind which at most one of the
keys is left. -/
theorem keys_removeAll_eq_filter_iff (h : es.keys.Nodup) {removed : List String} :
    (∀ done, done <+: removed →
        (es.removeAll done).keys = es.keys.filter fun k => decide (k ∉ done)) ↔
      ∀ before key after, removed = before ++ key :: after → ∀ front back,
        (es.keys.filter fun k => decide (k ∉ before)) = front ++ key :: back →
          back.length ≤ 1 := by
  constructor
  · rintro hkept before key after rfl
    have hdone : before ++ [key] <+: before ++ key :: after := by simp
    refine (keys_removeAll_concat_iff h (hkept before (List.prefix_append _ _))).mp ?_
    exact hkept _ hdone
  · -- Removals are done from the first on, so the last of those done comes after the others.
    intro hlast done hdone
    induction done using List.reverseRecOn with
    | nil => simp [removeAll]
    | append_singleton done key ih =>
      obtain ⟨after, rfl⟩ := hdone
      have hkept := ih ((List.prefix_append done [key]).trans (List.prefix_append _ after))
      exact (keys_removeAll_concat_iff h hkept).mpr (hlast done key after (by simp))

end Workflow.Json.Entries
