import Mathlib.Data.List.Nodup
import Workflow.Proofs.Fallible
import Workflow.Proofs.Json.Entries
import Workflow.Proofs.Json.Spelling

/-!
# What a text can hold

Values that were read from a text have integers of 64 bits, no key twice in an object, and no
more levels of lists and objects than the reader follows. Such a value is a part of itself, and
its compact and its pretty form are texts of it.
-/

namespace Workflow.Json

/-! ### Parts of a text -/

/-- Parts with numbers in range and at most the given levels of lists and objects. -/
inductive Raw.Fits : Nat → Raw → Prop
  | null {n : Nat} : Fits n .null
  | bool {n : Nat} (b : Bool) : Fits n (.bool b)
  | number {n : Nat} {x : Number} (hx : x.InRange) : Fits n (.number x)
  | string {n : Nat} (s : String) : Fits n (.string s)
  | array {n : Nat} {items : List Raw} (hitems : ∀ item ∈ items, Fits n item) :
      Fits (n + 1) (.array items)
  | object {n : Nat} {entries : List (Option String × Raw)}
      (hentries : ∀ e ∈ entries, Fits n e.2) : Fits (n + 1) (.object entries)
  | refused {n : Nat} : Fits n .refused

/-- What the reader can find at the front of `cs` when it leaves `rest`. -/
inductive Found (depth : Nat) (cs rest : List Char) : Raw → Prop
  | null : Found depth cs rest .null
  | bool (b : Bool) : Found depth cs rest (.bool b)
  | text (s : Option String) : Found depth cs rest (s.elim .refused .string)
  | number (negative : Bool) {w body : List Char} {n : Numeral} (hw : Spaces w)
      (hcs : cs = w ++ (if negative then '-' :: body else body))
      (hread : Leaves (readNumeral negative body) n rest) : Found depth cs rest n.toRaw
  | emptyArray : Found depth cs rest (.atDepth depth (.array []))
  | array {more : List Char} {items : List Raw} (hlt : more.length < cs.length)
      (hread : Leaves (readItems (depth + 1) more) items rest) :
      Found depth cs rest (.atDepth depth (.array items))
  | emptyObject : Found depth cs rest (.atDepth depth (.object []))
  | object {more : List Char} {entries : List (Option String × Raw)}
      (hlt : more.length < cs.length)
      (hread : Leaves (readEntries (depth + 1) more) entries rest) :
      Found depth cs rest (.atDepth depth (.object entries))

/-- What is passed over as blanks are blanks. -/
theorem exists_spaces_of_afterSpace {cs rest : List Char} {h : rest.length ≤ cs.length}
    (hafter : afterSpace cs = ⟨rest, h⟩) : ∃ w, Spaces w ∧ cs = w ++ rest := by
  have hskip : cs.dropWhile isSpace = rest := congrArg Subtype.val hafter
  refine ⟨cs.takeWhile isSpace, ?_, ?_⟩
  · exact fun c hc => List.all_eq_true.mp List.all_takeWhile c hc
  · rw [← hskip, List.takeWhile_append_dropWhile]

/-- What is read as a value stands behind blanks, and is one of the kinds of values. -/
theorem found_of_readValue {depth : Nat} {cs rest : List Char} {part : Raw}
    (h : Leaves (readValue depth cs) part rest) : Found depth cs rest part := by
  rw [readValue] at h
  split at h
  · simp [Leaves] at h
  · rename_i c more hr hafter
    obtain ⟨w, hw, hcs⟩ := exists_spaces_of_afterSpace hafter
    have hshorter : more.length < cs.length := hr
    split at h
    -- One case for each first character; a list or an object may be empty.
    · simp only [leaves_bind_iff, Option.pure_def, leaves_some_iff] at h
      obtain ⟨text, _, _, _, rfl, rfl⟩ := h
      exact .text text
    · split at h
      · obtain ⟨rfl, -⟩ := leaves_some_iff.mp h
        exact .emptyArray
      · simp only [leaves_bind_iff, Option.pure_def, leaves_some_iff] at h
        obtain ⟨items, _, hlt, hread, rfl, rfl⟩ := h
        exact .array hshorter ⟨hlt, hread⟩
    · split at h
      · obtain ⟨rfl, -⟩ := leaves_some_iff.mp h
        exact .emptyObject
      · simp only [leaves_bind_iff, Option.pure_def, leaves_some_iff] at h
        obtain ⟨entries, _, hlt, hread, rfl, rfl⟩ := h
        exact .object hshorter ⟨hlt, hread⟩
    · obtain ⟨hlt, h⟩ := h
      obtain ⟨_, -, h⟩ := Option.bind_eq_some_iff.mp h
      obtain ⟨rfl, -⟩ := leaves_some_iff.mp ⟨hlt, h⟩
      exact .null
    · obtain ⟨hlt, h⟩ := h
      obtain ⟨_, -, h⟩ := Option.bind_eq_some_iff.mp h
      obtain ⟨rfl, -⟩ := leaves_some_iff.mp ⟨hlt, h⟩
      exact .bool true
    · obtain ⟨hlt, h⟩ := h
      obtain ⟨_, -, h⟩ := Option.bind_eq_some_iff.mp h
      obtain ⟨rfl, -⟩ := leaves_some_iff.mp ⟨hlt, h⟩
      exact .bool false
    · simp only [leaves_bind_iff, Option.pure_def, leaves_some_iff] at h
      obtain ⟨n, _, hlt, hread, rfl, rfl⟩ := h
      exact .number true hw hcs ⟨hlt, hread⟩
    · simp only [leaves_bind_iff, Option.pure_def, leaves_some_iff] at h
      obtain ⟨n, _, hlt, hread, rfl, rfl⟩ := h
      exact .number false hw hcs ⟨hlt, hread⟩

/-- What is found inside of a list or an object fits if its parts do, one level further in. -/
theorem fits_atDepth {depth : Nat} {part : Raw}
    (h : depth < nestingLimit → part.Fits (nestingLimit - (depth + 1) + 1)) :
    (Raw.atDepth depth part).Fits (nestingLimit - depth) := by
  rw [Raw.atDepth]
  split
  · rename_i hdepth
    have hlevels : nestingLimit - depth = nestingLimit - (depth + 1) + 1 := by omega
    exact hlevels ▸ h hdepth
  · exact .refused

mutual

/-- What is read fits in the levels that are left. -/
theorem fits_of_readValue {depth : Nat} {cs rest : List Char} {part : Raw}
    (h : Leaves (readValue depth cs) part rest) : part.Fits (nestingLimit - depth) := by
  cases found_of_readValue h with
  | null => exact .null
  | bool b => exact .bool b
  | text s =>
    cases s with
    | none => exact .refused
    | some s => exact .string s
  | @number _ _ _ n =>
    rw [Numeral.toRaw]
    cases hx : n.toNumber? with
    | none => exact .refused
    | some x => exact .number (Numeral.inRange_of_toNumber? hx)
  | emptyArray => exact fits_atDepth fun _ => .array (by simp)
  | array _ hread => exact fits_atDepth fun _ => .array (fits_of_readItems hread)
  | emptyObject => exact fits_atDepth fun _ => .object (by simp)
  | object _ hread => exact fits_atDepth fun _ => .object (fits_of_readEntries hread)
termination_by (cs.length, 0)
decreasing_by all_goals exact Prod.Lex.left _ _ (by assumption)

/-- All items that are read fit in the levels that are left. -/
theorem fits_of_readItems {depth : Nat} {cs rest : List Char} {items : List Raw}
    (h : Leaves (readItems depth cs) items rest) :
    ∀ item ∈ items, item.Fits (nestingLimit - depth) := by
  rw [readItems, leaves_bind_iff] at h
  obtain ⟨first, after, hafter, hread, h⟩ := h
  have hfirst := fits_of_readValue ⟨hafter, hread⟩
  simp only at h
  split at h
  · rename_i more hmore _
    simp only [leaves_bind_iff, Option.pure_def, leaves_some_iff] at h
    obtain ⟨items, _, hlt, hread, rfl, rfl⟩ := h
    have hshorter : more.length < cs.length := Nat.lt_trans hmore hafter
    exact List.forall_mem_cons.mpr ⟨hfirst, fits_of_readItems ⟨hlt, hread⟩⟩
  · obtain ⟨hlt, h⟩ := h
    obtain ⟨_, -, h⟩ := Option.bind_eq_some_iff.mp h
    obtain ⟨rfl, -⟩ := leaves_some_iff.mp ⟨hlt, h⟩
    exact List.forall_mem_singleton.mpr hfirst
termination_by (cs.length, 1)
decreasing_by
  · exact Prod.Lex.right _ (by decide)
  · exact Prod.Lex.left _ _ hshorter

/-- All values of entries that are read fit in the levels that are left. -/
theorem fits_of_readEntries {depth : Nat} {cs rest : List Char}
    {entries : List (Option String × Raw)} (h : Leaves (readEntries depth cs) entries rest) :
    ∀ e ∈ entries, e.2.Fits (nestingLimit - depth) := by
  rw [readEntries] at h
  obtain ⟨hlt, h⟩ := h
  obtain ⟨⟨quoted, hquoted⟩, -, h⟩ := Option.bind_eq_some_iff.mp h
  obtain ⟨⟨key, a, ha⟩, -, h⟩ := Option.bind_eq_some_iff.mp h
  obtain ⟨⟨b, hb⟩, -, h⟩ := Option.bind_eq_some_iff.mp h
  obtain ⟨⟨value, c, hc⟩, hread, h⟩ := Option.bind_eq_some_iff.mp h
  have hvalue := fits_of_readValue ⟨hc, hread⟩
  simp only at h
  split at h
  · rename_i more hmore _
    obtain ⟨⟨entries, last, hlast⟩, hread, h⟩ := Option.bind_eq_some_iff.mp h
    obtain ⟨rfl, -⟩ := leaves_some_iff.mp ⟨hlt, h⟩
    exact List.forall_mem_cons.mpr ⟨hvalue, fits_of_readEntries ⟨hlast, hread⟩⟩
  · obtain ⟨_, -, h⟩ := Option.bind_eq_some_iff.mp h
    obtain ⟨rfl, -⟩ := leaves_some_iff.mp ⟨hlt, h⟩
    exact List.forall_mem_singleton.mpr hvalue
termination_by (cs.length, 1)
decreasing_by
  all_goals
    apply Prod.Lex.left
    omega

end

/-- Whatever a text holds fits the levels that the reader follows. -/
theorem fits_of_read? {text : String} {part : Raw} (h : Raw.read? text = some part) :
    part.Fits nestingLimit := by
  obtain ⟨rest, hread, -⟩ := Raw.read?_eq_some_iff.mp h
  exact fits_of_readValue hread

/-! ### Values -/

/-- Values that a text can hold with at most the given levels of lists and objects: numbers are
in range, and no object has a key twice. -/
inductive Fits : Nat → Json → Prop
  | null {n : Nat} : Fits n .null
  | bool {n : Nat} (b : Bool) : Fits n (.bool b)
  | number {n : Nat} {x : Number} (hx : x.InRange) : Fits n (.number x)
  | string {n : Nat} (s : String) : Fits n (.string s)
  | array {n : Nat} {items : List Json} (hitems : ∀ item ∈ items, Fits n item) :
      Fits (n + 1) (.array items)
  | object {n : Nat} {entries : Entries} (hkeys : entries.keys.Nodup)
      (hentries : ∀ e ∈ entries, Fits n e.2) : Fits (n + 1) (.object entries)

section

variable {n : Nat}

@[simp] theorem fits_null : (Json.null).Fits n := .null

@[simp] theorem fits_bool (b : Bool) : (Json.bool b).Fits n := .bool b

@[simp] theorem fits_string (s : String) : (Json.string s).Fits n := .string s

/-- A number fits if it can be held. -/
@[simp] theorem fits_number_iff {x : Number} : (Json.number x).Fits n ↔ x.InRange := by
  constructor
  · intro h
    cases h with
    | number hx => exact hx
  · exact .number

/-- A list fits if its items do, one level further in. -/
@[simp] theorem fits_array_iff {items : List Json} :
    (Json.array items).Fits (n + 1) ↔ ∀ item ∈ items, item.Fits n := by
  constructor
  · intro h
    cases h with
    | array hitems => exact hitems
  · exact .array

/-- An object fits if its keys are distinct and its values fit, one level further in. -/
@[simp] theorem fits_object_iff {entries : Entries} :
    (Json.object entries).Fits (n + 1) ↔ entries.keys.Nodup ∧ ∀ e ∈ entries, e.2.Fits n := by
  constructor
  · intro h
    cases h with
    | object hkeys hentries => exact ⟨hkeys, hentries⟩
  · rintro ⟨hkeys, hentries⟩
    exact .object hkeys hentries

end

namespace Raw

/-- Items are values one by one. -/
theorem items?_eq_mapM (items : List Raw) : items? items = items.mapM value? := by
  induction items with
  | nil => rfl
  | cons item items ih => simp [items?, ih]

theorem ofItems_eq_map (items : List Json) : ofItems items = items.map ofJson := by
  induction items with
  | nil => rfl
  | cons item items ih => simp [ofItems, ih]

theorem ofEntries_eq_map (es : Entries) :
    ofEntries es = es.map fun e => (some e.1, ofJson e.2) := by
  induction es with
  | nil => rfl
  | cons e es ih => simp [ofEntries, ih]

/-- An entry comes from one with its key. -/
theorem exists_mem_of_entries? {entries : List (Option String × Raw)} {es : Entries}
    (h : entries? entries = some es) {e : String × Json} (he : e ∈ es) :
    ∃ p ∈ entries, p.1 = some e.1 ∧ p.2.value? = some e.2 := by
  induction entries generalizing es with
  | nil =>
    obtain rfl := Option.some.inj h
    cases he
  | cons p entries ih =>
    obtain ⟨key?, part⟩ := p
    simp only [entries?, Option.bind_eq_bind, Option.bind_eq_some_iff, Option.pure_def,
      Option.some.injEq] at h
    obtain ⟨key, rfl, first, hfirst, more, hmore, rfl⟩ := h
    obtain rfl | he := List.mem_cons.mp he
    · exact ⟨_, List.mem_cons_self, rfl, hfirst⟩
    · obtain ⟨found, hfound, hvalue⟩ := ih hmore he
      exact ⟨found, List.mem_cons_of_mem _ hfound, hvalue⟩

/-- The value of a part has no more levels than the part. -/
theorem Fits.value {n : Nat} {part : Raw} (hp : part.Fits n) {v : Json}
    (h : part.value? = some v) : v.Fits n := by
  induction hp generalizing v with
  | null => 
    obtain rfl := Option.some.inj h
    exact .null
  | bool b =>
    obtain rfl := Option.some.inj h
    exact .bool b
  | number hx =>
    obtain rfl := Option.some.inj h
    exact .number hx
  | string s =>
    obtain rfl := Option.some.inj h
    exact .string s
  | array _ ih =>
    obtain ⟨vs, hvs, rfl⟩ := Option.map_eq_some_iff.mp h
    refine .array fun v hv => ?_
    rw [items?_eq_mapM] at hvs
    obtain ⟨item, hitem, hvalue⟩ := exists_mem_of_mapM_eq_some hvs hv
    exact ih item hitem hvalue
  | object _ ih =>
    obtain ⟨es, hes, rfl⟩ := Option.map_eq_some_iff.mp h
    refine .object (Entries.nodup_keys_ofList es) fun e he => ?_
    obtain ⟨p, hp, -, hvalue⟩ := exists_mem_of_entries? hes (Entries.mem_ofList he)
    exact ih p hp hvalue
  | refused => cases h

/-- Items that are values again are values as a list. -/
theorem items?_ofItems {items : List Json}
    (h : ∀ item ∈ items, (ofJson item).value? = some item) :
    items? (ofItems items) = some items := by
  rw [items?_eq_mapM, ofItems_eq_map]
  exact mapM_eq_some_of_forall h

/-- Entries that are values again are values as an object. -/
theorem entries?_ofEntries {entries : Entries}
    (h : ∀ e ∈ entries, (ofJson e.2).value? = some e.2) :
    entries? (ofEntries entries) = some entries := by
  induction entries with
  | nil => rfl
  | cons e entries ih =>
    obtain ⟨he, hentries⟩ := List.forall_mem_cons.mp h
    simp [ofEntries, entries?, he, ih hentries]

/-- A value that a text can hold is a part whose value it is. -/
theorem value?_ofJson {n : Nat} {v : Json} (h : v.Fits n) : (ofJson v).value? = some v := by
  induction h with
  | null | bool | number | string => rfl
  | array _ ih => simp [ofJson, value?, items?_ofItems ih]
  | object hkeys _ ih => simp [ofJson, value?, entries?_ofEntries ih, Entries.ofList_eq_self hkeys]

end Raw

end Workflow.Json
