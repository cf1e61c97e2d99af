import Workflow.Json.Record
import Workflow.Proofs.Json.Rereading

/-!
# Records as they are written

A record is written as an object: its fields in order, without those that have no value, and
behind them whatever stood under unknown keys. Reading the object finds every field under its
name and the rest as it was, because no unknown key is the name of a field.
-/

namespace Workflow.Json

variable {α : Type}

/-- What is written for `a` has at most `n` levels of lists and objects, and is read as `a`. -/
structure Reread (n : Nat) (read : Raw → Option α) (write : α → Json) (a : α) : Prop where
  /-- What is written fits. -/
  fits : (write a).Fits n
  /-- What is written is read back. -/
  read : read (.ofJson (write a)) = some a

/-- What can be read again can be read again from either form. -/
theorem Reread.bind_read?_eq {read : Raw → Option α} {write : α → Json} {a : α}
    (h : Reread nestingLimit read write a) (hd : ∀ d ∈ (write a).doubles, d.ReadsBack) :
    ∀ text ∈ (write a).writings, (Raw.read? text).bind read = some a := by
  intro text htext
  rw [read?_of_mem_writings h.fits hd text htext]
  exact h.read

/-- Entries under keys that are not the names of fields. -/
structure Extra (names : List String) (n : Nat) (es : Entries) : Prop where
  /-- Every key is there once. -/
  keys : es.keys.Nodup
  /-- No key is the name of a field. -/
  apart : ∀ e ∈ es, e.1 ∉ names
  /-- The values fit. -/
  fits : ∀ e ∈ es, e.2.Fits n

/-- No further fields are as good as any. -/
theorem Extra.nil (names : List String) (n : Nat) : Extra names n [] :=
  ⟨List.nodup_nil, by simp, by simp⟩

/-! ### The parts of a record that was read -/

namespace Record

/-- A named entry is an entry with its name. -/
theorem mem_of_namedEntry {entries : List (Option String × Raw)} {named : List (String × Raw)}
    (h : entries.mapM namedEntry? = some named) {e : String × Raw} (he : e ∈ named) :
    (some e.1, e.2) ∈ entries := by
  obtain ⟨p, hp, hnamed⟩ := exists_mem_of_mapM_eq_some h he
  obtain ⟨key, hkey, rfl⟩ := Option.map_eq_some_iff.mp hnamed
  exact hkey ▸ hp

/-- The parts of a record with at most `n` levels, of which the unknown ones have no known
name. -/
structure Fits (names : List String) (n : Nat) (r : Record) : Prop where
  /-- The parts under known names fit. -/
  fields : ∀ e ∈ r.fields, e.2.Fits n
  /-- The parts under other keys fit. -/
  unknown : ∀ e ∈ r.unknown, e.1 ∉ names ∧ e.2.Fits n

section

variable {names : List String} {m : Nat} {part : Raw} {r : Record} (hp : part.Fits m)
include hp

/-- A record that was read from an object surrounds parts of one level less. -/
theorem exists_fits_of_ofObject? (h : ofObject? names part = some r) :
    ∃ n, m = n + 1 ∧ r.Fits names n := by
  cases hp with
  | @object n entries hentries =>
    simp only [ofObject?, Option.bind_eq_bind, Option.bind_eq_some_iff] at h
    obtain ⟨named, hnamed, h⟩ := h
    have hmem : ∀ e ∈ named, e.2.Fits n := fun e he =>
      hentries _ (mem_of_namedEntry hnamed he)
    rw [List.partition_eq_filter_filter] at h
    split at h
    · obtain rfl := Option.some.inj h
      refine ⟨n, rfl, fun e he => hmem e (List.mem_filter.mp he).1, fun e he => ?_⟩
      obtain ⟨he, hunknown⟩ := List.mem_filter.mp he
      exact ⟨by simpa using hunknown, hmem e he⟩
    · cases h
  | null | bool | number | string | array | refused => cases h

/-- A record is read one level further out than its fields. -/
theorem exists_fits_of_read? (h : Record.read? names part = some r) :
    ∃ n, m = n + 1 ∧ r.Fits names n := by
  cases hp with
  | @array n items hitems =>
    simp only [Record.read?] at h
    split at h
    · obtain rfl := Option.some.inj h
      exact ⟨n, rfl, fun e he => hitems e.2 (List.of_mem_zip he).2, by simp⟩
    · cases h
  | object hentries => exact exists_fits_of_ofObject? (.object hentries) h
  | null | bool | number | string | refused => cases h

end

namespace Fits

variable {names : List String} {n : Nat} {r : Record} (hr : r.Fits names n)
include hr

/-- A field of a record that fits fits. -/
theorem part {name : String} {p : Raw} (h : r.part? name = some p) : p.Fits n := by
  obtain ⟨before, after, hsplit, -⟩ := List.lookup_eq_some_iff.mp h
  exact hr.fields (name, p) (by simp [hsplit])

/-- What stood under unknown keys can be written behind the fields. -/
theorem rest {extra : Entries} (h : r.rest = some extra) : Extra names n extra := by
  obtain ⟨es, hes, rfl⟩ := Option.map_eq_some_iff.mp h
  have hmem : ∀ e ∈ Entries.ofList es, e.1 ∉ names ∧ e.2.Fits n := by
    intro e he
    obtain ⟨p, hp, hkey, hvalue⟩ := Raw.exists_mem_of_entries? hes (Entries.mem_ofList he)
    obtain ⟨u, hu, rfl⟩ := List.mem_map.mp hp
    obtain ⟨hname, hfits⟩ := hr.unknown u hu
    exact ⟨Option.some.inj hkey ▸ hname, hfits.value hvalue⟩
  exact ⟨Entries.nodup_keys_ofList es, fun e he => (hmem e he).1, fun e he => (hmem e he).2⟩

end Fits

end Record

/-! ### The parts of a record that was written -/

/-- The entries of the fields that have a value. -/
def present (fields : List (String × Option Json)) : Entries :=
  fields.flatMap fun f => entryIfSome f.1 f.2

section

variable {fields : List (String × Option Json)} {extra : Entries}

/-- An entry that is there is that of a field with a value. -/
theorem mem_present {e : String × Json} (h : e ∈ present fields) : (e.1, some e.2) ∈ fields := by
  obtain ⟨f, hf, he⟩ := List.mem_flatMap.mp h
  obtain ⟨v, hv, rfl⟩ := Option.map_eq_some_iff.mp (Option.mem_toList.mp he)
  exact hv ▸ hf

/-- The fields that are there keep their order. -/
theorem keys_present_sublist (fields : List (String × Option Json)) :
    (present fields).keys.Sublist (fields.map Prod.fst) := by
  induction fields with
  | nil => exact .slnil
  | cons f fields ih =>
    obtain ⟨name, value⟩ := f
    cases value with
    | none => exact ih.cons name
    | some v => exact ih.cons_cons name

/-- The value of a field among those that were written. -/
theorem lookup_present (hnames : (fields.map Prod.fst).Nodup) {f : String × Option Json}
    (hf : f ∈ fields) : (present fields).lookup f.1 = f.2 := by
  induction fields with
  | nil => cases hf
  | cons first fields ih =>
    obtain ⟨hfirst, hrest⟩ := List.nodup_cons.mp hnames
    have hpresent : present (first :: fields) = entryIfSome first.1 first.2 ++ present fields := rfl
    rw [hpresent, List.lookup_append]
    obtain rfl | hf := List.mem_cons.mp hf
    · have hnone : (present fields).lookup f.1 = none := by
        refine List.lookup_eq_none_iff.mpr fun e he => ?_
        refine bne_iff_ne.mpr fun heq => ?_
        exact hfirst (heq ▸ List.mem_map_of_mem (f := Prod.fst) (mem_present he))
      cases hv : f.2 <;> simp [entryIfSome, hnone]
    · have hne : f.1 ≠ first.1 := by
        rintro heq
        exact hfirst (heq ▸ List.mem_map_of_mem hf)
      have hother : (entryIfSome first.1 first.2).lookup f.1 = none := by
        cases first.2 <;> simp [entryIfSome, List.lookup_cons, beq_false_of_ne hne]
      rw [hother, Option.none_or, ih hrest hf]

/-- A record whose fields and other entries fit is an object that fits. -/
theorem fits_record {n : Nat} (hnames : (fields.map Prod.fst).Nodup)
    (hfields : ∀ f ∈ fields, ∀ v ∈ f.2, v.Fits n) (hextra : Extra (fields.map Prod.fst) n extra) :
    (Json.object (present fields ++ extra)).Fits (n + 1) := by
  have hkeys : (present fields ++ extra).keys.Nodup := by
    rw [Entries.keys, List.map_append]
    refine List.nodup_append.mpr ⟨(keys_present_sublist fields).nodup hnames, hextra.keys, ?_⟩
    rintro key hkey _ hother rfl
    obtain ⟨e, he, rfl⟩ := List.mem_map.mp hother
    exact hextra.apart e he ((keys_present_sublist fields).subset hkey)
  refine .object hkeys fun e he => ?_
  obtain he | he := List.mem_append.mp he
  · exact hfields _ (mem_present he) e.2 rfl
  · exact hextra.fits e he

/-- Entries as the parts of a record. -/
def parts (es : Entries) : List (String × Raw) := es.map fun e => (e.1, .ofJson e.2)

/-- Written entries are read as named parts. -/
theorem mapM_namedEntry?_ofEntries (es : Entries) :
    (Raw.ofEntries es).mapM Record.namedEntry? = some (parts es) := by
  induction es with
  | nil => rfl
  | cons e es ih => simp [Raw.ofEntries, Record.namedEntry?, parts, ih]

/-- The part of a name is read from the entry of that name. -/
theorem lookup_parts (es : Entries) (name : String) :
    (parts es).lookup name = (es.lookup name).map Raw.ofJson := by
  induction es with
  | nil => rfl
  | cons e es ih =>
    obtain ⟨key, value⟩ := e
    by_cases hname : name = key
    · simp [parts, hname]
    · simpa [parts, List.lookup_cons, beq_false_of_ne hname] using ih

/-- The parts have the keys of the entries. -/
theorem keys_parts (es : Entries) : (parts es).map Prod.fst = es.keys := by
  simp [parts, Entries.keys]

/-- What stood under unknown keys stays apart from the fields. -/
theorem partition_parts {n : Nat} (hextra : Extra (fields.map Prod.fst) n extra) :
    (parts (present fields ++ extra)).partition (fun e => (fields.map Prod.fst).contains e.1) =
      (parts (present fields), parts extra) := by
  have hknown : ∀ e ∈ parts (present fields), (fields.map Prod.fst).contains e.1 = true := by
    intro e he
    obtain ⟨f, hf, rfl⟩ := List.mem_map.mp he
    exact List.contains_iff_mem.mpr (List.mem_map_of_mem (f := Prod.fst) (mem_present hf))
  have hunknown : ∀ e ∈ parts extra, (fields.map Prod.fst).contains e.1 = false := by
    intro e he
    obtain ⟨f, hf, rfl⟩ := List.mem_map.mp he
    simpa using hextra.apart f hf
  have happend : parts (present fields ++ extra) = parts (present fields) ++ parts extra :=
    List.map_append
  rw [List.partition_eq_filter_filter, happend, List.filter_append, List.filter_append,
    List.filter_eq_self.mpr hknown, List.filter_eq_nil_iff.mpr (by simpa using hunknown),
    List.filter_eq_nil_iff.mpr (by simpa using hknown),
    List.filter_eq_self.mpr (by simpa using hunknown), List.append_nil, List.nil_append]

/-- A written record is read part by part. -/
theorem exists_record {n : Nat} (hnames : (fields.map Prod.fst).Nodup)
    (hextra : Extra (fields.map Prod.fst) n extra) :
    ∃ r, Record.ofObject? (fields.map Prod.fst) (.ofJson (.object (present fields ++ extra))) =
        some r ∧
      (∀ f ∈ fields, r.part? f.1 = f.2.map Raw.ofJson) ∧ r.rest = some extra := by
  have hkeys : ((parts (present fields)).map Prod.fst).Nodup := by
    rw [keys_parts]
    exact (keys_present_sublist fields).nodup hnames
  refine ⟨⟨parts (present fields), parts extra⟩, ?_, fun f hf => ?_, ?_⟩
  · simp only [Raw.ofJson, Record.ofObject?, mapM_namedEntry?_ofEntries, Option.bind_eq_bind,
      Option.bind_some, partition_parts hextra, if_pos hkeys]
  · rw [Record.part?, lookup_parts, lookup_present hnames hf]
  · have hentries : (parts extra).map (fun e => (some e.1, e.2)) = Raw.ofEntries extra := by
      simp [parts, Raw.ofEntries_eq_map]
    have hvalues : Raw.entries? (Raw.ofEntries extra) = some extra :=
      Raw.entries?_ofEntries fun e he => Raw.value?_ofJson (hextra.fits e he)
    simp [Record.rest, hentries, hvalues, Entries.ofList_eq_self hextra.keys]

/-- A record can be read again if its fields and the other entries fit, and if reading its
fields and the rest puts it together again. -/
theorem reread_record (names : List String) {n : Nat} {read : Raw → Option α} {write : α → Json}
    {a : α} (hwrite : write a = .object (present fields ++ extra))
    (hfields : fields.map Prod.fst = names) (hnames : names.Nodup)
    (hfits : ∀ f ∈ fields, ∀ v ∈ f.2, v.Fits n) (hextra : Extra names n extra)
    (hread : ∀ {es r}, Record.ofObject? names (.ofJson (.object es)) = some r →
      (∀ f ∈ fields, r.part? f.1 = f.2.map Raw.ofJson) → r.rest = some extra →
      read (.ofJson (.object es)) = some a) :
    Reread (n + 1) read write a := by
  subst hfields
  obtain ⟨r, hr, hparts, hrest⟩ := exists_record hnames hextra
  refine ⟨?_, ?_⟩
  · rw [hwrite]
    exact fits_record hnames hfits hextra
  · rw [hwrite]
    exact hread hr hparts hrest

end

/-! ### Single fields -/

namespace Record

/-- A record that is written as an object is read as one. -/
theorem read?_ofJson_object (names : List String) (es : Entries) :
    Record.read? names (.ofJson (.object es)) = ofObject? names (.ofJson (.object es)) := by
  rw [Raw.ofJson]
  rfl

variable {r : Record} {name : String}

/-- A field that has to be there is read from its part. -/
theorem required_of_part? {read : Raw → Option α} {p : Raw} (h : r.part? name = some p) :
    r.required name read = read p := by
  simp [required, h]

/-- A field with a default is read from its part, if it is there. -/
theorem withDefault_of_part? {default : α} {read : Raw → Option α} {p : Raw}
    (h : r.part? name = some p) : r.withDefault name default read = read p := by
  simp [withDefault, h]

/-- A text that may be missing is read as it was written: not at all, or as a text. -/
theorem optional_text_of_part? {s : Option String}
    (h : r.part? name = (s.map Json.string).map Raw.ofJson) :
    r.optional name Raw.text? = some s := by
  cases s with
  | none => simp_all [optional, withDefault]
  | some s => simp_all [optional, withDefault, nullable, Raw.ofJson, Raw.text?]

end Record

/-- Whatever is read with `read` is written by `write` so that it can be read again. -/
def Rereads (n : Nat) (read : Raw → Option α) (write : α → Json) : Prop :=
  ∀ part a, part.Fits n → read part = some a → Reread n read write a

namespace Rereads

variable {n : Nat} {read : Raw → Option α} {write : α → Json} (hre : Rereads n read write)
include hre

/-- A field that has to be there is written and read again. -/
theorem required {names : List String} {r : Record} (hr : r.Fits names n) {name : String} {a : α}
    (h : r.required name read = some a) : Reread n read write a := by
  obtain ⟨p, hp, hread⟩ := Option.bind_eq_some_iff.mp h
  exact hre p a (hr.part hp) hread

/-- A field with a default is written and read again, also where it has the default. -/
theorem withDefault {names : List String} {r : Record} (hr : r.Fits names n) {name : String}
    {default a : α} (hdefault : Reread n read write default)
    (h : r.withDefault name default read = some a) : Reread n read write a := by
  rw [Record.withDefault] at h
  split at h
  · exact Option.some.inj h ▸ hdefault
  · rename_i p hp
    exact hre p a (hr.part hp) h

/-- A list is written and read again if its items are. -/
theorem list : Rereads (n + 1) (Raw.listOf? read) fun xs => .array (xs.map write) := by
  intro part xs hp h
  cases hp with
  | @array _ items hitems =>
    have hmem : ∀ x ∈ xs, Reread n read write x := by
      intro x hx
      obtain ⟨item, hitem, hread⟩ := exists_mem_of_mapM_eq_some h hx
      exact hre item x (hitems item hitem) hread
    refine ⟨.array fun v hv => ?_, ?_⟩
    · obtain ⟨x, hx, rfl⟩ := List.mem_map.mp hv
      exact (hmem x hx).fits
    · rw [Raw.ofJson, Raw.ofItems_eq_map, List.map_map]
      exact mapM_eq_some_of_forall fun x hx => (hmem x hx).read
  | null | bool | number | string | object | refused => cases h

end Rereads

/-- An empty list is written and read again. -/
theorem reread_emptyList {n : Nat} (hn : 0 < n) (read : Raw → Option α) (write : α → Json) :
    Reread n (Raw.listOf? read) (fun xs => .array (xs.map write)) [] := by
  obtain ⟨n, rfl⟩ := Nat.exists_eq_add_one.mpr hn
  exact ⟨.array (by simp), rfl⟩

/-- An object is written and read again as it is. -/
theorem rereads_object {n : Nat} : Rereads n Raw.object? Json.object := by
  intro part es hp h
  obtain ⟨v, hv, hes⟩ := Option.bind_eq_some_iff.mp h
  cases v with
  | object entries =>
    obtain rfl := Option.some.inj hes
    have hfits := hp.value hv
    exact ⟨hfits, by simp [Raw.object?, Raw.value?_ofJson hfits, entries?]⟩
  | null | bool | number | string | array => cases hes

/-- An empty object is written and read again. -/
theorem reread_emptyObject {n : Nat} (hn : 0 < n) : Reread n Raw.object? Json.object [] := by
  obtain ⟨n, rfl⟩ := Nat.exists_eq_add_one.mpr hn
  exact ⟨.object List.nodup_nil (by simp), rfl⟩

/-- A text is written and read again. -/
theorem reread_text (n : Nat) (s : String) : Reread n Raw.text? Json.string s := ⟨.string s, rfl⟩

/-- A double is written with a fraction or an exponent, also where it was an integer. -/
theorem reread_double (n : Nat) (d : Double) :
    Reread n Raw.double? (fun d => .number (.double d)) d :=
  ⟨.number trivial, rfl⟩

end Workflow.Json
