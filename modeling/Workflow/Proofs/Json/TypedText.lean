import Workflow.Json.ObjectText
import Workflow.Proofs.Json.Rereading

/-!
# Maps as people edit them

A map is shown in its pretty form, which begins and ends with a bracket. So nothing of it is
trimmed, however many characters count as blanks, and a map that was typed is read back from what
is shown for it, with the same keys in the same order on every level.
-/

namespace Workflow

/-- A text between two characters that are not blank is trimmed to itself. -/
theorem Text.trim_enclosed {first last : Char} (hfirst : isBlank first = false)
    (hlast : isBlank last = false) (inner : List Char) :
    trim (String.ofList (first :: (inner ++ [last]))) =
      String.ofList (first :: (inner ++ [last])) := by
  simp [trim, hfirst, hlast]

namespace Json

theorem exists_prettyEntries_eq (level : Nat) (es : Entries) :
    ∃ inner, prettyEntries level es = inner ++ ['\x7d'] := by
  induction es with
  | nil => exact ⟨newLine level, rfl⟩
  | cons e es ih =>
    obtain ⟨inner, hinner⟩ := ih
    rw [prettyEntries, hinner]
    exact ⟨',' :: (newLine (level + 1) ++ writeText e.1 ++ ':' :: ' ' ::
      (prettyChars (level + 1) e.2 ++ inner)), by simp⟩

/-- A map is shown between brackets. -/
theorem Entries.exists_toText_eq (es : Entries) :
    ∃ inner, es.toText = String.ofList ('\x7b' :: (inner ++ ['\x7d'])) := by
  cases es with
  | nil => exact ⟨[], rfl⟩
  | cons e es =>
    obtain ⟨inner, hinner⟩ := exists_prettyEntries_eq 0 es
    refine ⟨newLine 1 ++ writeText e.1 ++ ':' :: ' ' :: (prettyChars 1 e.2 ++ inner), ?_⟩
    rw [toText, pretty, prettyChars, hinner]
    simp

/-- What is written for a value that a text can hold is read as this value. -/
theorem read?_eq_of_mem_writings {v : Json} (h : v.Fits nestingLimit)
    (hd : ∀ d ∈ v.doubles, d.ReadsBack) {text : String} (htext : text ∈ v.writings) :
    read? text = some v := by
  rw [read?, read?_of_mem_writings h hd text htext, Option.bind_some, Raw.value?_ofJson h]

namespace Entries

variable {text : String} {es : Entries}

/-- A typed text is a map exactly if it is blank, for the empty map, or holds an object without
blank keys. -/
theorem ofText_eq_ok_iff : ofText text = .ok es ↔
    (Text.trim text).isEmpty = true ∧ es = [] ∨
      (Text.trim text).isEmpty = false ∧ read? (Text.trim text) = some (.object es) ∧
        ∀ key ∈ es.keys, Text.isBlankText key = false := by
  simp only [ofText]
  cases (Text.trim text).isEmpty with
  | true =>
    simp only [if_true, Except.ok.injEq, true_and, Bool.true_eq_false, false_and, or_false]
    exact eq_comm
  | false =>
    simp only [Bool.false_eq_true, if_false, false_and, false_or, true_and]
    cases read? (Text.trim text) with
    | none => simp
    | some v =>
      cases v with
      | null | bool | number | string | array => simp
      | object entries =>
        simp only [Option.some.injEq, Json.object.injEq]
        by_cases hblank : (keys entries).any Text.isBlankText = true
        · obtain ⟨key, hkey, hkeyBlank⟩ := List.any_eq_true.mp hblank
          rw [if_pos hblank]
          refine iff_of_false nofun ?_
          rintro ⟨rfl, hkeys⟩
          exact absurd hkeyBlank (by simp [hkeys key hkey])
        · have hkeys : ∀ key ∈ keys entries, Text.isBlankText key = false := by simpa using hblank
          rw [if_neg hblank, Except.ok.injEq]
          exact ⟨fun h => ⟨h, h ▸ hkeys⟩, And.left⟩

/-- What a text holds fits the levels that a reader follows. -/
theorem fits_of_ofText (h : ofText text = .ok es) : (Json.object es).Fits nestingLimit := by
  obtain ⟨-, rfl⟩ | ⟨-, hread, -⟩ := ofText_eq_ok_iff.mp h
  · exact fits_object_iff.mpr ⟨List.nodup_nil, List.forall_mem_nil _⟩
  · obtain ⟨part, hpart, hvalue⟩ := Option.bind_eq_some_iff.mp hread
    exact (fits_of_read? hpart).value hvalue

/-- A map that was typed is read back from the text that is shown for it: editing loses no key, no
value and no order on any level, if its doubles are read back. -/
theorem ofText_toText (h : ofText text = .ok es) (hd : ∀ d ∈ (Json.object es).doubles, d.ReadsBack) :
    ofText es.toText = .ok es := by
  have hfits := fits_of_ofText h
  have hkeys : ∀ key ∈ es.keys, Text.isBlankText key = false := by
    obtain ⟨-, rfl⟩ | ⟨-, -, hkeys⟩ := ofText_eq_ok_iff.mp h
    · exact List.forall_mem_nil _
    · exact hkeys
  obtain ⟨inner, hinner⟩ := es.exists_toText_eq
  have htrim : Text.trim es.toText = es.toText := by
    rw [hinner, Text.trim_enclosed (by decide) (by decide)]
  have hread : read? es.toText = some (.object es) :=
    read?_eq_of_mem_writings hfits hd (List.mem_cons_of_mem _ List.mem_cons_self)
  refine ofText_eq_ok_iff.mpr (.inr ⟨?_, htrim.symm ▸ hread, hkeys⟩)
  rw [htrim, hinner]
  simp

/-- A map with a double, a list without items and a key of two lines, on two levels. -/
def annotated : Entries :=
  [("b", .number (.double .threeHalves)),
    ("a", .object [("two\nlines", .array []), ("z", .bool true)])]

/-- Typed on one line between blanks that are not white space in JSON, a map is shown on lines of
its own and read back. -/
theorem ofText_toText_annotated :
    let text := "\u00a0\x7b\"b\":1.5,\"a\":\x7b\"two\\nlines\":[],\"z\":true\x7d\x7d\u2003"
    ofText text = .ok annotated ∧ (∀ d ∈ (Json.object annotated).doubles, d.ReadsBack) ∧
      ofText annotated.toText = .ok annotated := by
  intro text
  have hdoubles : ∀ d ∈ (Json.object annotated).doubles, d.ReadsBack := by
    have hall : ∀ d ∈ (Json.object annotated).doubles, d = .threeHalves := by decide
    exact fun d hd => hall d hd ▸ Double.readsBack_threeHalves
  have hfits : (Json.object annotated).Fits nestingLimit := by
    simp [annotated, nestingLimit, Number.InRange, keys]
  have htrim : Text.trim text = (Json.object annotated).compact := by decide +kernel
  have hread : read? (Text.trim text) = some (.object annotated) :=
    htrim ▸ read?_eq_of_mem_writings hfits hdoubles List.mem_cons_self
  have hsome : (Text.trim text).isEmpty = false := by decide +kernel
  have htyped : ofText text = .ok annotated :=
    ofText_eq_ok_iff.mpr (.inr ⟨hsome, hread, by decide +kernel⟩)
  exact ⟨htyped, hdoubles, ofText_toText htyped hdoubles⟩

end Entries

end Json

end Workflow
