import Mathlib.Data.List.TakeWhile
import Workflow.Proofs.Json.WrittenNumber

/-!
# Texts of a value

A value can be written in many ways that differ in white space only. Every such text is read as
the value, whatever stands behind it, as long as it is not nested too deeply. The compact and the
pretty form are two of them.
-/

namespace Workflow.Json

/-! ### White space -/

/-- Nothing but white space. -/
def Spaces (w : List Char) : Prop := ∀ c ∈ w, isSpace c = true

theorem spaces_nil : Spaces [] := by
  intro c hc
  cases hc

/-- The blanks of a new line are blanks. -/
theorem spaces_newLine (level : Nat) : Spaces (newLine level) := by
  intro c hc
  obtain rfl | hc := List.mem_cons.mp hc
  · decide
  · rw [List.eq_of_mem_replicate hc]
    decide

section

variable {w : List Char} (hw : Spaces w)
include hw

/-- Blanks in front of another character are passed over. -/
theorem afterSpace_append {c : Char} (cs : List Char) (hc : isSpace c = false) :
    ∃ h, afterSpace (w ++ c :: cs) = ⟨c :: cs, h⟩ := by
  have hskip : skipSpace (w ++ c :: cs) = c :: cs := by
    rw [skipSpace, List.dropWhile_append_of_pos hw, List.dropWhile_cons_of_neg (by simp [hc])]
  exact ⟨by simp, Subtype.ext hskip⟩

/-- A mark is read behind blanks. -/
theorem readMark_append (mark : Char) (cs : List Char) (hmark : isSpace mark = false) :
    ∃ h, readMark mark (w ++ mark :: cs) = some ⟨cs, h⟩ := by
  obtain ⟨h, hafter⟩ := afterSpace_append hw cs hmark
  refine ⟨by simp; omega, ?_⟩
  rw [readMark, hafter]
  simp

/-- No mark is read where another character stands behind the blanks. -/
theorem readMark_append_of_ne {mark c : Char} (cs : List Char) (hc : isSpace c = false)
    (hne : c ≠ mark) : readMark mark (w ++ c :: cs) = none := by
  obtain ⟨h, hafter⟩ := afterSpace_append hw cs hc
  rw [readMark, hafter]
  simp [hne]

/-- A number ends in front of a character that goes on with none, also behind blanks. -/
theorem endsNumber_append {c : Char} {rest : List Char}
    (hc : c.isDigit = false ∧ c ≠ '.' ∧ c ≠ 'e' ∧ c ≠ 'E') : EndsNumber (w ++ c :: rest) := by
  cases w with
  | nil => exact endsNumber_cons hc
  | cons d w =>
    have hd := hw d List.mem_cons_self
    simp only [isSpace, Bool.or_eq_true, beq_iff_eq] at hd
    obtain ((rfl | rfl) | rfl) | rfl := hd <;> exact endsNumber_cons (by decide)

end

/-! ### Values without parts -/

section

variable {w : List Char} (hw : Spaces w) (depth : Nat)
include hw

/-- The word for nothing is read behind blanks. -/
theorem leaves_readValue_null (rest : List Char) :
    Leaves (readValue depth (w ++ ('n' :: 'u' :: 'l' :: 'l' :: rest))) .null rest := by
  obtain ⟨h, hafter⟩ := afterSpace_append hw ('u' :: 'l' :: 'l' :: rest) (c := 'n') (by decide)
  rw [readValue, hafter]
  simp [readWord, leaves_some_iff]

/-- A truth value is read behind blanks. -/
theorem leaves_readValue_bool (b : Bool) (rest : List Char) :
    Leaves (readValue depth (w ++ (writeBool b ++ rest))) (.bool b) rest := by
  cases b with
  | true =>
    obtain ⟨h, hafter⟩ := afterSpace_append hw ('r' :: 'u' :: 'e' :: rest) (c := 't') (by decide)
    change Leaves (readValue depth (w ++ 't' :: 'r' :: 'u' :: 'e' :: rest)) _ _
    rw [readValue, hafter]
    simp [readWord, leaves_some_iff]
  | false =>
    obtain ⟨h, hafter⟩ :=
      afterSpace_append hw ('a' :: 'l' :: 's' :: 'e' :: rest) (c := 'f') (by decide)
    change Leaves (readValue depth (w ++ 'f' :: 'a' :: 'l' :: 's' :: 'e' :: rest)) _ _
    rw [readValue, hafter]
    simp [readWord, leaves_some_iff]

/-- A written text is read as itself. -/
theorem leaves_readValue_text (s : String) (rest : List Char) :
    Leaves (readValue depth (w ++ (writeText s ++ rest))) (.string s) rest := by
  obtain ⟨hlt, hread⟩ := leaves_readText s rest
  obtain ⟨h, hafter⟩ :=
    afterSpace_append hw (s.toList.flatMap escape ++ '"' :: rest) (c := '"') (by decide)
  have htext : writeText s ++ rest = '"' :: (s.toList.flatMap escape ++ '"' :: rest) := by
    simp [writeText]
  rw [htext, readValue, hafter]
  simp [hread, leaves_some_iff]

/-- A written number is read as itself, where it ends. -/
theorem leaves_readValue_number {x : Number} (hx : x.Legible) {rest : List Char}
    (hrest : EndsNumber rest) :
    Leaves (readValue depth (w ++ (x.write ++ rest))) (.number x) rest := by
  obtain ⟨negative, body, n, hwrite, hread, hvalue⟩ := hx
  obtain ⟨c, cs, rfl, hdigit⟩ := exists_cons_of_readNumeral hread
  have hraw : n.toRaw = .number x := by simp [Numeral.toRaw, hvalue]
  obtain ⟨hlt, hread⟩ := readNumeral_append hrest hread
  rw [hwrite]
  cases negative with
  | true =>
    obtain ⟨h, hafter⟩ := afterSpace_append hw (c :: cs ++ rest) (c := '-') (by decide)
    change Leaves (readValue depth (w ++ '-' :: (c :: cs ++ rest))) _ _
    rw [readValue, hafter]
    simp only [hread]
    exact leaves_some_iff.mpr ⟨hraw, rfl⟩
  | false =>
    have hspace : isSpace c = false := IsNumeric.isSpace_eq_false (.inl hdigit)
    obtain ⟨h, hafter⟩ := afterSpace_append hw (cs ++ rest) hspace
    change Leaves (readValue depth (w ++ c :: (cs ++ rest))) _ _
    rw [readValue, hafter]
    simp only
    split
    case h_8 =>
      change readNumeral false (c :: (cs ++ rest)) = _ at hread
      simp only [hread]
      exact leaves_some_iff.mpr ⟨hraw, rfl⟩
    all_goals cases hdigit

end

/-! ### Lists and objects -/

section

variable {w : List Char} (hw : Spaces w) {depth : Nat}
include hw

/-- An empty list is read as such, unless it is nested too deeply. -/
theorem leaves_readValue_emptyArray (h : depth < nestingLimit) (rest : List Char) :
    Leaves (readValue depth (w ++ ('[' :: ']' :: rest))) (.array []) rest := by
  obtain ⟨_, hafter⟩ := afterSpace_append hw (']' :: rest) (c := '[') (by decide)
  obtain ⟨_, hmark⟩ : ∃ h, readMark ']' (']' :: rest) = some ⟨rest, h⟩ :=
    readMark_append spaces_nil _ rest (by decide)
  rw [readValue, hafter]
  simp only [hmark]
  exact leaves_some_iff.mpr ⟨if_pos h, rfl⟩

/-- An empty object is read as such, unless it is nested too deeply. -/
theorem leaves_readValue_emptyObject (h : depth < nestingLimit) (rest : List Char) :
    Leaves (readValue depth (w ++ ('\x7b' :: '\x7d' :: rest))) (.object []) rest := by
  obtain ⟨_, hafter⟩ := afterSpace_append hw ('\x7d' :: rest) (c := '\x7b') (by decide)
  obtain ⟨_, hmark⟩ : ∃ h, readMark '\x7d' ('\x7d' :: rest) = some ⟨rest, h⟩ :=
    readMark_append spaces_nil _ rest (by decide)
  rw [readValue, hafter]
  simp only [hmark]
  exact leaves_some_iff.mpr ⟨if_pos h, rfl⟩

/-- A list is read if its items are, one level further in. -/
theorem leaves_readValue_array (h : depth < nestingLimit) {cs rest : List Char} {items : List Raw}
    (hmark : readMark ']' cs = none) (hitems : Leaves (readItems (depth + 1) cs) items rest) :
    Leaves (readValue depth (w ++ '[' :: cs)) (.array items) rest := by
  obtain ⟨_, hafter⟩ := afterSpace_append hw cs (c := '[') (by decide)
  obtain ⟨_, hread⟩ := hitems
  rw [readValue, hafter]
  simp only [hmark, hread]
  exact leaves_some_iff.mpr ⟨if_pos h, rfl⟩

/-- An object is read if its entries are, one level further in. -/
theorem leaves_readValue_object (h : depth < nestingLimit) {cs rest : List Char}
    {entries : List (Option String × Raw)} (hmark : readMark '\x7d' cs = none)
    (hentries : Leaves (readEntries (depth + 1) cs) entries rest) :
    Leaves (readValue depth (w ++ '\x7b' :: cs)) (.object entries) rest := by
  obtain ⟨_, hafter⟩ := afterSpace_append hw cs (c := '\x7b') (by decide)
  obtain ⟨_, hread⟩ := hentries
  rw [readValue, hafter]
  simp only [hmark, hread]
  exact leaves_some_iff.mpr ⟨if_pos h, rfl⟩

/-- The last item is followed by the bracket that closes the list. -/
theorem leaves_readItems_last {cs rest : List Char} {item : Raw}
    (hitem : Leaves (readValue depth cs) item (w ++ ']' :: rest)) :
    Leaves (readItems depth cs) [item] rest := by
  obtain ⟨hlt, hread⟩ := hitem
  obtain ⟨_, hmark⟩ := readMark_append hw ']' rest (by decide)
  have hcomma : readMark ',' (w ++ ']' :: rest) = none :=
    readMark_append_of_ne hw rest (by decide) (by decide)
  rw [readItems, hread]
  simp only [Option.bind_eq_bind, Option.bind_some, hcomma, hmark]
  exact leaves_some_iff.mpr ⟨rfl, rfl⟩

/-- A key in quotes and the colon behind it are read as the key. -/
theorem readMark_writeText (key : String) (ds : List Char) :
    ∃ quoted h, readMark '"' (w ++ (writeText key ++ ':' :: ds)) = some ⟨quoted, h⟩ ∧
      Leaves (readText quoted) (some key) (':' :: ds) := by
  have htext : writeText key ++ ':' :: ds =
      '"' :: (key.toList.flatMap escape ++ '"' :: ':' :: ds) := by
    simp [writeText]
  obtain ⟨h, hquote⟩ :=
    readMark_append hw '"' (key.toList.flatMap escape ++ '"' :: ':' :: ds) (by decide)
  rw [htext]
  exact ⟨_, h, hquote, leaves_readText key (':' :: ds)⟩

/-- The last entry is followed by the brace that closes the object. -/
theorem leaves_readEntries_last {ds u rest : List Char} {key : String} {value : Raw}
    (hu : Spaces u) (hvalue : Leaves (readValue depth ds) value (u ++ '\x7d' :: rest)) :
    Leaves (readEntries depth (w ++ (writeText key ++ ':' :: ds))) [(some key, value)] rest := by
  obtain ⟨_, hread⟩ := hvalue
  obtain ⟨quoted, _, hquote, _, hkey⟩ := readMark_writeText hw key ds
  obtain ⟨_, hcolon⟩ : ∃ h, readMark ':' (':' :: ds) = some ⟨ds, h⟩ :=
    readMark_append spaces_nil _ ds (by decide)
  have hcomma : readMark ',' (u ++ '\x7d' :: rest) = none :=
    readMark_append_of_ne hu rest (by decide) (by decide)
  obtain ⟨_, hmark⟩ := readMark_append hu '\x7d' rest (by decide)
  rw [readEntries, hquote]
  simp only [Option.bind_eq_bind, Option.bind_some, hkey, hcolon, hread, hcomma, hmark]
  exact leaves_some_iff.mpr ⟨rfl, rfl⟩

/-- An entry in front of a comma is followed by further ones. -/
theorem leaves_readEntries_more {ds more rest : List Char} {key : String} {value : Raw}
    {entries : List (Option String × Raw)}
    (hvalue : Leaves (readValue depth ds) value (',' :: more))
    (hentries : Leaves (readEntries depth more) entries rest) :
    Leaves (readEntries depth (w ++ (writeText key ++ ':' :: ds))) ((some key, value) :: entries)
      rest := by
  obtain ⟨_, hread⟩ := hvalue
  obtain ⟨_, hread'⟩ := hentries
  obtain ⟨quoted, _, hquote, _, hkey⟩ := readMark_writeText hw key ds
  obtain ⟨_, hcolon⟩ : ∃ h, readMark ':' (':' :: ds) = some ⟨ds, h⟩ :=
    readMark_append spaces_nil _ ds (by decide)
  obtain ⟨_, hcomma⟩ : ∃ h, readMark ',' (',' :: more) = some ⟨more, h⟩ :=
    readMark_append spaces_nil _ more (by decide)
  rw [readEntries, hquote]
  simp only [Option.bind_eq_bind, Option.bind_some, hkey, hcolon, hread, hcomma, hread']
  exact leaves_some_iff.mpr ⟨rfl, rfl⟩

end

/-- An item in front of a comma is followed by further ones. -/
theorem leaves_readItems_more {depth : Nat} {cs more rest : List Char} {item : Raw}
    {items : List Raw} (hitem : Leaves (readValue depth cs) item (',' :: more))
    (hitems : Leaves (readItems depth more) items rest) :
    Leaves (readItems depth cs) (item :: items) rest := by
  obtain ⟨_, hread⟩ := hitem
  obtain ⟨_, hread'⟩ := hitems
  obtain ⟨_, hcomma⟩ : ∃ h, readMark ',' (',' :: more) = some ⟨more, h⟩ :=
    readMark_append spaces_nil _ more (by decide)
  rw [readItems, hread]
  simp only [Option.bind_eq_bind, Option.bind_some, hcomma, hread']
  exact leaves_some_iff.mpr ⟨rfl, rfl⟩

/-! ### All texts of a value -/

mutual

/-- The texts of a value with at most the given levels of lists and objects. White space may
stand on both sides of every item, entry and value. -/
inductive Spells : Nat → Json → List Char → Prop
  | null {n : Nat} : Spells n .null ['n', 'u', 'l', 'l']
  | bool {n : Nat} (b : Bool) : Spells n (.bool b) (writeBool b)
  | number {n : Nat} {x : Number} (hx : x.Legible) : Spells n (.number x) x.write
  | string {n : Nat} (s : String) : Spells n (.string s) (writeText s)
  | emptyArray {n : Nat} : Spells (n + 1) (.array []) ['[', ']']
  | array {n : Nat} {item : Json} {items : List Json} {w cs ds : List Char} (hw : Spaces w)
      (hitem : Spells n item cs) (hitems : SpellsItems n items ds) :
      Spells (n + 1) (.array (item :: items)) ('[' :: (w ++ (cs ++ ds)))
  | emptyObject {n : Nat} : Spells (n + 1) (.object []) ['\x7b', '\x7d']
  | object {n : Nat} {key : String} {value : Json} {entries : Entries} {w u cs ds : List Char}
      (hw : Spaces w) (hu : Spaces u) (hvalue : Spells n value cs)
      (hentries : SpellsEntries n entries ds) :
      Spells (n + 1) (.object ((key, value) :: entries))
        ('\x7b' :: (w ++ (writeText key ++ ':' :: (u ++ (cs ++ ds)))))

/-- The texts of the items behind the first one, with the bracket that closes them. -/
inductive SpellsItems : Nat → List Json → List Char → Prop
  | nil {n : Nat} {w : List Char} (hw : Spaces w) : SpellsItems n [] (w ++ [']'])
  | cons {n : Nat} {item : Json} {items : List Json} {w cs ds : List Char} (hw : Spaces w)
      (hitem : Spells n item cs) (hitems : SpellsItems n items ds) :
      SpellsItems n (item :: items) (',' :: (w ++ (cs ++ ds)))

/-- The texts of the entries behind the first one, with the bracket that closes them. -/
inductive SpellsEntries : Nat → Entries → List Char → Prop
  | nil {n : Nat} {w : List Char} (hw : Spaces w) : SpellsEntries n [] (w ++ ['\x7d'])
  | cons {n : Nat} {key : String} {value : Json} {entries : Entries} {w u cs ds : List Char}
      (hw : Spaces w) (hu : Spaces u) (hvalue : Spells n value cs)
      (hentries : SpellsEntries n entries ds) :
      SpellsEntries n ((key, value) :: entries)
        (',' :: (w ++ (writeText key ++ ':' :: (u ++ (cs ++ ds)))))

end

/-- A text of a value begins with a character that closes nothing. -/
theorem Spells.exists_cons {n : Nat} {v : Json} {cs : List Char} (h : Spells n v cs) :
    ∃ c more, cs = c :: more ∧ isSpace c = false ∧ c ≠ ']' := by
  cases h with
  | null => exact ⟨_, _, rfl, by decide⟩
  | bool b => cases b <;> exact ⟨_, _, rfl, by decide⟩
  | @number _ x hx =>
    obtain ⟨negative, body, m, hwrite, hread, -⟩ := hx
    obtain ⟨c, more, rfl, hdigit⟩ := exists_cons_of_readNumeral hread
    cases negative with
    | true => exact ⟨'-', c :: more, hwrite, by decide⟩
    | false =>
      refine ⟨c, more, hwrite, IsNumeric.isSpace_eq_false (.inl hdigit), ?_⟩
      rintro rfl
      cases hdigit
  | string | emptyArray | array | emptyObject | object => exact ⟨_, _, rfl, by decide⟩

/-- What follows an item does not go on with a number. -/
theorem SpellsItems.endsNumber {n : Nat} {items : List Json} {ds : List Char}
    (h : SpellsItems n items ds) (rest : List Char) : EndsNumber (ds ++ rest) := by
  cases h with
  | nil hw =>
    rw [List.append_assoc]
    exact endsNumber_append hw (by decide)
  | cons => exact endsNumber_cons (by decide)

/-- A number ends in front of what stands behind an entry. -/
theorem SpellsEntries.endsNumber {n : Nat} {entries : Entries} {ds : List Char}
    (h : SpellsEntries n entries ds) (rest : List Char) : EndsNumber (ds ++ rest) := by
  cases h with
  | nil hw =>
    rw [List.append_assoc]
    exact endsNumber_append hw (by decide)
  | cons => exact endsNumber_cons (by decide)

mutual

/-- Every text of a value is read as the value, with white space in front of it and whatever
does not go on with a number behind it. -/
theorem Spells.leaves_readValue {n : Nat} {v : Json} {cs : List Char} (h : Spells n v cs)
    {depth : Nat} (hdepth : depth + n ≤ nestingLimit) {w rest : List Char} (hw : Spaces w)
    (hrest : EndsNumber rest) :
    Leaves (readValue depth (w ++ (cs ++ rest))) (Raw.ofJson v) rest := by
  cases h with
  | null => exact leaves_readValue_null hw depth rest
  | bool b => exact leaves_readValue_bool hw depth b rest
  | number hx => exact leaves_readValue_number hw depth hx hrest
  | string s => exact leaves_readValue_text hw depth s rest
  | emptyArray => exact leaves_readValue_emptyArray hw (by omega) rest
  | @array n item items u cs ds hu hitem hitems =>
    have hdepth' : depth + 1 + n ≤ nestingLimit := by omega
    have hfirst := Spells.leaves_readValue hitem hdepth' hu (hitems.endsNumber rest)
    have hall := SpellsItems.leaves_readItems hitems hdepth' hfirst
    have hmark : readMark ']' (u ++ (cs ++ (ds ++ rest))) = none := by
      obtain ⟨c, more, rfl, hspace, hclose⟩ := hitem.exists_cons
      exact readMark_append_of_ne hu _ hspace hclose
    have htext : '[' :: (u ++ (cs ++ ds)) ++ rest = '[' :: (u ++ (cs ++ (ds ++ rest))) := by simp
    rw [htext]
    exact leaves_readValue_array hw (by omega) hmark hall
  | emptyObject => exact leaves_readValue_emptyObject hw (by omega) rest
  | @object n key value entries u u' cs ds hu hu' hvalue hentries =>
    have hdepth' : depth + 1 + n ≤ nestingLimit := by omega
    have hfirst := Spells.leaves_readValue hvalue hdepth' hu' (hentries.endsNumber rest)
    have hall := SpellsEntries.leaves_readEntries hentries hdepth' hu key hfirst
    have hmark : readMark '\x7d'
        (u ++ (writeText key ++ ':' :: (u' ++ (cs ++ (ds ++ rest))))) = none :=
      readMark_append_of_ne hu _ (c := '"') (by decide) (by decide)
    have htext : '\x7b' :: (u ++ (writeText key ++ ':' :: (u' ++ (cs ++ ds)))) ++ rest =
        '\x7b' :: (u ++ (writeText key ++ ':' :: (u' ++ (cs ++ (ds ++ rest))))) := by simp
    rw [htext]
    exact leaves_readValue_object hw (by omega) hmark hall

/-- Items are read behind a first one. -/
theorem SpellsItems.leaves_readItems {n : Nat} {items : List Json} {ds : List Char}
    (h : SpellsItems n items ds) {depth : Nat} (hdepth : depth + n ≤ nestingLimit)
    {first : Raw} {front rest : List Char}
    (hfirst : Leaves (readValue depth front) first (ds ++ rest)) :
    Leaves (readItems depth front) (first :: Raw.ofItems items) rest := by
  cases h with
  | @nil _ w hw =>
    rw [List.append_assoc] at hfirst
    exact leaves_readItems_last hw hfirst
  | @cons n item items w cs ds hw hitem hitems =>
    have hnext := Spells.leaves_readValue hitem hdepth hw (hitems.endsNumber rest)
    have hall := SpellsItems.leaves_readItems hitems hdepth hnext
    have htext : ',' :: (w ++ (cs ++ ds)) ++ rest = ',' :: (w ++ (cs ++ (ds ++ rest))) := by simp
    rw [htext] at hfirst
    exact leaves_readItems_more hfirst hall

/-- Entries are read behind a first one. -/
theorem SpellsEntries.leaves_readEntries {n : Nat} {entries : Entries} {ds : List Char}
    (h : SpellsEntries n entries ds) {depth : Nat} (hdepth : depth + n ≤ nestingLimit)
    {w front rest : List Char} (hw : Spaces w) (key : String) {first : Raw}
    (hfirst : Leaves (readValue depth front) first (ds ++ rest)) :
    Leaves (readEntries depth (w ++ (writeText key ++ ':' :: front)))
      ((some key, first) :: Raw.ofEntries entries) rest := by
  cases h with
  | @nil _ u hu =>
    rw [List.append_assoc] at hfirst
    exact leaves_readEntries_last hw hu hfirst
  | @cons n next value entries u u' cs ds hu hu' hvalue hentries =>
    have hnext := Spells.leaves_readValue hvalue hdepth hu' (hentries.endsNumber rest)
    have hall := SpellsEntries.leaves_readEntries hentries hdepth hu next hnext
    have htext : ',' :: (u ++ (writeText next ++ ':' :: (u' ++ (cs ++ ds)))) ++ rest =
        ',' :: (u ++ (writeText next ++ ':' :: (u' ++ (cs ++ (ds ++ rest))))) := by simp
    rw [htext] at hfirst
    exact leaves_readEntries_more hw hfirst hall

end

/-- Nothing is left behind the white space of a text that holds nothing else. -/
theorem isEmpty_skipSpace_iff {cs : List Char} : (skipSpace cs).isEmpty = true ↔ Spaces cs := by
  rw [List.isEmpty_iff, skipSpace, List.dropWhile_eq_nil_iff]
  rfl

/-- What a text holds is read at its front, and nothing but white space follows. -/
theorem Raw.read?_eq_some_iff {text : String} {part : Raw} :
    Raw.read? text = some part ↔
      ∃ rest, Leaves (readValue 0 text.toList) part rest ∧ Spaces rest := by
  simp only [Raw.read?, ← isEmpty_skipSpace_iff]
  constructor
  · intro h
    obtain ⟨⟨found, rest, hlt⟩, hread, hrest⟩ := Option.bind_eq_some_iff.mp h
    split at hrest
    · rename_i hspaces
      obtain rfl := Option.some.inj hrest
      exact ⟨rest, ⟨hlt, hread⟩, hspaces⟩
    · cases hrest
  · rintro ⟨rest, ⟨hlt, hread⟩, hspaces⟩
    refine Option.bind_eq_some_iff.mpr ⟨_, hread, ?_⟩
    rw [if_pos hspaces]

/-- A text of a value holds this value and nothing else. -/
theorem Spells.read?_eq {n : Nat} {v : Json} {cs : List Char} (h : Spells n v cs)
    (hn : n ≤ nestingLimit) : Raw.read? (String.ofList cs) = some (Raw.ofJson v) := by
  have hdepth : 0 + n ≤ nestingLimit := by omega
  have hread := h.leaves_readValue hdepth spaces_nil endsNumber_nil
  rw [List.nil_append, List.append_nil] at hread
  refine Raw.read?_eq_some_iff.mpr ⟨[], ?_, spaces_nil⟩
  rwa [String.toList_ofList]

end Workflow.Json
