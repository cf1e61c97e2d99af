import Workflow.Proofs.Json.Fitting

/-!
# Values are read as they were written

The compact and the pretty form of a value that a text can hold are texts of it, provided that
its doubles are read back from what is written for them.
-/

namespace Workflow

/-- A text that holds nothing but a double is read as this double. -/
def Double.ReadsBack (d : Double) : Prop :=
  Json.read? (String.ofList d.write) = some (.number (.double d))

namespace Json

/-! ### The doubles of a value -/

mutual

/-- All doubles in a value. -/
def doubles : Json → List Double
  | .number (.double d) => [d]
  | .array items => doublesOfItems items
  | .object entries => doublesOfEntries entries
  | .null | .bool _ | .number (.integer _) | .string _ => []

/-- All doubles in a list of values. -/
def doublesOfItems : List Json → List Double
  | [] => []
  | item :: items => doubles item ++ doublesOfItems items

/-- All doubles in entries. -/
def doublesOfEntries : List (String × Json) → List Double
  | [] => []
  | (_, value) :: entries => doubles value ++ doublesOfEntries entries

end

/-- The doubles of an item are among those of its list. -/
theorem mem_doublesOfItems {items : List Json} {item : Json} (hitem : item ∈ items) {d : Double}
    (hd : d ∈ item.doubles) : d ∈ doublesOfItems items := by
  induction items with
  | nil => cases hitem
  | cons first items ih =>
    rw [doublesOfItems]
    obtain rfl | hitem := List.mem_cons.mp hitem
    · exact List.mem_append_left _ hd
    · exact List.mem_append_right _ (ih hitem)

/-- The doubles of a value are among those of its object. -/
theorem mem_doublesOfEntries {entries : Entries} {e : String × Json} (he : e ∈ entries)
    {d : Double} (hd : d ∈ e.2.doubles) : d ∈ doublesOfEntries entries := by
  induction entries with
  | nil => cases he
  | cons first entries ih =>
    rw [doublesOfEntries]
    obtain rfl | he := List.mem_cons.mp he
    · exact List.mem_append_left _ hd
    · exact List.mem_append_right _ (ih he)

/-! ### What a reader of numbers leaves -/

/-- Behind digits an end of the text is left. -/
theorem suffix_of_readDigits {cs digits rest : List Char} (h : Leaves (readDigits cs) digits rest) :
    rest <:+ cs := by
  cases cs with
  | nil => simp [readDigits, Leaves] at h
  | cons c cs =>
    cases hc : c.isDigit with
    | false => simp [readDigits, hc, Leaves] at h
    | true =>
      simp only [readDigits, hc, if_true, leaves_some_iff] at h
      obtain ⟨-, rfl⟩ := h
      exact (List.dropWhile_suffix _).trans (List.suffix_cons c cs)

/-- Behind a fraction an end of the text is left. -/
theorem suffix_of_readFraction {cs rest : List Char} {fraction : Option (List Char)}
    (h : Leaves (readFraction cs) fraction rest) : rest <:+ cs := by
  cases cs with
  | nil =>
    simp only [readFraction, leaves_some_iff] at h
    exact h.2 ▸ List.suffix_rfl
  | cons c cs =>
    by_cases hc : c = '.'
    · subst hc
      simp only [readFraction, leaves_bind_iff, Option.pure_def, leaves_some_iff] at h
      obtain ⟨digits, mid, hmid, hread, -, rfl⟩ := h
      exact (suffix_of_readDigits ⟨hmid, hread⟩).trans (List.suffix_cons _ cs)
    · rw [readFraction_of_ne hc] at h
      obtain ⟨-, rfl⟩ := leaves_some_iff.mp h
      exact List.suffix_rfl

theorem suffix_readExponentSign (cs : List Char) : (readExponentSign cs).2.1 <:+ cs := by
  cases cs with
  | nil => exact List.suffix_rfl
  | cons c cs =>
    by_cases hminus : c = '-'
    · subst hminus
      exact List.suffix_cons _ cs
    · by_cases hplus : c = '+'
      · subst hplus
        exact List.suffix_cons _ cs
      · exact (readExponentSign_of_ne hminus hplus).symm ▸ List.suffix_rfl

/-- Behind an exponent an end of the text is left. -/
theorem suffix_of_readExponent {cs rest : List Char} {exponent : Option Int}
    (h : Leaves (readExponent cs) exponent rest) : rest <:+ cs := by
  cases cs with
  | nil =>
    simp only [readExponent, leaves_some_iff] at h
    exact h.2 ▸ List.suffix_rfl
  | cons c cs =>
    cases hc : c == 'e' || c == 'E' with
    | false =>
      simp only [readExponent, hc] at h
      obtain ⟨-, rfl⟩ := leaves_some_iff.mp h
      exact List.suffix_rfl
    | true =>
      simp only [readExponent, hc, if_true, leaves_bind_iff, Option.pure_def,
        leaves_some_iff] at h
      obtain ⟨digits, mid, hmid, hread, -, rfl⟩ := h
      exact ((suffix_of_readDigits ⟨hmid, hread⟩).trans (suffix_readExponentSign cs)).trans
        (List.suffix_cons c cs)

/-- Behind a numeral an end of the text is left. -/
theorem suffix_of_readNumeral {negative : Bool} {cs rest : List Char} {n : Numeral}
    (h : Leaves (readNumeral negative cs) n rest) : rest <:+ cs := by
  simp only [readNumeral, leaves_bind_iff] at h
  obtain ⟨whole, a, ha, hwhole, h⟩ := h
  split at h
  · simp [Leaves] at h
  · simp only [leaves_bind_iff, Option.pure_def, leaves_some_iff] at h
    obtain ⟨fraction, b, hb, hfraction, exponent, c, hc, hexponent, -, rfl⟩ := h
    exact (suffix_of_readExponent ⟨hc, hexponent⟩).trans
      ((suffix_of_readFraction ⟨hb, hfraction⟩).trans (suffix_of_readDigits ⟨ha, hwhole⟩))

/-- A part whose value is a number is this number. -/
theorem Raw.eq_number_of_value? {part : Raw} {x : Number} (h : part.value? = some (.number x)) :
    part = .number x := by
  cases part with
  | number => simpa [value?] using h
  | null | bool | string | refused => simp [value?] at h
  | array | object => simp [value?] at h

/-- A numeral that is read as a number stands for that number. -/
theorem Numeral.toNumber?_of_toRaw {n : Numeral} {x : Number} (h : n.toRaw = .number x) :
    n.toNumber? = some x := by
  rw [toRaw] at h
  cases hx : n.toNumber? with
  | none => simp [hx] at h
  | some y => simpa [hx] using h

/-- A number that a text holds is a numeral in it, of which the sign stands apart. -/
theorem exists_readNumeral_of_readValue {cs rest : List Char} {x : Number}
    (h : Leaves (readValue 0 cs) (.number x) rest) :
    ∃ w negative body n, Spaces w ∧ cs = w ++ (if negative then '-' :: body else body) ∧
      Leaves (readNumeral negative body) n rest ∧ n.toNumber? = some x := by
  have hfound := found_of_readValue h
  generalize hpart : Raw.number x = part at hfound
  have hshallow : ∀ p : Raw, p.atDepth 0 = p := fun p => if_pos (by decide)
  cases hfound with
  | number negative hw hcs hread =>
    exact ⟨_, _, _, _, hw, hcs, hread, Numeral.toNumber?_of_toRaw hpart.symm⟩
  | text s => cases s <;> cases hpart
  | null | bool => cases hpart
  | emptyArray | array | emptyObject | object =>
    rw [hshallow] at hpart
    cases hpart

/-- A double that reads back is legible: nothing stands before and behind its numeral. -/
theorem legible_double {d : Double} (h : d.ReadsBack) : (Number.double d).Legible := by
  obtain ⟨part, hread, hvalue⟩ := Option.bind_eq_some_iff.mp h
  obtain rfl := Raw.eq_number_of_value? hvalue
  obtain ⟨rest, hread, hrest⟩ := Raw.read?_eq_some_iff.mp hread
  rw [String.toList_ofList] at hread
  obtain ⟨w, negative, body, n, hw, hcs, hread, hx⟩ := exists_readNumeral_of_readValue hread
  have hnone : ∀ c ∈ d.write, isSpace c ≠ true := by
    intro c hc
    simp [(isNumeric_of_mem_write c hc).isSpace_eq_false]
  have hbody : ∀ c ∈ body, c ∈ d.write := by
    intro c hc
    rw [hcs]
    cases negative <;> simp [hc]
  obtain rfl : w = [] := by
    refine List.eq_nil_iff_forall_not_mem.mpr fun c hc => hnone c ?_ (hw c hc)
    exact hcs ▸ List.mem_append_left _ hc
  obtain rfl : rest = [] := by
    refine List.eq_nil_iff_forall_not_mem.mpr fun c hc => hnone c ?_ (hrest c hc)
    exact hbody c ((suffix_of_readNumeral hread).subset hc)
  exact ⟨negative, body, n, hcs, hread, hx⟩

/-- A legible double reads back. -/
theorem readsBack_of_legible {d : Double} (h : (Number.double d).Legible) : d.ReadsBack := by
  rw [Double.ReadsBack, read?]
  exact congrArg (·.bind Raw.value?) ((Spells.number h).read?_eq (Nat.zero_le _))

/-! ### The two forms -/

/-- A number that fits is legible, if its doubles are read back. -/
theorem legible_of_fits {n : Nat} {x : Number} (h : (Json.number x).Fits n)
    (hd : ∀ d ∈ (Json.number x).doubles, d.ReadsBack) : x.Legible := by
  cases h with
  | number hx =>
    cases x with
    | integer => exact legible_integer hx
    | double d => exact legible_double (hd d (by simp [doubles]))

/-- Items that are spelled one by one are spelled without blanks between them. -/
theorem spellsItems_compactItems {n : Nat} {items : List Json}
    (h : ∀ item ∈ items, Spells n item (compactChars item)) :
    SpellsItems n items (compactItems items) := by
  induction items with
  | nil => exact .nil spaces_nil
  | cons item items ih =>
    obtain ⟨hitem, hitems⟩ := List.forall_mem_cons.mp h
    exact .cons spaces_nil hitem (ih hitems)

/-- Entries that are spelled one by one are spelled without blanks between them. -/
theorem spellsEntries_compactEntries {n : Nat} {entries : Entries}
    (h : ∀ e ∈ entries, Spells n e.2 (compactChars e.2)) :
    SpellsEntries n entries (compactEntries entries) := by
  induction entries with
  | nil => exact .nil spaces_nil
  | cons e entries ih =>
    obtain ⟨he, hentries⟩ := List.forall_mem_cons.mp h
    exact .cons spaces_nil spaces_nil he (ih hentries)

/-- The compact form is a text of the value. -/
theorem spells_compactChars {n : Nat} {v : Json} (h : v.Fits n)
    (hd : ∀ d ∈ v.doubles, d.ReadsBack) : Spells n v (compactChars v) := by
  induction h with
  | null => exact .null
  | bool b => exact .bool b
  | number hx => exact .number (legible_of_fits (n := 0) (.number hx) hd)
  | string s => exact .string s
  | @array n items _ ih =>
    have hitems : ∀ item ∈ items, Spells n item (compactChars item) := fun item hitem =>
      ih item hitem fun d hmem => hd d (mem_doublesOfItems hitem hmem)
    cases items with
    | nil => exact .emptyArray
    | cons item items =>
      obtain ⟨hfirst, hrest⟩ := List.forall_mem_cons.mp hitems
      exact .array spaces_nil hfirst (spellsItems_compactItems hrest)
  | @object n entries _ _ ih =>
    have hentries : ∀ e ∈ entries, Spells n e.2 (compactChars e.2) := fun e he =>
      ih e he fun d hmem => hd d (mem_doublesOfEntries he hmem)
    cases entries with
    | nil => exact .emptyObject
    | cons e entries =>
      obtain ⟨hfirst, hrest⟩ := List.forall_mem_cons.mp hentries
      exact .object spaces_nil spaces_nil hfirst (spellsEntries_compactEntries hrest)

theorem spaces_singleton : Spaces [' '] := by
  intro c hc
  obtain rfl := List.mem_singleton.mp hc
  decide

/-- Items that are spelled one by one are spelled on lines of their own. -/
theorem spellsItems_prettyItems {n level : Nat} {items : List Json}
    (h : ∀ item ∈ items, Spells n item (prettyChars (level + 1) item)) :
    SpellsItems n items (prettyItems level items) := by
  induction items with
  | nil => exact .nil (spaces_newLine level)
  | cons item items ih =>
    obtain ⟨hitem, hitems⟩ := List.forall_mem_cons.mp h
    rw [prettyItems, List.append_assoc]
    exact .cons (spaces_newLine (level + 1)) hitem (ih hitems)

/-- Entries that are spelled one by one are spelled on lines of their own. -/
theorem spellsEntries_prettyEntries {n level : Nat} {entries : Entries}
    (h : ∀ e ∈ entries, Spells n e.2 (prettyChars (level + 1) e.2)) :
    SpellsEntries n entries (prettyEntries level entries) := by
  induction entries with
  | nil => exact .nil (spaces_newLine level)
  | cons e entries ih =>
    obtain ⟨he, hentries⟩ := List.forall_mem_cons.mp h
    rw [prettyEntries, List.append_assoc]
    exact .cons (spaces_newLine (level + 1)) spaces_singleton he (ih hentries)

/-- The pretty form is a text of the value, whatever the indentation. -/
theorem spells_prettyChars {n : Nat} {v : Json} (h : v.Fits n)
    (hd : ∀ d ∈ v.doubles, d.ReadsBack) (level : Nat) : Spells n v (prettyChars level v) := by
  induction h generalizing level with
  | null => exact .null
  | bool b => exact .bool b
  | number hx => exact .number (legible_of_fits (n := 0) (.number hx) hd)
  | string s => exact .string s
  | @array n items _ ih =>
    have hitems : ∀ item ∈ items, Spells n item (prettyChars (level + 1) item) :=
      fun item hitem => ih item hitem (fun d hmem => hd d (mem_doublesOfItems hitem hmem)) _
    cases items with
    | nil => exact .emptyArray
    | cons item items =>
      obtain ⟨hfirst, hrest⟩ := List.forall_mem_cons.mp hitems
      rw [prettyChars, List.append_assoc]
      exact .array (spaces_newLine (level + 1)) hfirst (spellsItems_prettyItems hrest)
  | @object n entries _ _ ih =>
    have hentries : ∀ e ∈ entries, Spells n e.2 (prettyChars (level + 1) e.2) :=
      fun e he => ih e he (fun d hmem => hd d (mem_doublesOfEntries he hmem)) _
    cases entries with
    | nil => exact .emptyObject
    | cons e entries =>
      obtain ⟨hfirst, hrest⟩ := List.forall_mem_cons.mp hentries
      rw [prettyChars, List.append_assoc]
      exact .object (spaces_newLine (level + 1)) spaces_singleton hfirst
        (spellsEntries_prettyEntries hrest)

/-- What is written for a value, in either form. -/
def writings (v : Json) : List String := [v.compact, v.pretty]

/-- A value that a text can hold is read back from what is written for it. -/
theorem read?_of_mem_writings {v : Json} (h : v.Fits nestingLimit)
    (hd : ∀ d ∈ v.doubles, d.ReadsBack) :
    ∀ text ∈ v.writings, Raw.read? text = some (.ofJson v) := by
  intro text htext
  simp only [writings, List.mem_cons, List.not_mem_nil, or_false] at htext
  obtain rfl | rfl := htext
  · exact (spells_compactChars h hd).read?_eq (Nat.le_refl _)
  · exact (spells_prettyChars h hd 0).read?_eq (Nat.le_refl _)

end Json

/-- The double `1.5`. -/
def Double.threeHalves : Double := ⟨false, 6755399441055744, 1022, by decide⟩

/-- A number and a half is read back. -/
theorem Double.readsBack_threeHalves : threeHalves.ReadsBack := by
  have hwrite : threeHalves.write = ['1', '.', '5'] := by decide +kernel
  have hvalue : (⟨false, ['1'], some ['5'], none⟩ : Json.Numeral).toNumber? =
      some (.double threeHalves) := by decide +kernel
  have hread : Json.Leaves (Json.readNumeral false ['1', '.', '5']) ⟨false, ['1'], some ['5'], none⟩
      [] := ⟨by decide, by decide⟩
  exact Json.readsBack_of_legible ⟨false, _, _, hwrite, hread, hvalue⟩

end Workflow
