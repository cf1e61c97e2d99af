import Workflow.Proofs.Json.WrittenText

/-!
# Numbers as they are written

A written number is read back wherever nothing follows it that could belong to it. Integers of
64 bits read back by themselves. What a double is written as is the shortest decimal, which the
reader may miss by one unit, so that a double reads back is a property of the double.
-/

namespace Workflow.Json

/-- Characters that no number goes on with. -/
def EndsNumber (rest : List Char) : Prop :=
  ∀ c ∈ rest.head?, c.isDigit = false ∧ c ≠ '.' ∧ c ≠ 'e' ∧ c ≠ 'E'

/-- A number ends at the end of the text. -/
theorem endsNumber_nil : EndsNumber [] := by
  intro c hc
  cases hc

/-- A number ends in front of a character that goes on with none. -/
theorem endsNumber_cons {c : Char} {rest : List Char}
    (h : c.isDigit = false ∧ c ≠ '.' ∧ c ≠ 'e' ∧ c ≠ 'E') : EndsNumber (c :: rest) := by
  intro d hd
  obtain rfl : c = d := by simpa using hd
  exact h

/-- A fraction starts with a point. -/
theorem readFraction_of_ne {c : Char} {cs : List Char} (hc : c ≠ '.') :
    readFraction (c :: cs) = some (none, ⟨c :: cs, Nat.le_refl _⟩) := by
  rw [readFraction]
  simp [hc]

/-- Without a sign an exponent is not negative. -/
theorem readExponentSign_of_ne {c : Char} {cs : List Char} (hminus : c ≠ '-') (hplus : c ≠ '+') :
    readExponentSign (c :: cs) = (false, ⟨c :: cs, Nat.le_refl _⟩) := by
  rw [readExponentSign]
  · simp [hminus]
  · simp [hplus]

/-- The sign of an exponent is read whatever stands behind its first character. -/
theorem readExponentSign_append (c : Char) (cs rest : List Char) :
    ∃ h, readExponentSign (c :: cs ++ rest) =
      ((readExponentSign (c :: cs)).1, ⟨(readExponentSign (c :: cs)).2.1 ++ rest, h⟩) := by
  by_cases hminus : c = '-'
  · subst hminus
    exact ⟨by simp [readExponentSign], rfl⟩
  · by_cases hplus : c = '+'
    · subst hplus
      exact ⟨by simp [readExponentSign], rfl⟩
    · rw [List.cons_append, readExponentSign_of_ne hminus hplus,
        readExponentSign_of_ne hminus hplus]
      exact ⟨Nat.le_refl _, rfl⟩

section

variable {cs rest : List Char} (hrest : EndsNumber rest)
include hrest

/-- No more digits are taken where a number ends. -/
theorem takeWhile_isDigit_append :
    (cs ++ rest).takeWhile Char.isDigit = cs.takeWhile Char.isDigit := by
  induction cs with
  | nil =>
    cases rest with
    | nil => rfl
    | cons c rest => simp [(hrest c (by simp)).1]
  | cons c cs ih => cases hc : c.isDigit <;> simp [hc, ih]

/-- What stands behind the digits is left with what follows the number. -/
theorem dropWhile_isDigit_append :
    (cs ++ rest).dropWhile Char.isDigit = cs.dropWhile Char.isDigit ++ rest := by
  induction cs with
  | nil =>
    cases rest with
    | nil => rfl
    | cons c rest => simp [(hrest c (by simp)).1]
  | cons c cs ih => cases hc : c.isDigit <;> simp [hc, ih]

/-- The same digits are read whatever stands behind the number. -/
theorem readDigits_append {digits a : List Char} (h : Leaves (readDigits cs) digits a) :
    Leaves (readDigits (cs ++ rest)) digits (a ++ rest) := by
  cases cs with
  | nil => simp [readDigits, Leaves] at h
  | cons c cs =>
    cases hc : c.isDigit with
    | false => simp [readDigits, hc, Leaves] at h
    | true =>
      simp only [readDigits, hc, if_true, leaves_some_iff] at h
      obtain ⟨rfl, rfl⟩ := h
      simp only [List.cons_append, readDigits, hc, if_true, leaves_some_iff,
        takeWhile_isDigit_append hrest, dropWhile_isDigit_append hrest, and_self]

/-- The same fraction is read whatever stands behind the number. -/
theorem readFraction_append {fraction : Option (List Char)} {a : List Char}
    (h : Leaves (readFraction cs) fraction a) :
    Leaves (readFraction (cs ++ rest)) fraction (a ++ rest) := by
  cases cs with
  | nil =>
    simp only [readFraction, leaves_some_iff] at h
    obtain ⟨rfl, rfl⟩ := h
    cases rest with
    | nil => simp [readFraction, leaves_some_iff]
    | cons c rest => simp [readFraction, leaves_some_iff, (hrest c (by simp)).2.1]
  | cons c cs =>
    by_cases hc : c = '.'
    · subst hc
      simp only [readFraction, leaves_bind_iff, List.cons_append, Option.pure_def,
        leaves_some_iff] at h ⊢
      obtain ⟨digits, mid, hmid, hread, rfl, rfl⟩ := h
      obtain ⟨hmid', hread'⟩ := readDigits_append hrest ⟨hmid, hread⟩
      exact ⟨digits, _, hmid', hread', rfl, rfl⟩
    · rw [readFraction_of_ne hc] at h
      rw [List.cons_append, readFraction_of_ne hc]
      obtain ⟨rfl, rfl⟩ := leaves_some_iff.mp h
      exact leaves_some_iff.mpr ⟨rfl, rfl⟩

/-- The same exponent is read whatever stands behind the number. -/
theorem readExponent_append {exponent : Option Int} {a : List Char}
    (h : Leaves (readExponent cs) exponent a) :
    Leaves (readExponent (cs ++ rest)) exponent (a ++ rest) := by
  cases cs with
  | nil =>
    simp only [readExponent, leaves_some_iff] at h
    obtain ⟨rfl, rfl⟩ := h
    cases rest with
    | nil => simp [readExponent, leaves_some_iff]
    | cons c rest => simp [readExponent, leaves_some_iff, (hrest c (by simp)).2.2]
  | cons c cs =>
    cases hc : c == 'e' || c == 'E' with
    | false =>
      simp only [readExponent, hc, List.cons_append] at h ⊢
      obtain ⟨rfl, rfl⟩ := leaves_some_iff.mp h
      exact leaves_some_iff.mpr ⟨rfl, rfl⟩
    | true =>
      simp only [readExponent, hc, if_true, List.cons_append, leaves_bind_iff, Option.pure_def,
        leaves_some_iff] at h ⊢
      obtain ⟨digits, mid, hmid, hread, rfl, rfl⟩ := h
      cases cs with
      | nil => simp [readExponentSign, readDigits] at hread
      | cons d cs =>
        obtain ⟨hmid', hread'⟩ := readDigits_append hrest ⟨hmid, hread⟩
        obtain ⟨hsign, hsame⟩ := readExponentSign_append d cs rest
        rw [hsame]
        exact ⟨digits, _, hmid', hread', rfl, rfl⟩

/-- The same numeral is read whatever stands behind it. -/
theorem readNumeral_append {negative : Bool} {n : Numeral} {a : List Char}
    (h : Leaves (readNumeral negative cs) n a) :
    Leaves (readNumeral negative (cs ++ rest)) n (a ++ rest) := by
  simp only [readNumeral, leaves_bind_iff] at h ⊢
  obtain ⟨whole, mid, hmid, hwhole, h⟩ := h
  obtain ⟨hmid', hwhole'⟩ := readDigits_append hrest ⟨hmid, hwhole⟩
  refine ⟨whole, _, hmid', hwhole', ?_⟩
  split at h
  · simp [Leaves] at h
  · rename_i hzero
    rw [if_neg hzero]
    simp only [leaves_bind_iff, Option.pure_def, leaves_some_iff] at h ⊢
    obtain ⟨fraction, b, hb, hfraction, exponent, c, hc, hexponent, rfl, rfl⟩ := h
    obtain ⟨hb', hfraction'⟩ := readFraction_append hrest ⟨hb, hfraction⟩
    obtain ⟨hc', hexponent'⟩ := readExponent_append hrest ⟨hc, hexponent⟩
    exact ⟨fraction, _, hb', hfraction', exponent, _, hc', hexponent', rfl, rfl⟩

end

/-! ### What is written -/

/-- Numbers that a text can hold: integers of 64 bits, with or without a sign, and doubles. -/
def Number.InRange : Number → Prop
  | .integer n => -(Nat.pow 2 63 : Int) ≤ n ∧ n < (Nat.pow 2 64 : Int)
  | .double _ => True

/-- What is written for a number is read as this number: a sign that may stand in front, and a
numeral that is all of the rest. -/
def Number.Legible (x : Number) : Prop :=
  ∃ negative body n, x.write = (if negative then '-' :: body else body) ∧
    Leaves (readNumeral negative body) n [] ∧ n.toNumber? = some x

/-- A numeral begins with a digit. -/
theorem exists_cons_of_readNumeral {negative : Bool} {cs rest : List Char} {n : Numeral}
    (h : Leaves (readNumeral negative cs) n rest) :
    ∃ c more, cs = c :: more ∧ c.isDigit = true := by
  obtain ⟨hlt, hread⟩ := h
  cases cs with
  | nil => simp [readNumeral, readDigits] at hread
  | cons c more =>
    cases hc : c.isDigit with
    | false => simp [readNumeral, readDigits, hc] at hread
    | true => exact ⟨c, more, rfl, hc⟩

/-- A numeral stands for a number that can be held. -/
theorem Numeral.inRange_of_toNumber? {n : Numeral} {x : Number} (h : n.toNumber? = some x) :
    x.InRange := by
  have hdouble : ∀ {y}, n.toDouble?.map Number.double = some y → y.InRange := by
    intro y hy
    obtain ⟨d, -, rfl⟩ := Option.map_eq_some_iff.mp hy
    trivial
  simp only [Numeral.toNumber?] at h
  split at h
  · split at h
    · split at h
      · rename_i hsize
        obtain rfl := Option.some.inj h
        simp only [Number.InRange, Nat.pow_eq] at hsize ⊢
        omega
      · exact hdouble h
    · split at h
      · rename_i hsize
        obtain rfl := Option.some.inj h
        simp only [Number.InRange, Nat.pow_eq] at hsize ⊢
        omega
      · exact hdouble h
  · exact hdouble h

/-- A natural number is written in digits. -/
theorem isDigit_of_mem_natDigits {n : Nat} {c : Char} (h : c ∈ Double.natDigits n) :
    c.isDigit = true :=
  Nat.isDigit_of_mem_toDigits (by decide) (by decide) h

/-- The digits of a number begin with a zero only if there is nothing else. -/
theorem head?_natDigits_ne {n : Nat} (hn : n ≠ 0) : (Double.natDigits n).head? ≠ some '0' := by
  induction n using Nat.strongRecOn with
  | _ n ih =>
    simp only [Double.natDigits] at ih ⊢
    by_cases hsmall : n < 10
    · have hchar : ∀ k < 10, k ≠ 0 → [k.digitChar].head? ≠ some '0' := by decide
      rw [Nat.toDigits_of_lt_base hsmall]
      exact hchar n hsmall hn
    · rw [Nat.toDigits_eq_if (by decide), if_neg hsmall, List.head?_append]
      have hrest := ih (n / 10) (by omega) (by omega)
      obtain ⟨c, cs, hcs⟩ :=
        List.exists_cons_of_ne_nil (Nat.toDigits_ne_nil (n := n / 10) (b := 10))
      rw [hcs] at hrest ⊢
      exact hrest

/-- The digits of a natural number are read as the whole numeral. -/
theorem leaves_readNumeral_natDigits (negative : Bool) (n : Nat) :
    Leaves (readNumeral negative (Double.natDigits n)) ⟨negative, Double.natDigits n, none, none⟩
      [] := by
  obtain ⟨c, cs, hcs⟩ := List.exists_cons_of_ne_nil (Nat.toDigits_ne_nil (n := n) (b := 10))
  have hdigit : ∀ d ∈ c :: cs, d.isDigit = true := by
    intro d hd
    rw [← hcs] at hd
    exact isDigit_of_mem_natDigits hd
  have hread : Leaves (readDigits (c :: cs)) (c :: cs) [] := by
    have hall : ∀ d ∈ cs, d.isDigit = true := fun d hd => hdigit d (List.mem_cons_of_mem c hd)
    simp only [readDigits, hdigit c List.mem_cons_self, if_true, leaves_some_iff]
    have htake : (cs ++ []).takeWhile Char.isDigit = cs ++ [].takeWhile Char.isDigit :=
      List.takeWhile_append_of_pos hall
    have hdrop : (cs ++ []).dropWhile Char.isDigit = [].dropWhile Char.isDigit :=
      List.dropWhile_append_of_pos hall
    simp only [List.append_nil, List.takeWhile_nil, List.dropWhile_nil] at htake hdrop
    exact ⟨congrArg _ htake, hdrop⟩
  have hzero : ¬(((c :: cs).head? == some '0' && decide (1 < (c :: cs).length)) = true) := by
    by_cases hn : n = 0
    · obtain rfl : cs = [] := by
        subst hn
        simpa [eq_comm] using congrArg List.tail hcs
      simp
    · have hhead := head?_natDigits_ne hn
      rw [Double.natDigits, hcs] at hhead
      simp_all
  obtain ⟨h, hread⟩ := hread
  rw [Double.natDigits, hcs, readNumeral]
  simp only [leaves_bind_iff]
  refine ⟨_, _, h, hread, ?_⟩
  rw [if_neg hzero]
  simp [readFraction, readExponent, leaves_some_iff]

/-- An integer that can be held is read as it is written. -/
theorem legible_integer {n : Int} (h : (Number.integer n).InRange) :
    (Number.integer n).Legible := by
  simp only [Number.InRange, Nat.pow_eq] at h
  refine ⟨decide (n < 0), Double.natDigits n.natAbs, _, by simp [Number.write],
    leaves_readNumeral_natDigits _ _, ?_⟩
  have hvalue : Text.natOf (Double.natDigits n.natAbs) = n.natAbs := Text.natOf_toDigits _
  by_cases hn : n < 0
  · have hsize : 0 < n.natAbs ∧ n.natAbs ≤ Nat.pow 2 63 := by
      simp only [Nat.pow_eq]
      omega
    have hnegative : -(n.natAbs : Int) = n := by omega
    rw [decide_eq_true hn, Numeral.toNumber?, hvalue]
    exact (if_pos hsize).trans (by rw [hnegative])
  · have hsize : n.natAbs < Nat.pow 2 64 := by
      simp only [Nat.pow_eq]
      omega
    have hnatural : (n.natAbs : Int) = n := by omega
    rw [decide_eq_false hn, Numeral.toNumber?, hvalue]
    exact (if_pos hsize).trans (by rw [hnatural])

/-- A digit, or one of the marks between digits. -/
def IsNumeric (c : Char) : Prop := c.isDigit = true ∨ c ∈ ['.', 'e', '+', '-']

/-- No character of a number is a blank. -/
theorem IsNumeric.isSpace_eq_false {c : Char} (h : IsNumeric c) : isSpace c = false := by
  cases hc : isSpace c with
  | false => rfl
  | true =>
    simp only [isSpace, Bool.or_eq_true, beq_iff_eq] at hc
    obtain ((rfl | rfl) | rfl) | rfl := hc <;> simp [IsNumeric] at h

/-- The digits of a decimal are characters of a number. -/
theorem isNumeric_of_mem_scientific {d : Double.Decimal} {c : Char} (h : c ∈ d.scientific.1) :
    IsNumeric c := by
  have hdropped := (List.dropWhile_sublist _).mem (List.mem_reverse.mp h)
  exact .inl (isDigit_of_mem_natDigits (List.mem_reverse.mp hdropped))

theorem isNumeric_of_mem_positional {digits : List Char} {power : Int}
    (hdigits : ∀ c ∈ digits, IsNumeric c) : ∀ c ∈ Double.positional digits power, IsNumeric c := by
  have hzero : IsNumeric '0' := .inl (by decide)
  have hpoint : IsNumeric '.' := .inr (by decide)
  intro c hc
  simp only [Double.positional] at hc
  split at hc
  · simp only [List.mem_cons, List.mem_append, List.mem_replicate] at hc
    obtain rfl | rfl | ⟨-, rfl⟩ | hc := hc
    · exact hzero
    · exact hpoint
    · exact hzero
    · exact hdigits c hc
  · simp only [List.mem_append, List.mem_cons, List.mem_replicate] at hc
    obtain (hc | ⟨-, rfl⟩) | rfl | hc := hc
    · exact hdigits c (List.mem_of_mem_take hc)
    · exact hzero
    · exact hpoint
    · split at hc
      · obtain rfl := List.mem_singleton.mp hc
        exact hzero
      · exact hdigits c (List.mem_of_mem_drop hc)

theorem isNumeric_of_mem_exponential {digits : List Char} {power : Int}
    (hdigits : ∀ c ∈ digits, IsNumeric c) :
    ∀ c ∈ Double.exponential digits power, IsNumeric c := by
  intro c hc
  simp only [Double.exponential, List.mem_append, List.mem_cons] at hc
  obtain hc | rfl | rfl | hc := hc
  · split at hc
    · simp only [List.mem_cons] at hc
      obtain rfl | rfl | hc := hc
      · exact hdigits c (by simp)
      · exact .inr (by decide)
      · exact hdigits c (by simp [hc])
    · exact hdigits c hc
  · exact .inr (by decide)
  · split
    · exact .inr (by decide)
    · exact .inr (by decide)
  · exact .inl (isDigit_of_mem_natDigits hc)

/-- A double is written in characters of a number. -/
theorem isNumeric_of_mem_write {d : Double} : ∀ c ∈ d.write, IsNumeric c := by
  have hunsigned : ∀ c ∈ (if d.isZero then ['0', '.', '0'] else
      if Double.Layout.ordinary.least ≤ d.shortest.scientific.2 ∧
        d.shortest.scientific.2 ≤ Double.Layout.ordinary.greatest then
        Double.positional d.shortest.scientific.1 d.shortest.scientific.2
      else Double.exponential d.shortest.scientific.1 d.shortest.scientific.2), IsNumeric c := by
    split
    · simp [IsNumeric]
    · split
      · exact isNumeric_of_mem_positional fun _ => isNumeric_of_mem_scientific
      · exact isNumeric_of_mem_exponential fun _ => isNumeric_of_mem_scientific
  intro c hc
  simp only [Double.write] at hc
  split at hc
  · obtain rfl | hc := List.mem_cons.mp hc
    · exact .inr (by decide)
    · exact hunsigned c hc
  · exact hunsigned c hc

end Workflow.Json
