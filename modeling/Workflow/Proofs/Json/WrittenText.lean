import Workflow.Json.Reader
import Workflow.Json.Writer

/-!
# Texts as they are written

A reader answers with what it found and with the characters that it left. A text between quotes
is read back character by character: each is written raw or as an escape that stands for it.
-/

namespace Workflow.Json

section

variable {α β : Type} {P Q : List Char → Prop}

/-- A reader answers with `a` and leaves `rest`. -/
def Leaves (answer : Option (α × {rest // P rest})) (a : α) (rest : List Char) : Prop :=
  ∃ h, answer = some (a, ⟨rest, h⟩)

theorem leaves_some_iff {a b : α} {r : {rest // P rest}} {rest : List Char} :
    Leaves (some (a, r)) b rest ↔ a = b ∧ r.1 = rest := by
  constructor
  · rintro ⟨h, heq⟩
    simp only [Option.some.injEq, Prod.mk.injEq] at heq
    obtain ⟨rfl, rfl⟩ := heq
    exact ⟨rfl, rfl⟩
  · rintro ⟨rfl, rfl⟩
    exact ⟨r.2, rfl⟩

theorem leaves_bind_iff {answer : Option (α × {rest // P rest})}
    {f : α × {rest // P rest} → Option (β × {rest // Q rest})} {b : β} {rest : List Char} :
    Leaves (answer >>= f) b rest ↔
      ∃ a mid h, answer = some (a, ⟨mid, h⟩) ∧ Leaves (f (a, ⟨mid, h⟩)) b rest := by
  cases answer with
  | none => simp [Leaves]
  | some pair =>
    obtain ⟨a, mid, h⟩ := pair
    constructor
    · intro hleaves
      exact ⟨a, mid, h, rfl, hleaves⟩
    · rintro ⟨_, _, _, heq, hleaves⟩
      obtain ⟨rfl, rfl⟩ := heq
      exact hleaves

end

/-- Four digits that write a control character are read as its number. -/
theorem hexQuad?_of_lt {n : Nat} (h : n < 32) :
    hexQuad? '0' '0' (hexDigit (n / 16)) (hexDigit (n % 16)) = some n := by
  have hall : ∀ n < 32, hexQuad? '0' '0' (hexDigit (n / 16)) (hexDigit (n % 16)) = some n := by
    decide
  exact hall n h

theorem ofUnit_toNat {c : Char} (h : c.toNat < 0x20) : Piece.ofUnit c.toNat = .char c := by
  rw [Piece.ofUnit, if_neg (by omega), Char.ofNat_toNat]

section

variable {cs rest : List Char} {pieces : List Piece} (hread : Leaves (readPieces cs) pieces rest)
include hread

attribute [local simp] readPieces leaves_some_iff

theorem leaves_readPieces_raw {c : Char} (hquote : c ≠ '"') (hslash : c ≠ '\\')
    (hcontrol : ¬c.toNat < 0x20) : Leaves (readPieces (c :: cs)) (.char c :: pieces) rest := by
  obtain ⟨hlt, hread⟩ := hread
  simp [hslash, hcontrol, hread]

theorem leaves_readPieces_escaped {e c : Char} (hunit : e ≠ 'u') (hescape : unescape? e = some c) :
    Leaves (readPieces ('\\' :: e :: cs)) (.char c :: pieces) rest := by
  obtain ⟨hlt, hread⟩ := hread
  simp [hunit, hescape, hread]

theorem leaves_readPieces_unit {a b c d : Char} {unit : Nat}
    (hunit : hexQuad? a b c d = some unit) :
    Leaves (readPieces ('\\' :: 'u' :: a :: b :: c :: d :: cs)) (.ofUnit unit :: pieces) rest := by
  obtain ⟨hlt, hread⟩ := hread
  simp [hunit, hread]

/-- A character as it is written is one piece of a text. -/
theorem leaves_readPieces_escape (c : Char) :
    Leaves (readPieces (escape c ++ cs)) (.char c :: pieces) rest := by
  by_cases hspecial : c ∈ ['"', '\\', '\x08', '\x0c', '\n', '\r', '\t']
  · simp only [List.mem_cons, List.not_mem_nil, or_false] at hspecial
    obtain rfl | rfl | rfl | rfl | rfl | rfl | rfl := hspecial
    all_goals exact leaves_readPieces_escaped hread (by decide) rfl
  · simp only [List.mem_cons, List.not_mem_nil, or_false, not_or] at hspecial
    obtain ⟨hquote, hslash, hrest⟩ := hspecial
    have hescape : escape c = if c.toNat < 0x20 then
        ['\\', 'u', '0', '0', hexDigit (c.toNat / 16), hexDigit (c.toNat % 16)] else [c] := by
      rw [escape]
      all_goals simp [hquote, hslash, hrest]
    by_cases hcontrol : c.toNat < 0x20
    · rw [hescape, if_pos hcontrol, ← ofUnit_toNat hcontrol]
      exact leaves_readPieces_unit hread (hexQuad?_of_lt hcontrol)
    · rw [hescape, if_neg hcontrol]
      exact leaves_readPieces_raw hread hquote hslash hcontrol

end

theorem join_char (cs : List Char) : Piece.join (cs.map .char) = some cs := by
  induction cs with
  | nil => rfl
  | cons c cs ih => simp [Piece.join, ih]

/-- A written text is read back; its opening quote has been read. -/
theorem leaves_readText (s : String) (rest : List Char) :
    Leaves (readText (s.toList.flatMap escape ++ '"' :: rest)) (some s) rest := by
  have hpieces : ∀ cs : List Char,
      Leaves (readPieces (cs.flatMap escape ++ '"' :: rest)) (cs.map .char) rest := by
    intro cs
    induction cs with
    | nil =>
      rw [List.flatMap_nil, List.nil_append, readPieces]
      exact leaves_some_iff.mpr ⟨rfl, rfl⟩
    | cons c cs ih =>
      rw [List.flatMap_cons, List.append_assoc]
      exact leaves_readPieces_escape ih c
  obtain ⟨hlt, hread⟩ := hpieces s.toList
  simp [readText, leaves_some_iff, hread, join_char]

end Workflow.Json
