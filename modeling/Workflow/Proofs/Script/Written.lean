import Workflow.Proofs.Script.Bracket
import Workflow.Proofs.Script.Marks

/-!
# What is written out

In place of a removed token only its line feeds are written. They come to stand in front
of the next kept token, so what is written out is again a sequence of tokens with white
space and comments in front of each. These are the kept tokens, in order, each with a new
start and with more line feeds in front.
-/

namespace Workflow.Script

/-- What a token is, wherever it stands. -/
def Token.spelling (t : Token) : TokenKind × String := (t.kind, t.text)

/-- The line feeds among some characters. -/
def lineFeeds (cs : List Char) : List Char := cs.filter (· == '\n')

/-- The kept ones of marked tokens as they are written out: `before` characters have been
written, and the line feeds `pending` of removed tokens stand in front. -/
def writtenFrom (before : Nat) (pending : List Char) : List (Token × Bool) → List Token
  | [] => []
  | (t, true) :: rest =>
    let leading := pending ++ t.leading.toList
    ⟨t.kind, String.ofList leading, t.text, before + leading.length⟩ ::
      writtenFrom (before + leading.length + t.text.toList.length) [] rest
  | (t, false) :: rest => writtenFrom before (pending ++ lineFeeds t.leading.toList) rest

namespace TokenTable

variable (table : TokenTable) (s : Erasure)

/-- The tokens, each with whether it is kept. -/
def marked : List (Token × Bool) := table.tokens.toList.mapIdx fun i t => (t, s.keeps i)

/-- The tokens that are kept, as they stand in the source. -/
def keptTokens : List Token := ((table.marked s).filter Prod.snd).map Prod.fst

/-- The tokens that are kept, as they are written out. -/
def written : List Token := writtenFrom 0 [] (table.marked s)

end TokenTable

variable {before : Nat} {pending : List Char} {ms : List (Token × Bool)}

@[simp] theorem writtenFrom_nil : writtenFrom before pending [] = [] := rfl

@[simp] theorem writtenFrom_kept (t : Token) : writtenFrom before pending ((t, true) :: ms) =
    ⟨t.kind, String.ofList (pending ++ t.leading.toList), t.text,
      before + (pending ++ t.leading.toList).length⟩ ::
    writtenFrom (before + (pending ++ t.leading.toList).length + t.text.toList.length) [] ms := rfl

@[simp] theorem writtenFrom_removed (t : Token) : writtenFrom before pending ((t, false) :: ms) =
    writtenFrom before (pending ++ lineFeeds t.leading.toList) ms := rfl

/-- Kept tokens are written out with the text that they have. -/
theorem map_spelling_writtenFrom : (writtenFrom before pending ms).map Token.spelling =
    ((ms.filter Prod.snd).map Prod.fst).map Token.spelling := by
  induction ms generalizing before pending with
  | nil => rfl
  | cons m ms ih => obtain ⟨t, _ | _⟩ := m <;> simp [Token.spelling, ih]

/-- Written tokens stand where their starts say. -/
theorem placed_writtenFrom : Placed before (writtenFrom before pending ms) := by
  induction ms generalizing before pending with
  | nil => trivial
  | cons m ms ih =>
    obtain ⟨t, _ | _⟩ := m
    · exact ih
    · exact ⟨by simp, by simpa using ih⟩

theorem toList_emit_kept (t : Token) : (t.emit true).toList = t.characters := by
  simp [Token.emit, Token.characters]

theorem toList_emit_removed (t : Token) : (t.emit false).toList = lineFeeds t.leading.toList := by
  simp [Token.emit, lineFeeds]

/-- Up to the last kept token, the text that is written out is that of the written tokens. -/
theorem charactersOf_writtenFrom {t : Token} (h : ms.getLast? = some (t, true)) :
    charactersOf (writtenFrom before pending ms) =
      pending ++ ms.flatMap fun m => (m.1.emit m.2).toList := by
  induction ms generalizing before pending with
  | nil => simp at h
  | cons m ms ih =>
    obtain ⟨u, _ | _⟩ := m
    · cases ms with
      | nil => simp at h
      | cons m ms =>
        rw [List.getLast?_cons_cons] at h
        have hfirst := toList_emit_removed u
        rw [writtenFrom_removed, ih h, List.append_assoc]
        simp [hfirst]
    · have hrest (start : Nat) : charactersOf (writtenFrom start [] ms) =
          ms.flatMap fun m => (m.1.emit m.2).toList := by
        cases ms with
        | nil => rfl
        | cons m ms =>
          rw [List.getLast?_cons_cons] at h
          rw [ih h, List.nil_append]
      rw [writtenFrom_kept, charactersOf_cons, hrest, List.flatMap_cons, toList_emit_kept]
      simp [Token.characters]

/-- A written token is a kept one with line feeds in front. -/
theorem exists_of_mem_writtenFrom {u : Token} (h : u ∈ writtenFrom before pending ms)
    (hpending : ∀ c ∈ pending, c = '\n') : ∃ t feeds, (t, true) ∈ ms ∧ (∀ c ∈ feeds, c = '\n') ∧
      u.spelling = t.spelling ∧ u.leading.toList = feeds ++ t.leading.toList := by
  induction ms generalizing before pending with
  | nil => simp at h
  | cons m ms ih =>
    obtain ⟨t, _ | _⟩ := m
    · have hfeeds : ∀ c ∈ pending ++ lineFeeds t.leading.toList, c = '\n' := by
        intro c hc
        rcases List.mem_append.mp hc with hc | hc
        · exact hpending c hc
        · simpa [lineFeeds] using (List.mem_filter.mp hc).2
      obtain ⟨t', feeds, hmem, hfeeds, hspelling, hleading⟩ := ih h hfeeds
      exact ⟨t', feeds, List.mem_cons_of_mem _ hmem, hfeeds, hspelling, hleading⟩
    · rcases List.mem_cons.mp h with rfl | h
      · exact ⟨t, pending, List.mem_cons_self, hpending, rfl, by simp⟩
      · obtain ⟨t', feeds, hmem, hfeeds, hspelling, hleading⟩ := ih h (by simp)
        exact ⟨t', feeds, List.mem_cons_of_mem _ hmem, hfeeds, hspelling, hleading⟩

namespace TokenTable

variable {table : TokenTable} {s : Erasure}

theorem toList_emit : (table.emit s).toList =
    (table.marked s).flatMap fun m => (m.1.emit m.2).toList := by
  rw [emit, String.toList_join, Array.toList_mapIdx, marked]
  simp only [List.mapIdx_eq_zipIdx_map, List.flatMap_map]

/-- What is written out is the text of the written tokens, if the last token is kept. -/
theorem charactersOf_written {t : Token} (h : (table.marked s).getLast? = some (t, true)) :
    charactersOf (table.written s) = (table.emit s).toList := by
  rw [written, charactersOf_writtenFrom h, toList_emit, List.nil_append]

theorem map_spelling_written :
    (table.written s).map Token.spelling = (table.keptTokens s).map Token.spelling :=
  map_spelling_writtenFrom

theorem map_fst_marked : (table.marked s).map Prod.fst = table.tokens.toList := by
  ext i t
  simp [marked]

/-- The end of the source is the last marked token. -/
theorem getLast?_marked {t : Token} (h : table.tokens.toList.getLast? = some t)
    (hs : s.keeps table.finish = true) : (table.marked s).getLast? = some (t, true) := by
  rw [marked, List.getLast?_mapIdx, h, Array.length_toList, Option.map_some]
  exact congrArg (fun kept => some (t, kept)) hs

end TokenTable

end Workflow.Script
