import Mathlib.Algebra.GroupWithZero.Nat
import Workflow.Proofs.Script.Rereading

/-!
# Lines of what is written out

In place of a removed token the line feeds in front of it are written, but not those inside
it. So what is written out has the line feeds of the source less those inside removed tokens,
and the kept tokens stay on their lines exactly if no removed token holds a line feed. A
template literal or a continued string in a type may hold one.
-/

namespace Workflow.Script

/-- The line, counted from one, of the place behind some characters of a text. -/
def lineAt (text : String) (offset : Nat) : Nat :=
  (Text.Position.after (text.toList.take offset)).line

/-- The tokens that are removed. -/
def TokenTable.removedTokens (table : TokenTable) (s : Erasure) : List Token :=
  ((table.marked s).filter fun m => !m.2).map Prod.fst

/-- The number of line feeds inside removed tokens. -/
def lostFeeds (ms : List (Token × Bool)) : Nat :=
  ((ms.filter fun m => !m.2).map fun m => m.1.text.toList.count '\n').sum

variable {ms front : List (Token × Bool)} {ts us : List Token} {t : Token} {before : Nat}
  {pending : List Char}

theorem lostFeeds_cons_kept : lostFeeds ((t, true) :: ms) = lostFeeds ms := rfl

theorem lostFeeds_cons_removed :
    lostFeeds ((t, false) :: ms) = t.text.toList.count '\n' + lostFeeds ms := rfl

/-- No line feed is lost exactly if no removed token holds one. -/
theorem lostFeeds_eq_zero_iff :
    lostFeeds ms = 0 ↔ ∀ m ∈ ms, m.2 = false → '\n' ∉ m.1.text.toList := by
  induction ms with
  | nil => simp [lostFeeds]
  | cons m ms ih =>
    obtain ⟨t, kept⟩ := m
    cases kept with
    | true => simpa [lostFeeds_cons_kept] using ih
    | false =>
      rw [lostFeeds_cons_removed, Nat.add_eq_zero_iff, ih, List.count_eq_zero]
      simp

theorem count_lineFeeds (cs : List Char) : (lineFeeds cs).count '\n' = cs.count '\n' := by
  rw [lineFeeds, List.count_filter (by simp)]

/-- What is written out has the line feeds of the source less the lost ones. -/
theorem count_emitted (ms : List (Token × Bool)) :
    (ms.flatMap fun m => (m.1.emit m.2).toList).count '\n' + lostFeeds ms =
      (charactersOf (ms.map Prod.fst)).count '\n' := by
  induction ms with
  | nil => rfl
  | cons m ms ih =>
    obtain ⟨t, kept⟩ := m
    rw [List.flatMap_cons, List.map_cons, charactersOf_cons, List.count_append, List.count_append,
      List.count_append, ← ih]
    cases kept with
    | true =>
      rw [toList_emit_kept, lostFeeds_cons_kept, Token.characters, List.count_append]
      omega
    | false =>
      rw [toList_emit_removed, lostFeeds_cons_removed, count_lineFeeds]
      simp only
      omega

/-- The line of a token is told by the line feeds in front of it. -/
theorem lineAt_start {text : String} (h : Placed 0 (ts ++ t :: us))
    (htext : charactersOf (ts ++ t :: us) = text.toList) :
    lineAt text t.start = (charactersOf ts).count '\n' + t.leading.toList.count '\n' + 1 := by
  obtain ⟨hstart, -⟩ := (placed_append.mp h).2
  have htake : text.toList.take t.start = charactersOf ts ++ t.leading.toList := by
    rw [← htext, charactersOf_append, charactersOf_cons, ← List.append_assoc, hstart]
    exact List.take_left' (by simp)
  rw [lineAt, htake, Text.Position.line_after, List.count_append]

/-- Two tokens start on the same line, each in its text. -/
def OnLine (out source : String) (w t : Token) : Prop := lineAt out w.start = lineAt source t.start

/-- Kept tokens stay on their lines if no removed token holds a line feed. Behind `front`,
which has been written as `us`, the line feeds `pending` are still to be written. -/
theorem forall₂_onLine {out source : String} (front : List (Token × Bool)) (us : List Token)
    (hms : lostFeeds ms = 0)
    (hsource : charactersOf (front.map Prod.fst ++ ms.map Prod.fst) = source.toList)
    (hplaced : Placed 0 (front.map Prod.fst ++ ms.map Prod.fst))
    (hout : charactersOf (us ++ writtenFrom before pending ms) = out.toList)
    (hwritten : Placed 0 (us ++ writtenFrom before pending ms))
    (hfeeds : (charactersOf us).count '\n' + pending.count '\n' =
      (charactersOf (front.map Prod.fst)).count '\n') :
    List.Forall₂ (OnLine out source) (writtenFrom before pending ms)
      ((ms.filter Prod.snd).map Prod.fst) := by
  induction ms generalizing before pending front us with
  | nil => exact .nil
  | cons m ms ih =>
    obtain ⟨t, kept⟩ := m
    have hsplit : front.map Prod.fst ++ ((t, kept) :: ms).map Prod.fst =
        (front ++ [(t, kept)]).map Prod.fst ++ ms.map Prod.fst := by simp
    cases kept with
    | true =>
      rw [writtenFrom] at hout hwritten ⊢
      refine .cons ?_ (ih _ _ hms (hsplit ▸ hsource) (hsplit ▸ hplaced)
        (List.append_cons us _ _ ▸ hout) (List.append_cons us _ _ ▸ hwritten) ?_)
      · rw [OnLine, lineAt_start hwritten hout, lineAt_start hplaced hsource, ← hfeeds]
        simp
        omega
      · simp [charactersOf_append, charactersOf_cons, charactersOf_nil, ← hfeeds]
        omega
    | false =>
      rw [lostFeeds_cons_removed, Nat.add_eq_zero_iff] at hms
      refine ih _ _ hms.2 (hsplit ▸ hsource) (hsplit ▸ hplaced) hout hwritten ?_
      simp [charactersOf_append, charactersOf_cons, charactersOf_nil, count_lineFeeds, hms.1,
        ← hfeeds]
      omega

/-- The tokens of a table hold the characters of its source, each where its start says. -/
theorem characters_of_tokenize {source : String} {table : TokenTable}
    (htable : tokenize source = .ok table) :
    charactersOf table.tokens.toList = source.toList ∧ Placed 0 table.tokens.toList := by
  obtain ⟨hread, -⟩ := tokenize_eq_ok_iff.mp htable
  obtain ⟨t, ts, htokens, hof⟩ := readTokens_eq_iff.mp hread
  rw [htokens]
  exact ⟨hof.characters, hof.placed⟩

/-- A script that is accepted is written out as its kept tokens. What is written out has the
line feeds of the source less those inside removed tokens; it has all of them, and every kept
token starts on the line on which it starts in the source, exactly if no removed token holds
a line feed. -/
theorem lines_kept_iff {source : String} {table : TokenTable} {s : Erasure}
    (htable : tokenize source = .ok table) (hrun : Erasure.run table (.start table) 0 = .ok s) :
    eraseTypes source = .ok (table.emit s) ∧
      charactersOf (table.written s) = (table.emit s).toList ∧ Placed 0 (table.written s) ∧
      (table.written s).map Token.spelling = (table.keptTokens s).map Token.spelling ∧
      (table.emit s).toList.count '\n' + lostFeeds (table.marked s) = source.toList.count '\n' ∧
      ((table.emit s).toList.count '\n' = source.toList.count '\n' ∧
          List.Forall₂ (OnLine (table.emit s) source) (table.written s) (table.keptTokens s) ↔
        ∀ t ∈ table.removedTokens s, '\n' ∉ t.text.toList) := by
  obtain ⟨hcharacters, hplaced⟩ := characters_of_tokenize htable
  have hout := charactersOf_written_of_run htable hrun
  have hcount : (table.emit s).toList.count '\n' + lostFeeds (table.marked s) =
      source.toList.count '\n' := by
    rw [TokenTable.toList_emit, count_emitted, TokenTable.map_fst_marked, hcharacters]
  have hlost : (∀ t ∈ table.removedTokens s, '\n' ∉ t.text.toList) ↔
      lostFeeds (table.marked s) = 0 := by
    rw [lostFeeds_eq_zero_iff]
    simp [TokenTable.removedTokens]
  refine ⟨?_, hout, placed_writtenFrom, TokenTable.map_spelling_written, hcount, ?_⟩
  · simp only [eraseTypes, htable, hrun]
  · rw [hlost]
    refine ⟨fun hkept => ?_, fun hzero => ⟨by omega, ?_⟩⟩
    · have hfeeds := hkept.1
      omega
    refine forall₂_onLine [] [] hzero ?_ ?_ hout placed_writtenFrom rfl
    · simpa [TokenTable.map_fst_marked] using hcharacters
    · simpa [TokenTable.map_fst_marked] using hplaced

/-- An annotation over two lines leaves the lines as they are. -/
theorem lines_kept_annotation : ∃ table s, tokenize "let a: (x\n| y) = 1;\nlet b = 2;" = .ok table ∧
    Erasure.run table (.start table) 0 = .ok s ∧
      List.Forall₂ (OnLine (table.emit s) "let a: (x\n| y) = 1;\nlet b = 2;") (table.written s)
        (table.keptTokens s) := by
  obtain ⟨table, s, htable, hrun, hread⟩ :=
    exists_run_of_bind "let a: (x\n| y) = 1;\nlet b = 2;"
      (fun table s => decide (∀ t ∈ table.removedTokens s, '\n' ∉ t.text.toList))
      (by decide +kernel)
  exact ⟨table, s, htable, hrun,
    ((lines_kept_iff htable hrun).2.2.2.2.2.mpr (of_decide_eq_true hread)).2⟩

/-- The line feed inside a removed template literal is lost. -/
theorem line_lost_template : ∃ out, eraseTypes "type A = `x\ny`;\nconst b = 1;" = .ok out ∧
    out.toList.count '\n' ≠ "type A = `x\ny`;\nconst b = 1;".toList.count '\n' :=
  ⟨"\nconst b = 1;", by decide +kernel, by decide +kernel⟩

end Workflow.Script
