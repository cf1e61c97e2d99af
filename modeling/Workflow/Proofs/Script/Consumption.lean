import Workflow.Proofs.Script.Rereading

/-!
# Reading consumes the source

A token holds at least one character of the source, and no character is taken twice or out of
order. So reading ends after no more tokens than there are characters, be it at the end of the
source or at a literal or comment that does not end; what has been read up to there is kept.
-/

namespace Workflow.Script

/-- Tokens cut off the front of a text one behind the other, each with a character of its own;
only the end of the source has none, and then the whole text is cut off. -/
inductive CutFrom : List Char → List Token → Prop
  /-- The reading stops. -/
  | stop (cs : List Char) : CutFrom cs []
  /-- The source ends. -/
  | finish {t : Token} : t.kind = .finish → t.text = "" → CutFrom t.characters [t]
  /-- A token, and what is cut off behind it. -/
  | token {t : Token} {cs : List Char} {ts : List Token} : t.kind ≠ .finish → t.text ≠ "" →
      CutFrom cs ts → CutFrom (t.characters ++ cs) (t :: ts)

/-- What reading has taken from a source when it ends. -/
structure Consumes (source : String) (reading : Reading) : Prop where
  /-- Every token takes a character from the front of what is left. -/
  cut : CutFrom source.toList reading.tokens
  /-- The tokens hold the characters up to where the reading ended. -/
  characters : charactersOf reading.tokens <+: source.toList
  /-- There are no more tokens than characters and the end of the source. -/
  length : reading.tokens.length ≤ source.length + 1
  /-- Unless there is a fault the reading has come to the end of the source. -/
  ends : reading.fault = none →
    charactersOf reading.tokens = source.toList ∧
      ∃ last ∈ reading.tokens.getLast?, last.kind = .finish

variable {cs tail : List Char} {ts : List Token}

theorem CutFrom.characters (h : CutFrom cs ts) : charactersOf ts <+: cs := by
  induction h with
  | stop => exact List.nil_prefix
  | @finish t _ _ => simp [charactersOf]
  | @token t cs ts _ _ _ ih =>
    rw [charactersOf, List.flatMap_cons]
    exact (List.prefix_append_right_inj t.characters).mpr ih

theorem CutFrom.length_le (h : CutFrom cs ts) : ts.length ≤ cs.length + 1 := by
  induction h with
  | stop => exact Nat.zero_le _
  | finish => simp
  | @token t cs ts _ htext _ ih =>
    have hpos : 0 < t.text.toList.length := List.length_pos_iff.mpr (by simpa using htext)
    simp only [List.length_cons, List.length_append, Token.characters]
    omega

/-- A token of which the first character is given is cut off with what stands in front. -/
theorem CutFrom.read {kind : TokenKind} {leading body : List Char} {c : Char} {start : Nat}
    (hkind : kind ≠ .finish) (h : CutFrom cs ts) :
    CutFrom (leading ++ c :: (body ++ cs))
      (⟨kind, String.ofList leading, String.ofList (c :: body), start⟩ :: ts) := by
  have htext : String.ofList (c :: body) ≠ "" := by
    rw [Ne, ← String.toList_inj, String.toList_ofList]
    exact List.cons_ne_nil c body
  have hcut := h.token (t := ⟨kind, String.ofList leading, String.ofList (c :: body), start⟩)
    hkind htext
  simpa only [Token.characters, String.toList_ofList, List.append_assoc, List.cons_append]
    using hcut

/-- What is read from a place on is cut off what stands there. -/
theorem exists_cutFrom_of_readFrom (earlier : List Token) (before : Nat) (leading : List Char)
    (hself : triviaTail tail = .ok tail) : ∃ ts,
      (readFrom earlier before (leading ++ tail) tail).tokens = earlier.reverse ++ ts ∧
        CutFrom (leading ++ tail) ts := by
  induction hn : tail.length using Nat.strong_induction_on
    generalizing earlier before leading tail with
  | h n ih =>
    cases tail with
    | nil =>
      rw [List.append_nil, readFrom_nil]
      have hcut := CutFrom.finish
        (t := ⟨.finish, String.ofList leading, "", before + leading.length⟩) rfl rfl
      exact ⟨_, rfl, by simpa [Token.characters] using hcut⟩
    | cons c rest =>
      cases hread : tokenTail earlier c rest with
      | error fault =>
        rw [readFrom_fault hread]
        exact ⟨[], by simp, .stop _⟩
      | ok read =>
        obtain ⟨kind, after⟩ := read
        obtain ⟨body, rfl, hformed⟩ := exists_formed_of_tokenTail hself hread
        have hkind : kind ≠ .finish := fun hfinish => by
          rw [tokenTail_eq_ok_iff, hfinish] at hread
          exact hread.2
        cases hnext : triviaTail after with
        | error fault =>
          rw [readFrom_token_fault hread hnext]
          exact ⟨_, rfl, (CutFrom.stop after).read hkind⟩
        | ok next =>
          have hshorter : next.length < n := by
            have := length_triviaTail_le hnext
            simp only [List.length_cons, List.length_append] at hn
            omega
          obtain ⟨front, rfl, -⟩ := exists_front_of_triviaTail hnext
          rw [readFrom_token hread hnext]
          obtain ⟨ts, htokens, hcut⟩ :=
            ih next.length hshorter _ _ _ (triviaTail_of_eq_ok hnext) rfl
          exact ⟨_, by rw [htokens, List.reverse_cons, List.append_assoc]; rfl, hcut.read hkind⟩

/-- The tokens of a source are cut off it, whether it is read to its end or not. -/
theorem cutFrom_readTokens (source : String) :
    CutFrom source.toList (readTokens source).tokens := by
  unfold readTokens
  split
  · exact .stop _
  · rename_i tail htail
    obtain ⟨front, hsource, -⟩ := exists_front_of_headTail htail
    obtain ⟨ts, htokens, hcut⟩ :=
      exists_cutFrom_of_readFrom [] 0 front (triviaTail_of_eq_headTail htail)
    rw [hsource, htokens]
    exact hcut

/-- Reading consumes every source. -/
theorem consumes_readTokens (source : String) : Consumes source (readTokens source) where
  cut := cutFrom_readTokens source
  characters := (cutFrom_readTokens source).characters
  length := by
    have hlength := (cutFrom_readTokens source).length_le
    rwa [String.length_toList] at hlength
  ends hfault := by
    have hreading : readTokens source = ⟨(readTokens source).tokens, none⟩ := by rw [← hfault]
    obtain ⟨t, ts, htokens, hof⟩ := readTokens_eq_iff.mp hreading
    obtain ⟨front, last, hlast, hkind, -⟩ := readsOn_iff.mp hof.reads
    refine ⟨htokens ▸ hof.characters, last, ?_, hkind⟩
    rw [htokens, hlast, List.getLast?_concat]
    rfl

end Workflow.Script
