import Workflow.Proofs.Script.Spelling

/-!
# Which tokens a source has

The tokens of a source hold all of its characters, in order, and each of them stands
where its start says. They are read one behind the other: each is well formed, ends
before what stands behind it, fits behind what stands before it, and has nothing but
white space and comments in front. Conversely, tokens with these properties are the
tokens of the source that they make up.
-/

namespace Workflow.Script

/-- The characters of a token and of what stands in front of it. -/
def Token.characters (t : Token) : List Char := t.leading.toList ++ t.text.toList

/-- The characters of tokens in order. -/
def charactersOf (ts : List Token) : List Char := ts.flatMap Token.characters

@[simp] theorem charactersOf_nil : charactersOf [] = [] := rfl

/-- A token is written with what stands in front of it. -/
@[simp] theorem charactersOf_cons (t : Token) (ts : List Token) :
    charactersOf (t :: ts) = t.leading.toList ++ (t.text.toList ++ charactersOf ts) := by
  simp [charactersOf, Token.characters]

@[simp] theorem charactersOf_append (ts us : List Token) :
    charactersOf (ts ++ us) = charactersOf ts ++ charactersOf us := List.flatMap_append

/-- Every token starts behind the characters before its text; `before` of them stand in
front of the first one. -/
def Placed (before : Nat) : List Token → Prop
  | [] => True
  | t :: ts =>
    t.start = before + t.leading.toList.length ∧
      Placed (before + t.leading.toList.length + t.text.toList.length) ts

/-- Two parts are placed one behind the other exactly if the second is placed where the first ends.
-/
theorem placed_append {start : Nat} {ts us : List Token} : Placed start (ts ++ us) ↔
    Placed start ts ∧ Placed (start + (charactersOf ts).length) us := by
  induction ts generalizing start with
  | nil => simp [Placed]
  | cons t ts ih => simp [Placed, ih, and_assoc, Nat.add_assoc]

/-- What stands in front of a token that is not the first one. -/
def Token.Spaced (t : Token) : Prop :=
  if t.kind = .finish then triviaTail t.leading.toList = .ok [] else Trivia t.leading.toList

/-- What stands in front of a token is passed over. -/
theorem Token.Spaced.triviaTail_eq {t : Token} {cs : List Char} (h : t.Spaced)
    (hself : triviaTail cs = .ok cs) (hfinish : t.kind = .finish → cs = []) :
    triviaTail (t.leading.toList ++ cs) = .ok cs := by
  unfold Token.Spaced at h
  split at h
  · rename_i hkind
    rw [hfinish hkind, List.append_nil]
    exact h
  · rw [h.triviaTail_append]
    exact hself

/-- Tokens that are read one behind the other, given the tokens before them, nearest
first. -/
inductive ReadsOn : List Token → List Token → Prop
  /-- The source ends. -/
  | finish {earlier : List Token} {t : Token} : t.kind = .finish → t.text = "" → ReadsOn earlier [t]
  /-- A token, and further ones behind it. -/
  | token {earlier : List Token} {t next : Token} {ts : List Token} : t.Formed →
      t.EndsBefore (charactersOf (next :: ts)) → t.FitsBehind earlier → next.Spaced →
      ReadsOn (t :: earlier) (next :: ts) → ReadsOn earlier (t :: next :: ts)

variable {earlier : List Token} {before : Nat}

/-- The end of the source is the last token read. -/
theorem readFrom_nil (cs : List Char) : readFrom earlier before cs [] =
    ⟨earlier.reverse ++ [⟨.finish, String.ofList cs, "", before + cs.length⟩], none⟩ := by
  rw [readFrom]
  simp

/-- One round of the reading takes a token and the trivia behind it. -/
theorem readFrom_cons (cs rest : List Char) (c : Char) :
    readFrom earlier before cs (c :: rest) =
      let leading := cs.take (cs.length - (c :: rest).length)
      match tokenTail earlier c rest with
      | .error fault => ⟨earlier.reverse, some fault⟩
      | .ok (kind, after) =>
        let text := c :: rest.take (rest.length - after.length)
        let token : Token :=
          ⟨kind, String.ofList leading, String.ofList text, before + leading.length⟩
        match triviaTail after with
        | .error fault => ⟨(token :: earlier).reverse, some fault⟩
        | .ok next =>
          readFrom (token :: earlier) (before + leading.length + text.length) after next := by
  rw [readFrom]
  split
  · rename_i hread
    simp only [hread]
  · rename_i hread
    simp only [hread]
    split
    · rename_i hnext
      simp only [hnext]
    · rename_i hnext
      simp only [hnext]

/-- Behind a token the reading goes on with the next one. -/
theorem readFrom_token {kind : TokenKind} {leading body after next : List Char} {c : Char}
    (hread : tokenTail earlier c (body ++ after) = .ok (kind, after))
    (hnext : triviaTail after = .ok next) :
    readFrom earlier before (leading ++ c :: (body ++ after)) (c :: (body ++ after)) =
      readFrom (⟨kind, String.ofList leading, String.ofList (c :: body), before + leading.length⟩ ::
        earlier) (before + leading.length + (c :: body).length) after next := by
  simp [readFrom_cons, hread, hnext]

/-- The reading stops at a token that does not end. -/
theorem readFrom_fault {cs rest : List Char} {c : Char} {fault : LexicalFault}
    (h : tokenTail earlier c rest = .error fault) :
    readFrom earlier before cs (c :: rest) = ⟨earlier.reverse, some fault⟩ := by
  simp [readFrom_cons, h]

/-- A comment behind a token that does not end leaves the token read. -/
theorem readFrom_token_fault {kind : TokenKind} {leading body after : List Char} {c : Char}
    {fault : LexicalFault} (hread : tokenTail earlier c (body ++ after) = .ok (kind, after))
    (hnext : triviaTail after = .error fault) :
    readFrom earlier before (leading ++ c :: (body ++ after)) (c :: (body ++ after)) =
      ⟨earlier.reverse ++
        [⟨kind, String.ofList leading, String.ofList (c :: body), before + leading.length⟩],
        some fault⟩ := by
  simp [readFrom_cons, hread, hnext]

/-- A reading without a fault goes on behind a token. -/
theorem exists_of_readFrom_cons {cs rest : List Char} {c : Char} {all : List Token}
    (h : readFrom earlier before cs (c :: rest) = ⟨all, none⟩) : ∃ kind after next,
      tokenTail earlier c rest = .ok (kind, after) ∧ triviaTail after = .ok next := by
  simp only [readFrom_cons] at h
  split at h
  · cases h
  · rename_i kind after hread
    split at h
    · cases h
    · rename_i next hnext
      exact ⟨kind, after, next, hread, hnext⟩

/-- The end of the source is no token that a scanner reads. -/
theorem Token.Formed.kind_ne_finish {t : Token} (ht : t.Formed) : t.kind ≠ .finish := by
  obtain ⟨c, rest, _, _, _, hread⟩ := ht
  intro hkind
  rw [hkind, tokenTail_eq_ok_iff] at hread
  exact hread.2

/-- A token that is formed has a first character. -/
theorem Token.Formed.exists_cons {t : Token} (ht : t.Formed) :
    ∃ c body, t.text.toList = c :: body := by
  obtain ⟨c, body, _, htext, -⟩ := ht
  exact ⟨c, body, htext⟩

namespace ReadsOn

variable {t next : Token} {ts : List Token}

/-- The end of the source is the last token. -/
theorem eq_nil_of_finish (h : ReadsOn earlier (t :: ts)) (hkind : t.kind = .finish) :
    ts = [] ∧ t.text = "" := by
  cases h with
  | finish _ htext => exact ⟨rfl, htext⟩
  | token hformed => exact absurd hkind hformed.kind_ne_finish

/-- A text read as tokens begins with neither white space nor a comment. -/
theorem triviaTail_text (h : ReadsOn earlier (t :: ts)) :
    triviaTail (t.text.toList ++ charactersOf ts) = .ok (t.text.toList ++ charactersOf ts) := by
  cases h with
  | finish _ htext =>
    rw [htext]
    simp [triviaTail]
  | token hformed hends hfits =>
    obtain ⟨c, body, htext⟩ := hformed.exists_cons
    rw [htext, List.cons_append]
    exact ((hformed.reads_iff htext).mpr ⟨hends, hfits⟩).2

/-- What stands in front of a token that may follow another one is passed over. -/
theorem triviaTail_characters (h : ReadsOn earlier (t :: ts)) (hspaced : t.Spaced) :
    triviaTail (charactersOf (t :: ts)) = .ok (t.text.toList ++ charactersOf ts) := by
  rw [charactersOf_cons]
  refine hspaced.triviaTail_eq h.triviaTail_text fun hkind => ?_
  obtain ⟨rfl, htext⟩ := h.eq_nil_of_finish hkind
  simp [htext]

/-- Tokens that are read one behind the other are what is read of their own characters. -/
theorem readFrom_eq (h : ReadsOn earlier (t :: ts)) (hplaced : Placed before (t :: ts)) :
    readFrom earlier before (charactersOf (t :: ts)) (t.text.toList ++ charactersOf ts) =
      ⟨earlier.reverse ++ t :: ts, none⟩ := by
  generalize hall : t :: ts = all at h
  induction h generalizing t ts before with
  | @finish earlier t' hkind htext =>
    obtain ⟨rfl, rfl⟩ := List.cons.inj hall
    obtain ⟨kind, leading, text, start⟩ := t
    obtain ⟨hstart, -⟩ := hplaced
    simp only at hkind htext hstart
    subst hkind htext hstart
    simp [readFrom_nil]
  | @token earlier t' next ts' hformed hends hfits hspaced htail ih =>
    obtain ⟨rfl, rfl⟩ := List.cons.inj hall
    obtain ⟨c, body, htext⟩ := hformed.exists_cons
    have hread := ((hformed.reads_iff htext).mpr ⟨hends, hfits⟩).1
    have hnext := htail.triviaTail_characters hspaced
    obtain ⟨hstart, hrest⟩ := hplaced
    have htoken : (⟨t.kind, String.ofList t.leading.toList, String.ofList (c :: body),
        before + t.leading.toList.length⟩ : Token) = t := by
      rw [← htext, ← hstart, String.ofList_toList, String.ofList_toList]
    rw [charactersOf_cons, htext, List.cons_append, readFrom_token hread hnext, htoken, ← htext,
      ih hrest rfl]
    simp

end ReadsOn

/-- What is read without a fault are tokens that are read one behind the other. -/
theorem exists_readsOn_of_readFrom {leading tail : List Char} {all : List Token}
    (hself : triviaTail tail = .ok tail)
    (h : readFrom earlier before (leading ++ tail) tail = ⟨all, none⟩) :
    ∃ t ts, all = earlier.reverse ++ t :: ts ∧ t.leading.toList = leading ∧
      t.text.toList ++ charactersOf ts = tail ∧ Placed before (t :: ts) ∧
      ReadsOn earlier (t :: ts) ∧ (t.kind = .finish ↔ tail = []) := by
  induction hn : tail.length using Nat.strong_induction_on
    generalizing earlier before leading tail with
  | h n ih =>
    cases tail with
    | nil =>
      rw [List.append_nil, readFrom_nil] at h
      obtain ⟨rfl, -⟩ := Reading.mk.inj h
      exact ⟨_, [], rfl, by simp, by simp, ⟨by simp, trivial⟩, .finish rfl rfl, by simp⟩
    | cons c rest =>
      obtain ⟨kind, after, next, hread, hnext⟩ := exists_of_readFrom_cons h
      obtain ⟨body, rfl, hformed⟩ := exists_formed_of_tokenTail hself hread
      obtain ⟨token, htoken⟩ : ∃ token : Token, token =
          ⟨kind, String.ofList leading, String.ofList (c :: body), before + leading.length⟩ :=
        ⟨_, rfl⟩
      have hkind : token.kind = kind := by rw [htoken]
      have htext : token.text.toList = c :: body := by rw [htoken, String.toList_ofList]
      have hleading : token.leading.toList = leading := by rw [htoken, String.toList_ofList]
      have hstart : token.start = before + leading.length := by rw [htoken]
      rw [readFrom_token hread hnext, ← htoken] at h
      have hshorter : next.length < n := by
        have := length_triviaTail_le hnext
        simp only [List.length_cons, List.length_append] at hn
        omega
      obtain ⟨front, rfl, hfront⟩ := exists_front_of_triviaTail hnext
      obtain ⟨t, ts, rfl, hspace, htail, hplaced, hreads, hfinish⟩ :=
        ih next.length hshorter (triviaTail_of_eq_ok hnext) h rfl
      have hbehind : charactersOf (t :: ts) = front ++ next := by
        rw [charactersOf_cons, hspace, htail]
      have hwhole := hformed token hkind htext
      rw [← hbehind] at hread hself
      rw [← hkind] at hread
      obtain ⟨hends, hfits⟩ := (hwhole.reads_iff htext).mp ⟨hread, hself⟩
      refine ⟨token, t :: ts, by simp, hleading, by rw [htext, hbehind]; rfl, ?_, ?_, ?_⟩
      · rw [← htext, ← hleading] at hplaced
        exact ⟨by rw [hstart, hleading], hplaced⟩
      · refine .token hwhole hends hfits ?_ hreads
        unfold Token.Spaced
        rw [hspace]
        split
        · rename_i hend
          rw [hfinish.mp hend, List.append_nil] at hnext
          exact hnext
        · rename_i hend
          exact hfront fun hnil => hend (hfinish.mpr hnil)
      · simp [hwhole.kind_ne_finish]

/-- White space and comments at the very start of a source, where a line that begins with
`#!` may come first. -/
inductive HeadTrivia : List Char → Prop
  | plain {front : List Char} : Trivia front → HeadTrivia front
  | line {body front : List Char} : '\n' ∉ body → Trivia ('\n' :: front) →
      HeadTrivia ('#' :: '!' :: (body ++ '\n' :: front))

/-- What stands in front of the first token of a source. -/
def Token.HeadSpaced (t : Token) : Prop :=
  if t.kind = .finish then headTail t.leading.toList = .ok [] else HeadTrivia t.leading.toList

/-- At the start of a source without a mark only white space and comments are passed over. -/
theorem headTail_eq_triviaTail {cs : List Char} (h : ¬ ['#', '!'] <+: cs) :
    headTail cs = triviaTail cs := by
  unfold headTail
  split
  · rename_i rest
    exact absurd (List.prefix_append ['#', '!'] rest) h
  · rfl

/-- White space and comments do not start with a mark. -/
theorem Trivia.starts_no_mark {front : List Char} (h : Trivia front) : ¬ ['#', '!'] <+: front := by
  rintro ⟨rest, rfl⟩
  cases h with
  | blank hblank _ => exact absurd hblank (by decide)

/-- What stands in front of the first token is passed over. -/
theorem Token.HeadSpaced.headTail_eq {t : Token} {cs : List Char} (h : t.HeadSpaced)
    (hmark : ['#', '!'] <+: t.leading.toList ++ cs → ['#', '!'] <+: t.leading.toList)
    (hself : triviaTail cs = .ok cs) (hfinish : t.kind = .finish → cs = []) :
    headTail (t.leading.toList ++ cs) = .ok cs := by
  unfold Token.HeadSpaced at h
  split at h
  · rename_i hkind
    rw [hfinish hkind, List.append_nil]
    exact h
  · generalize t.leading.toList = leading at h hmark
    cases h with
    | plain hfront =>
      rw [headTail_eq_triviaTail fun hprefix => hfront.starts_no_mark (hmark hprefix),
        hfront.triviaTail_append, hself]
    | @line body front hbody hfront =>
      have hline : lineTail (body ++ '\n' :: (front ++ cs)) = '\n' :: (front ++ cs) :=
        lineTail_append hbody _
      have hskip := hfront.triviaTail_append cs
      rw [List.cons_append] at hskip
      simp only [List.cons_append, List.append_assoc]
      rw [headTail, hline, hskip, hself]

/-- At the start of a source, white space and comments are passed over, and a first line with a
mark. -/
theorem exists_front_of_headTail {cs rest : List Char} (h : headTail cs = .ok rest) :
    ∃ front, cs = front ++ rest ∧ (rest ≠ [] → HeadTrivia front) ∧
      (['#', '!'] <+: cs → ['#', '!'] <+: front) := by
  by_cases hmark : ['#', '!'] <+: cs
  · obtain ⟨tail, rfl⟩ := hmark
    have hrest : triviaTail (lineTail tail) = .ok rest := h
    cases rest with
    | nil => exact ⟨['#', '!'] ++ tail, by simp, fun hne => absurd rfl hne, id⟩
    | cons c rest =>
      have hc := (triviaTail_eq_self_iff.mp (triviaTail_of_eq_ok hrest)).1
      obtain ⟨front, hfront, heq⟩ := exists_trivia_of_triviaTail hrest
      obtain ⟨body, front, hbody, rfl, rfl⟩ := exists_line_front hc heq
      exact ⟨'#' :: '!' :: (body ++ '\n' :: front), by simp, fun _ => .line hbody hfront,
        fun _ => ⟨body ++ '\n' :: front, rfl⟩⟩
  · rw [headTail_eq_triviaTail hmark] at h
    obtain ⟨front, rfl, htrivia⟩ := exists_front_of_triviaTail h
    exact ⟨front, rfl, fun hne => .plain (htrivia hne), fun hprefix => absurd hprefix hmark⟩

/-- What is left at the start of a source begins with a token. -/
theorem triviaTail_of_eq_headTail {cs rest : List Char} (h : headTail cs = .ok rest) :
    triviaTail rest = .ok rest := by
  unfold headTail at h
  split at h
  · exact triviaTail_of_eq_ok h
  · exact triviaTail_of_eq_ok h

/-- Tokens that make up a source in the order in which they are read. -/
structure TokensOf (source : List Char) (t : Token) (ts : List Token) : Prop where
  /-- No character is lost or taken twice. -/
  characters : charactersOf (t :: ts) = source
  /-- Every token stands where its start says. -/
  placed : Placed 0 (t :: ts)
  /-- The tokens are read one behind the other. -/
  reads : ReadsOn [] (t :: ts)
  /-- White space and comments stand in front of the first token. -/
  head : t.HeadSpaced
  /-- A line that begins with `#!` at the start stands in front of the first token. -/
  mark : ['#', '!'] <+: source → ['#', '!'] <+: t.leading.toList

/-- At the start of a source, what stands in front of the first token is passed over. -/
theorem TokensOf.headTail_eq {source : List Char} {t : Token} {ts : List Token}
    (h : TokensOf source t ts) : headTail source = .ok (t.text.toList ++ charactersOf ts) := by
  have hcharacters := h.characters
  have hmark := h.mark
  rw [charactersOf_cons] at hcharacters
  rw [← hcharacters] at hmark ⊢
  refine h.head.headTail_eq hmark h.reads.triviaTail_text fun hkind => ?_
  obtain ⟨rfl, htext⟩ := h.reads.eq_nil_of_finish hkind
  simp [htext]

/-- The tokens of a source are those that make it up in the order in which they are read. -/
theorem readTokens_eq_iff {source : String} {all : List Token} :
    readTokens source = ⟨all, none⟩ ↔ ∃ t ts, all = t :: ts ∧ TokensOf source.toList t ts := by
  constructor
  · intro h
    unfold readTokens at h
    split at h
    · cases h
    · rename_i tail htail
      obtain ⟨front, hsource, hfront, hmark⟩ := exists_front_of_headTail htail
      rw [hsource] at h
      obtain ⟨t, ts, rfl, hleading, htext, hplaced, hreads, hfinish⟩ :=
        exists_readsOn_of_readFrom (triviaTail_of_eq_headTail htail) h
      refine ⟨t, ts, rfl, ?_, hplaced, hreads, ?_, hleading ▸ hmark⟩
      · rw [charactersOf_cons, hleading, htext, hsource]
      · unfold Token.HeadSpaced
        rw [hleading]
        split
        · rename_i hend
          rw [hsource, hfinish.mp hend, List.append_nil] at htail
          exact htail
        · rename_i hend
          exact hfront fun hnil => hend (hfinish.mpr hnil)
  · rintro ⟨t, ts, rfl, h⟩
    have hread := h.reads.readFrom_eq h.placed
    rw [h.characters] at hread
    unfold readTokens
    rw [h.headTail_eq]
    exact hread

end Workflow.Script
