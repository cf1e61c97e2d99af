import Workflow.Proofs.Script.Bracket
import Workflow.Proofs.Script.Marks
import Workflow.Proofs.Script.Written

/-!
# Reading again what is written out

Removing tokens brings kept ones together that stood apart, for the spaces in front of a
removed token vanish with it. What is written out is read as the kept tokens exactly if
none of them is lengthened by what has come to stand behind it, every slash keeps the
meaning that it had, and the brackets that are left pair up. Not every script is so:
the keyword in `return <string>x` is read together with the name once the assertion
between them is removed.
-/

namespace Workflow.Script

variable {earlier : List Token} {t u : Token} {ts us : List Token}

/-- No token is lengthened by what stands behind it, and a slash starts a regular
expression exactly where the tokens before it allow one. -/
def Undisturbed (earlier ts : List Token) : Prop :=
  ∀ front t behind, ts = front ++ t :: behind →
    t.EndsBefore (charactersOf behind) ∧ t.FitsBehind (front.reverse ++ earlier)

theorem undisturbed_nil : Undisturbed earlier [] := by
  intro front t behind h
  simp at h

theorem undisturbed_cons : Undisturbed earlier (t :: ts) ↔
    (t.EndsBefore (charactersOf ts) ∧ t.FitsBehind earlier) ∧ Undisturbed (t :: earlier) ts := by
  constructor
  · intro h
    refine ⟨h [] t ts rfl, fun front u behind hts => ?_⟩
    simpa using h (t :: front) u behind (by rw [hts, List.cons_append])
  · rintro ⟨hfirst, hrest⟩ front u behind hts
    cases front with
    | nil =>
      obtain ⟨rfl, rfl⟩ := List.cons.inj hts
      exact hfirst
    | cons v front =>
      obtain ⟨rfl, rfl⟩ := List.cons.inj hts
      simpa using hrest front u behind rfl

/-- The end of the source, where the reading stops. -/
theorem endsBefore_of_finish (h : t.kind = .finish) (behind : List Char) : t.EndsBefore behind := by
  rw [Token.EndsBefore, h]
  trivial

theorem fitsBehind_of_text_eq (h : t.text = "") : t.FitsBehind earlier := by
  simp [Token.FitsBehind, h]

/-- Tokens are read one behind the other if the last one is the end of the source, the
others are well formed and stand apart, and none is disturbed by its neighbours. -/
theorem readsOn_iff : ReadsOn earlier ts ↔ ∃ front last, ts = front ++ [last] ∧
    last.kind = .finish ∧ last.text = "" ∧ (∀ t ∈ front, t.Formed) ∧ (∀ t ∈ ts.tail, t.Spaced) ∧
    Undisturbed earlier ts := by
  constructor
  · intro h
    induction h with
    | @finish earlier t hkind htext =>
      refine ⟨[], t, rfl, hkind, htext, by simp, by simp, ?_⟩
      rw [undisturbed_cons]
      exact ⟨⟨endsBefore_of_finish hkind _, fitsBehind_of_text_eq htext⟩, undisturbed_nil⟩
    | @token earlier t next ts hformed hends hfits hspaced _ ih =>
      obtain ⟨front, last, heq, hkind, htext, hfront, htail, hundisturbed⟩ := ih
      refine ⟨t :: front, last, by rw [heq, List.cons_append], hkind, htext, ?_, ?_, ?_⟩
      · intro u hu
        rcases List.mem_cons.mp hu with rfl | hu
        · exact hformed
        · exact hfront u hu
      · intro u hu
        rcases List.mem_cons.mp hu with rfl | hu
        · exact hspaced
        · exact htail u hu
      · exact undisturbed_cons.mpr ⟨⟨hends, hfits⟩, hundisturbed⟩
  · rintro ⟨front, last, rfl, hkind, htext, hfront, htail, hundisturbed⟩
    induction front generalizing earlier with
    | nil => exact .finish hkind htext
    | cons t front ih =>
      rw [List.cons_append] at hundisturbed htail ⊢
      obtain ⟨⟨hends, hfits⟩, hrest⟩ := undisturbed_cons.mp hundisturbed
      obtain ⟨next, others, hnext⟩ := List.exists_cons_of_ne_nil
        (show front ++ [last] ≠ [] by simp)
      rw [List.tail_cons] at htail
      have hreads := ih (fun u hu => hfront u (List.mem_cons_of_mem _ hu))
        (fun u hu => htail u (List.mem_of_mem_tail hu)) hrest
      rw [hnext] at hreads htail hends ⊢
      exact .token (hfront t List.mem_cons_self) hends hfits (htail next List.mem_cons_self) hreads

theorem Token.formed_congr (h : t.spelling = u.spelling) : t.Formed ↔ u.Formed := by
  obtain ⟨hkind, htext⟩ := Prod.mk.inj h
  simp only [Token.Formed, hkind, htext]

theorem Token.endsBefore_congr (h : t.spelling = u.spelling) (behind : List Char) :
    t.EndsBefore behind ↔ u.EndsBefore behind := by
  obtain ⟨hkind, htext⟩ := Prod.mk.inj h
  simp only [Token.EndsBefore, hkind, htext]

/-- Whether a slash may start a regular expression depends on how the tokens before it
are spelled. -/
theorem regexAllowed_congr (h : ts.map Token.spelling = us.map Token.spelling) :
    regexAllowed ts = regexAllowed us := by
  cases ts with
  | nil =>
    rw [List.map_nil, eq_comm, List.map_eq_nil_iff] at h
    rw [h]
  | cons t ts =>
    obtain ⟨u, us, rfl, hfirst, hrest⟩ := List.map_eq_cons_iff.mp h.symm
    obtain ⟨hkind, htext⟩ := Prod.mk.inj hfirst
    have hoperand : ts.head?.any Token.endsOperand = us.head?.any Token.endsOperand := by
      cases ts with
      | nil =>
        rw [List.map_nil, List.map_eq_nil_iff] at hrest
        rw [hrest]
      | cons t ts =>
        obtain ⟨u, us, rfl, hsecond, -⟩ := List.map_eq_cons_iff.mp hrest
        obtain ⟨hkind, htext⟩ := Prod.mk.inj hsecond
        simp [Token.endsOperand, hkind, htext]
    simp only [regexAllowed, hkind, htext, hoperand]

/-- Line feeds in front of a token are white space. -/
theorem trivia_of_lineFeeds {feeds : List Char} (h : ∀ c ∈ feeds, c = '\n') : Trivia feeds := by
  induction feeds with
  | nil => exact .none
  | cons c feeds ih =>
    obtain rfl := h c List.mem_cons_self
    exact .blank (by decide) (ih fun d hd => h d (List.mem_cons_of_mem _ hd))

/-- Further line feeds in front keep a token apart from what stands before it. -/
theorem Token.Spaced.of_lineFeeds {feeds : List Char} (ht : t.Spaced) (hkind : u.kind = t.kind)
    (hleading : u.leading.toList = feeds ++ t.leading.toList) (hfeeds : ∀ c ∈ feeds, c = '\n') :
    u.Spaced := by
  unfold Token.Spaced at ht ⊢
  rw [hkind, hleading]
  split at ht
  · rename_i hfinish
    rw [if_pos hfinish, (trivia_of_lineFeeds hfeeds).triviaTail_append]
    exact ht
  · rename_i hfinish
    rw [if_neg hfinish]
    exact (trivia_of_lineFeeds hfeeds).append ht

/-- White space and comments may stand at the very start of a source. -/
theorem Token.Spaced.headSpaced (h : t.Spaced) : t.HeadSpaced := by
  unfold Token.Spaced at h
  unfold Token.HeadSpaced
  split at h
  · rename_i hfinish
    rw [if_pos hfinish, headTail_eq_triviaTail ?_, h]
    rintro ⟨rest, hrest⟩
    rw [← hrest] at h
    have hself : triviaTail ('#' :: '!' :: rest) = .ok ('#' :: '!' :: rest) :=
      triviaTail_eq_self_iff.mpr ⟨by decide, by simp⟩
    rw [List.cons_append, List.cons_append, List.nil_append, hself] at h
    cases h
  · rename_i hfinish
    rw [if_neg hfinish]
    exact .plain h

/-- What can be read again of marked tokens: each token but the last is well formed, and
white space and comments stand in front of each. -/
structure Readable (ms : List (Token × Bool)) (last : Token) : Prop where
  formed : ∀ m ∈ ms, m.1.Formed
  head : ∀ m ∈ (ms ++ [(last, true)]).head?, m.1.HeadSpaced
  tail : ∀ m ∈ (ms ++ [(last, true)]).tail, m.1.Spaced
  kind : last.kind = .finish
  text : last.text = ""

namespace Readable

variable {ms : List (Token × Bool)} {last : Token} {before : Nat}

/-- The written tokens end as the marked ones do, and the others are well formed. -/
theorem exists_written (h : Readable ms last) (pending : List Char) :
    ∃ front final, writtenFrom before pending (ms ++ [(last, true)]) = front ++ [final] ∧
      final.kind = .finish ∧ final.text = "" ∧ ∀ t ∈ front, t.Formed := by
  have hspelling : (writtenFrom before pending (ms ++ [(last, true)])).map Token.spelling =
      ((ms.filter Prod.snd).map Prod.fst).map Token.spelling ++ [last.spelling] := by
    rw [map_spelling_writtenFrom]
    simp
  obtain ⟨front, back, hwritten, hfront, hback⟩ := List.map_eq_append_iff.mp hspelling
  obtain ⟨final, rfl, hend⟩ := List.map_eq_singleton_iff.mp hback
  obtain ⟨hkind, htext⟩ := Prod.mk.inj hend
  refine ⟨front, final, hwritten, hkind.trans h.kind, htext.trans h.text, fun t ht => ?_⟩
  have hmem : t.spelling ∈ ((ms.filter Prod.snd).map Prod.fst).map Token.spelling := by
    rw [← hfront]
    exact List.mem_map_of_mem ht
  obtain ⟨u, hu, heq⟩ := List.mem_map.mp hmem
  obtain ⟨m, hm, rfl⟩ := List.mem_map.mp hu
  exact (Token.formed_congr heq).mp (h.formed m (List.mem_filter.mp hm).1)

/-- White space and comments stand in front of the written tokens. -/
theorem spaced_written (h : Readable ms last) :
    (∀ t ∈ (writtenFrom before [] (ms ++ [(last, true)])).head?, t.HeadSpaced) ∧
      ∀ t ∈ (writtenFrom before [] (ms ++ [(last, true)])).tail, t.Spaced := by
  have hspaced : ∀ (ms : List (Token × Bool)) (before : Nat) (pending : List Char),
      (∀ m ∈ ms, m.1.Spaced) → (∀ c ∈ pending, c = '\n') →
      ∀ t ∈ writtenFrom before pending ms, t.Spaced := by
    intro ms before pending hms hpending t ht
    obtain ⟨u, feeds, hmem, hfeeds, hspelling, hleading⟩ := exists_of_mem_writtenFrom ht hpending
    exact (hms _ hmem).of_lineFeeds (Prod.mk.inj hspelling).1 hleading hfeeds
  have hhead := h.head
  have htail := h.tail
  generalize ms ++ [(last, true)] = all at hhead htail
  cases all with
  | nil => simp [writtenFrom]
  | cons m all =>
    obtain ⟨t, kept⟩ := m
    cases kept with
    | true =>
      refine ⟨fun u hu => ?_, fun u hu => ?_⟩
      · have hfirst := hhead _ rfl
        simp only [writtenFrom, List.nil_append, List.head?_cons, Option.mem_def,
          Option.some.injEq] at hu
        subst hu
        simpa [Token.HeadSpaced] using hfirst
      · exact hspaced all _ _ htail (by simp) u hu
    | false =>
      have hfeeds : ∀ c ∈ lineFeeds t.leading.toList, c = '\n' := by
        intro c hc
        simpa [lineFeeds] using (List.mem_filter.mp hc).2
      have hrest := hspaced all before _ htail hfeeds
      rw [writtenFrom, List.nil_append]
      refine ⟨fun u hu => ?_, fun u hu => hrest u (List.mem_of_mem_tail hu)⟩
      exact (hrest u (List.mem_of_mem_head? hu)).headSpaced

end Readable

/-- The tokens of a source can be read again, the end of the source being kept. -/
theorem exists_readable {source : String} {table : TokenTable} {s : Erasure}
    (htable : tokenize source = .ok table) (hrun : Erasure.run table (.start table) 0 = .ok s) :
    ∃ ms last, table.marked s = ms ++ [(last, true)] ∧ Readable ms last := by
  obtain ⟨t, ts, htokens, h⟩ := readTokens_eq_iff.mp (tokenize_eq_ok_iff.mp htable).1
  obtain ⟨front, last, heq, hkind, htext, hfront, htail, -⟩ := readsOn_iff.mp h.reads
  have hsize : 0 < table.tokens.size := by
    rw [← Array.length_toList, htokens]
    exact Nat.succ_pos _
  have hlast : (table.marked s).getLast? = some (last, true) := by
    refine TokenTable.getLast?_marked ?_ (keeps_finish_of_run hsize hrun)
    rw [htokens, heq, List.getLast?_concat]
  obtain ⟨ms, hms⟩ := List.getLast?_eq_some_iff.mp hlast
  have hfst : (ms ++ [(last, true)]).map Prod.fst = t :: ts := by
    rw [← hms, TokenTable.map_fst_marked, htokens]
  have hinit : ms.map Prod.fst = front := by
    rw [heq, List.map_append] at hfst
    exact List.append_inj_left' hfst rfl
  refine ⟨ms, last, hms, ?_, ?_, ?_, hkind, htext⟩
  · intro m hm
    exact hfront _ (hinit ▸ List.mem_map_of_mem hm)
  · intro m hm
    have hfirst : m.1 = t := by
      have := congrArg List.head? hfst
      rw [List.head?_map, hm] at this
      simpa using this
    rw [hfirst]
    exact h.head
  · intro m hm
    have hrest := congrArg List.tail hfst
    rw [← List.map_tail] at hrest
    exact htail _ (hrest ▸ List.mem_map_of_mem hm)

/-- What is written out of a source is the text of the written tokens. -/
theorem charactersOf_written_of_run {source : String} {table : TokenTable} {s : Erasure}
    (htable : tokenize source = .ok table) (hrun : Erasure.run table (.start table) 0 = .ok s) :
    charactersOf (table.written s) = (table.emit s).toList := by
  obtain ⟨ms, last, hms, -⟩ := exists_readable htable hrun
  exact TokenTable.charactersOf_written (t := last) (by rw [hms, List.getLast?_concat])

/-- A script is accepted, with a table and marks that have the property, if a computation
says so. -/
theorem exists_run_of_bind (source : String) (p : TokenTable → Erasure → Bool)
    (h : ((tokenize source).bind fun table => (Erasure.run table (.start table) 0).bind fun s =>
      .ok (p table s)) = .ok true) :
    ∃ table s, tokenize source = .ok table ∧ Erasure.run table (.start table) 0 = .ok s ∧
      p table s = true := by
  obtain ⟨table, htable, h⟩ := exists_of_bind_eq_ok h
  obtain ⟨s, hrun, h⟩ := exists_of_bind_eq_ok h
  exact ⟨table, s, htable, hrun, Except.ok.inj h⟩

/-- What is needed for tokens to be read again: none is disturbed by its neighbours, no
line that is skipped comes to stand at the very start, and the brackets pair up. -/
structure Legible (ts : List Token) : Prop where
  /-- No token is lengthened, and no slash gets another meaning. -/
  undisturbed : Undisturbed [] ts
  /-- A line that begins with `#!` stands in front of the first token only. -/
  mark : ['#', '!'] <+: charactersOf ts → ∃ t ∈ ts.head?, ['#', '!'] <+: t.leading.toList
  /-- The brackets that are left nest. -/
  balanced : Balanced ts

/-- Written tokens are what is read of their text exactly if they are legible. -/
theorem Readable.exists_tokenize_iff {ms : List (Token × Bool)} {last : Token} {source : String}
    (h : Readable ms last)
    (hsource : charactersOf (writtenFrom 0 [] (ms ++ [(last, true)])) = source.toList) :
    (∃ table, tokenize source = .ok table ∧
        table.tokens.toList = writtenFrom 0 [] (ms ++ [(last, true)])) ↔
      Legible (writtenFrom 0 [] (ms ++ [(last, true)])) := by
  obtain ⟨front, final, hwritten, hkind, htext, hfront⟩ := h.exists_written []
  obtain ⟨hhead, htail⟩ := h.spaced_written
  have hplaced : Placed 0 (writtenFrom 0 [] (ms ++ [(last, true)])) := placed_writtenFrom
  rw [Workflow.Script.exists_tokenize_iff, readTokens_eq_iff]
  generalize writtenFrom 0 [] (ms ++ [(last, true)]) = ws at *
  constructor
  · rintro ⟨⟨t, ts, rfl, hof⟩, hbalanced⟩
    obtain ⟨-, -, -, -, -, -, -, hundisturbed⟩ := readsOn_iff.mp hof.reads
    exact ⟨hundisturbed, fun hmark => ⟨t, rfl, hof.mark (hsource ▸ hmark)⟩, hbalanced⟩
  · intro hlegible
    refine ⟨?_, hlegible.balanced⟩
    obtain ⟨t, ts, rfl⟩ := List.exists_cons_of_ne_nil (show ws ≠ [] by simp [hwritten])
    refine ⟨t, ts, rfl, hsource, hplaced, ?_, hhead t rfl, fun hmark => ?_⟩
    · exact readsOn_iff.mpr ⟨front, final, hwritten, hkind, htext, hfront, htail,
        hlegible.undisturbed⟩
    · obtain ⟨u, hu, hprefix⟩ := hlegible.mark (hsource ▸ hmark)
      rw [List.head?_cons, Option.mem_some_iff] at hu
      exact hu ▸ hprefix

/-- No slash comes to stand in front of a slash or a star. -/
def StartsNoComment (ts : List Token) : Prop :=
  ∀ front t behind, ts = front ++ t :: behind → t.text = "/" →
    ∀ c ∈ (charactersOf behind).head?, c ≠ '/' ∧ c ≠ '*'

theorem StartsNoComment.tail (h : StartsNoComment (t :: ts)) : StartsNoComment ts := by
  intro front u behind hts
  exact h (t :: front) u behind (by rw [hts, List.cons_append])

/-- The text of a well-formed token begins with no comment unless it is made one. -/
theorem Token.Formed.triviaTail_text {cs : List Char} (h : t.Formed)
    (hcomment : t.text = "/" → ∀ c ∈ cs.head?, c ≠ '/' ∧ c ≠ '*') :
    triviaTail (t.text.toList ++ cs) = .ok (t.text.toList ++ cs) := by
  obtain ⟨c, rest, _, htext, hself, -⟩ := h
  rw [htext, List.cons_append]
  refine (triviaTail_append_eq_self_iff hself).mpr fun hc hrest => hcomment ?_
  rw [← String.toList_inj, htext, hc, hrest]
  rfl

/-- A text begins with neither white space nor a comment if its tokens begin no comment and
are spelled like tokens that are read. -/
theorem ReadsOn.self_of_spelling (h : ReadsOn earlier (u :: us))
    (hspelling : (t :: ts).map Token.spelling = (u :: us).map Token.spelling)
    (hcomment : StartsNoComment (t :: ts)) :
    triviaTail (t.text.toList ++ charactersOf ts) = .ok (t.text.toList ++ charactersOf ts) ∧
      (t.kind = .finish → t.text.toList ++ charactersOf ts = []) := by
  rw [List.map_cons, List.map_cons] at hspelling
  obtain ⟨hfirst, hrest⟩ := List.cons.inj hspelling
  obtain ⟨hkind, htext⟩ := Prod.mk.inj hfirst
  cases h with
  | finish _ hnone =>
    rw [List.map_nil, List.map_eq_nil_iff] at hrest
    simp [hrest, htext, hnone, triviaTail]
  | token hformed =>
    refine ⟨((Token.formed_congr hfirst).mpr hformed).triviaTail_text (hcomment [] t ts rfl), ?_⟩
    exact fun hfinish => absurd (hkind.symm.trans hfinish) hformed.kind_ne_finish

/-- Tokens that begin no comment are not disturbed if those read of their text are spelled
in the same way. -/
theorem undisturbed_of_readsOn {earlier' : List Token} (h : ReadsOn earlier' us)
    (hearlier : earlier'.map Token.spelling = earlier.map Token.spelling)
    (hspelling : us.map Token.spelling = ts.map Token.spelling)
    (hcharacters : charactersOf us.tail = charactersOf ts.tail) (hspaced : ∀ t ∈ ts.tail, t.Spaced)
    (hcomment : StartsNoComment ts) : Undisturbed earlier ts := by
  induction h generalizing earlier ts with
  | @finish earlier' u hkind htext =>
    obtain ⟨t, rfl, hsame⟩ := List.map_eq_singleton_iff.mp hspelling.symm
    obtain ⟨hkind', htext'⟩ := Prod.mk.inj hsame
    rw [undisturbed_cons]
    exact ⟨⟨endsBefore_of_finish (hkind'.trans hkind) _,
      fitsBehind_of_text_eq (htext'.trans htext)⟩, undisturbed_nil⟩
  | @token earlier' u next us hformed hends hfits hnext hreads ih =>
    obtain ⟨t, rest, rfl, hfirst, hrest⟩ := List.map_eq_cons_iff.mp hspelling.symm
    obtain ⟨second, ts, rfl, hsecond, hothers⟩ := List.map_eq_cons_iff.mp hrest
    rw [List.tail_cons, List.tail_cons] at hcharacters
    rw [List.tail_cons] at hspaced
    obtain ⟨hkind, htext⟩ := Prod.mk.inj hfirst
    have htext' : second.text = next.text := (Prod.mk.inj hsecond).2
    refine undisturbed_cons.mpr ⟨⟨?_, ?_⟩, ih ?_ hrest.symm ?_ ?_ hcomment.tail⟩
    · rw [← hcharacters]
      exact (Token.endsBefore_congr hfirst _).mpr hends
    · intro hslash
      rw [htext] at hslash
      rw [← regexAllowed_congr hearlier, hkind]
      exact hfits hslash
    · rw [List.map_cons, List.map_cons, hfirst, hearlier]
    · obtain ⟨hself, hfinish⟩ := hreads.self_of_spelling hrest hcomment.tail
      have hfront := hreads.triviaTail_characters hnext
      have hskip := (hspaced second List.mem_cons_self).triviaTail_eq hself hfinish
      rw [hcharacters, charactersOf_cons, hskip, htext'] at hfront
      exact (List.append_cancel_left (Except.ok.inj hfront)).symm
    · exact fun v hv => hspaced v (List.mem_of_mem_tail hv)

theorem Token.opens?_congr (h : t.spelling = u.spelling) : t.opens? = u.opens? := by
  obtain ⟨hkind, htext⟩ := Prod.mk.inj h
  simp [Token.opens?, Token.is, hkind, htext]

theorem Token.closes?_congr (h : t.spelling = u.spelling) : t.closes? = u.closes? := by
  obtain ⟨hkind, htext⟩ := Prod.mk.inj h
  simp [Token.closes?, Token.is, hkind, htext]

/-- Whether brackets pair up depends on how the tokens are spelled. -/
theorem Balanced.of_spelling (h : Balanced us)
    (hspelling : us.map Token.spelling = ts.map Token.spelling) :
    Balanced ts := by
  induction h generalizing ts with
  | nil =>
    rw [List.map_nil, eq_comm, List.map_eq_nil_iff] at hspelling
    rw [hspelling]
    exact .nil
  | other hopen hclose _ ih =>
    obtain ⟨t, rest, rfl, hfirst, hrest⟩ := List.map_eq_cons_iff.mp hspelling.symm
    exact .other ((Token.opens?_congr hfirst).trans hopen)
      ((Token.closes?_congr hfirst).trans hclose) (ih hrest.symm)
  | group hopen hclose _ _ ihInner ih =>
    rw [List.map_cons, List.map_append, List.map_cons] at hspelling
    obtain ⟨t, rest, rfl, hfirst, hrest⟩ := List.map_eq_cons_iff.mp hspelling.symm
    obtain ⟨inner, back, rfl, hinner, hback⟩ := List.map_eq_append_iff.mp hrest
    obtain ⟨t', behind, rfl, hlast, hbehind⟩ := List.map_eq_cons_iff.mp hback
    exact .group ((Token.opens?_congr hfirst).trans hopen)
      ((Token.closes?_congr hlast).trans hclose) (ihInner hinner.symm)
      (ih hbehind.symm)

/-- Written tokens that begin no comment are legible if what is read of their text is spelled
like them. -/
theorem Readable.legible_of_spelling {ms : List (Token × Bool)} {last : Token} {source : String}
    {table : TokenTable} (h : Readable ms last)
    (hsource : charactersOf (writtenFrom 0 [] (ms ++ [(last, true)])) = source.toList)
    (htable : tokenize source = .ok table)
    (hspelling : table.tokens.toList.map Token.spelling =
      (writtenFrom 0 [] (ms ++ [(last, true)])).map Token.spelling)
    (hcomment : StartsNoComment (writtenFrom 0 [] (ms ++ [(last, true)])))
    (hmark : ['#', '!'] <+: source.toList →
      ∃ t ∈ (writtenFrom 0 [] (ms ++ [(last, true)])).head?, ['#', '!'] <+: t.leading.toList) :
    Legible (writtenFrom 0 [] (ms ++ [(last, true)])) := by
  obtain ⟨hhead, htail⟩ := h.spaced_written
  obtain ⟨hread, hbalanced⟩ := Workflow.Script.exists_tokenize_iff.mp ⟨table, htable, rfl⟩
  obtain ⟨u, us, htokens, hof⟩ := readTokens_eq_iff.mp hread
  rw [htokens] at hspelling hbalanced
  generalize writtenFrom 0 [] (ms ++ [(last, true)]) = ws at *
  obtain ⟨t, ts, rfl, hfirst, hrest⟩ := List.map_eq_cons_iff.mp hspelling.symm
  refine ⟨?_, fun hprefix => hmark (hsource ▸ hprefix), hbalanced.of_spelling hspelling⟩
  refine undisturbed_of_readsOn hof.reads rfl hspelling ?_ htail hcomment
  obtain ⟨hself, hfinish⟩ := hof.reads.self_of_spelling hspelling.symm hcomment
  have hmark' : ['#', '!'] <+: t.leading.toList ++ (t.text.toList ++ charactersOf ts) →
      ['#', '!'] <+: t.leading.toList := by
    intro hprefix
    rw [← charactersOf_cons, hsource] at hprefix
    obtain ⟨v, hv, hleading⟩ := hmark hprefix
    rw [List.head?_cons, Option.mem_some_iff] at hv
    exact hv ▸ hleading
  have hskip := (hhead t rfl).headTail_eq hmark' hself hfinish
  have hfront := hof.headTail_eq
  have htext : t.text = u.text := (Prod.mk.inj hfirst).2
  rw [← hsource, charactersOf_cons, hskip, htext] at hfront
  exact (List.append_cancel_left (Except.ok.inj hfront)).symm

/-- A script that is accepted is written out as its kept tokens, the last of which is the
end of the source. What is written out is read as these tokens exactly if they are
legible; and unless a comment or a line that is skipped arises, it is read as tokens that
are spelled like them exactly then. -/
theorem tokenize_emit_iff {source : String} {table : TokenTable} {s : Erasure}
    (htable : tokenize source = .ok table) (hrun : Erasure.run table (.start table) 0 = .ok s) :
    eraseTypes source = .ok (table.emit s) ∧
      (table.written s).map Token.spelling = (table.keptTokens s).map Token.spelling ∧
      (∃ last ∈ (table.keptTokens s).getLast?, last.kind = .finish) ∧
      ((∃ table', tokenize (table.emit s) = .ok table' ∧ table'.tokens.toList = table.written s) ↔
        Legible (table.written s)) ∧
      (StartsNoComment (table.written s) →
        (['#', '!'] <+: (table.emit s).toList →
          ∃ t ∈ (table.written s).head?, ['#', '!'] <+: t.leading.toList) →
        ((∃ table', tokenize (table.emit s) = .ok table' ∧
            table'.tokens.toList.map Token.spelling =
              (table.keptTokens s).map Token.spelling) ↔
          Legible (table.written s))) := by
  obtain ⟨ms, last, hms, hreadable⟩ := exists_readable htable hrun
  have hsource := charactersOf_written_of_run htable hrun
  have hwritten : table.written s = writtenFrom 0 [] (ms ++ [(last, true)]) := by
    rw [TokenTable.written, hms]
  have hiff := hreadable.exists_tokenize_iff (hwritten ▸ hsource)
  rw [← hwritten] at hiff
  refine ⟨?_, TokenTable.map_spelling_written, ?_, hiff, fun hcomment hmark => ⟨?_, fun h => ?_⟩⟩
  · simp only [eraseTypes, htable, hrun]
  · refine ⟨last, ?_, hreadable.kind⟩
    simp [TokenTable.keptTokens, hms]
  · rintro ⟨table', htable', hspelling⟩
    rw [← TokenTable.map_spelling_written, hwritten] at hspelling
    rw [hwritten] at hcomment hmark ⊢
    exact hreadable.legible_of_spelling (hwritten ▸ hsource) htable' hspelling hcomment hmark
  · obtain ⟨table', htable', htokens⟩ := hiff.mpr h
    exact ⟨table', htable', by rw [htokens, TokenTable.map_spelling_written]⟩

/-- What is written out of `const s = <string>value;` is legible. -/
theorem legible_assertion : ∃ table s, tokenize "const s = <string>value;" = .ok table ∧
    Erasure.run table (.start table) 0 = .ok s ∧ Legible (table.written s) := by
  obtain ⟨table, s, htable, hrun, hread⟩ :=
    exists_run_of_bind "const s = <string>value;" (fun table s =>
      (tokenize (table.emit s)).toOption.any fun table' =>
        table'.tokens.toList == table.written s) (by decide +kernel)
  refine ⟨table, s, htable, hrun, (tokenize_emit_iff htable hrun).2.2.2.1.mp ?_⟩
  cases htable' : tokenize (table.emit s) with
  | error fault => simp [htable', Except.toOption] at hread
  | ok table' => exact ⟨table', rfl, by simpa [htable', Except.toOption] using hread⟩

/-- The word `return` and the operand behind it are read as one word once the assertion
between them is removed. -/
theorem exists_merged_tokens : ∃ table s table',
    tokenize "function f(x: any) \x7b return <string>x; \x7d" = .ok table ∧
      Erasure.run table (.start table) 0 = .ok s ∧
      eraseTypes "function f(x: any) \x7b return <string>x; \x7d" =
        .ok "function f(x) \x7b returnx; \x7d" ∧
      tokenize "function f(x) \x7b returnx; \x7d" = .ok table' ∧
      table'.tokens.toList.map Token.spelling ≠ (table.keptTokens s).map Token.spelling := by
  obtain ⟨table, s, htable, hrun, hread⟩ :=
    exists_run_of_bind "function f(x: any) \x7b return <string>x; \x7d"
      (fun table s => (tokenize "function f(x) \x7b returnx; \x7d").toOption.any fun table' =>
        table'.tokens.toList.map Token.spelling != (table.keptTokens s).map Token.spelling)
      (by decide +kernel)
  cases htable' : tokenize "function f(x) \x7b returnx; \x7d" with
  | error fault => simp [htable', Except.toOption] at hread
  | ok table' =>
    exact ⟨table, s, table', htable, hrun, by decide +kernel, rfl,
      by simpa [htable', Except.toOption] using hread⟩

end Workflow.Script
