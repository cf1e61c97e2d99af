import Workflow.Proofs.Script.Phrase
import Workflow.Proofs.Script.Stage

/-!
# Texts of which parts are removed

A text with types is read as tokens of which some are kept, and what is written of them is the
text without its types. Such texts are put together like other texts.
-/

namespace Workflow.Script

open Erasure

/-- What is written of marked tokens. -/
def emitted (ms : List (Token × Bool)) : List Char := ms.flatMap fun m => (m.1.emit m.2).toList

variable {text erased front frontErased back backErased : String} {stops stops' : Char → Prop}
  {P Q R : List (Token × Bool) → Prop} {S : List Token → Prop} {ts : List Token}

/-- What is written of two parts is written one behind the other. -/
@[simp] theorem emitted_append (ms ns : List (Token × Bool)) :
    emitted (ms ++ ns) = emitted ms ++ emitted ns := List.flatMap_append

/-- Tokens that are kept are written with all of their characters. -/
theorem emitted_allKept : emitted (allKept ts) = charactersOf ts := by
  induction ts with
  | nil => rfl
  | cons t ts ih =>
    rw [show emitted (allKept (t :: ts)) = (t.emit true).toList ++ emitted (allKept ts) from rfl,
      ih, toList_emit_kept]
    rfl

/-- Nothing is written in place of a removed token on the line of the one before it. -/
theorem emitted_allRemoved (h : ∀ t ∈ ts, t.startsLine = false) : emitted (allRemoved ts) = [] := by
  refine List.flatMap_eq_nil_iff.mpr fun m hm => ?_
  obtain ⟨t, ht, rfl⟩ := List.mem_map.mp hm
  rw [toList_emit_removed, lineFeeds, List.filter_eq_nil_iff]
  rintro c hc heq
  rw [beq_iff_eq] at heq
  have hline := h t ht
  rw [Token.startsLine, Bool.eq_false_iff, Ne, List.contains_iff_mem] at hline
  exact hline (heq ▸ hc)

/-- Wherever a text stands, it is read as marked tokens of the given sort, and what is kept of
them is written as the other text. -/
def Erases (text erased : String) (stops : Char → Prop) (P : List (Token × Bool) → Prop) : Prop :=
  ∀ start, ∃ ms, Lexed start text stops (ms.map Prod.fst) ∧ emitted ms = erased.toList ∧ P ms

/-- A text whose tokens are all kept is erased to itself. -/
theorem Lexes.keep (h : Lexes text stops S) :
    Erases text text stops fun ms => ∃ ts, ms = allKept ts ∧ S ts := by
  intro start
  obtain ⟨ts, hts, -, hS⟩ := h start
  refine ⟨allKept ts, by rwa [map_fst_allKept], ?_, ts, rfl, hS⟩
  rw [emitted_allKept, hts.characters]

/-- A text whose tokens are all removed is erased to nothing. -/
theorem Lexes.remove (h : Lexes text stops S) :
    Erases text "" stops fun ms => ∃ ts, ms = allRemoved ts ∧ S ts := by
  intro start
  obtain ⟨ts, hts, hline, hS⟩ := h start
  exact ⟨allRemoved ts, by rwa [map_fst_allRemoved], emitted_allRemoved hline, ts, rfl, hS⟩

/-- Texts that are erased may stand one behind the other, if the first stops at the second. -/
theorem Erases.join (h : Erases front frontErased stops P) (h' : Erases back backErased stops' Q)
    (hjoin : ∀ c ∈ back.toList.head?, stops c) (hR : ∀ ms ns, P ms → Q ns → R (ms ++ ns)) :
    Erases (front ++ back) (frontErased ++ backErased) stops' R := by
  intro start
  obtain ⟨ms, hms, hwritten, hP⟩ := h start
  obtain ⟨ns, hns, hwritten', hQ⟩ := h' (start + front.toList.length)
  refine ⟨ms ++ ns, ?_, ?_, hR ms ns hP hQ⟩
  · rw [List.map_append]
    exact hms.append hns hjoin
  · rw [emitted_append, hwritten, hwritten', String.toList_append]

theorem Erases.append (h : Erases front frontErased stops P) (h' : Erases back backErased stops' Q)
    (hjoin : ∀ c ∈ back.toList.head?, stops c) :
    Erases (front ++ back) (frontErased ++ backErased) stops'
      fun ms => ∃ us vs, ms = us ++ vs ∧ P us ∧ Q vs :=
  h.join h' hjoin fun us vs hus hvs => ⟨us, vs, rfl, hus, hvs⟩

/-- Of the marks of a text less may be known. -/
theorem Erases.mono (h : Erases text erased stops P) (hstops : ∀ c, stops' c → stops c)
    (hP : ∀ ms, P ms → Q ms) : Erases text erased stops' Q := by
  intro start
  obtain ⟨ms, hms, hwritten, hp⟩ := h start
  exact ⟨ms, hms.stops_mono hstops, hwritten, hP ms hp⟩

/-- A text that may be missing, and is read as marked tokens if it is there. -/
def ErasesPart (text erased : String) (P : List (Token × Bool) → Prop) : Prop :=
  (text = "" ∧ erased = "" ∧ P []) ∨
    ((∀ c ∈ text.toList.head?, Delimits c) ∧ Erases text erased Delimits P)

/-- A part that is not there is erased to nothing. -/
theorem ErasesPart.absent (h : P []) : ErasesPart "" "" P := .inl ⟨rfl, rfl, h⟩

/-- A text that is erased is a part. -/
theorem Erases.part (h : Erases text erased stops P) (hstops : ∀ c, Delimits c → stops c)
    (hhead : ∀ c ∈ text.toList.head?, Delimits c) : ErasesPart text erased P :=
  .inr ⟨hhead, h.mono hstops fun _ => id⟩

/-- A part may stand behind a text that stops at delimiters. -/
theorem Erases.joinPart (h : Erases front frontErased Delimits P)
    (h' : ErasesPart back backErased Q) (hR : ∀ ms ns, P ms → Q ns → R (ms ++ ns)) :
    Erases (front ++ back) (frontErased ++ backErased) Delimits R := by
  rcases h' with ⟨rfl, rfl, hnil⟩ | ⟨hhead, h'⟩
  · rw [String.append_empty, String.append_empty]
    exact h.mono (fun _ => id) fun ms hms => by simpa using hR ms [] hms hnil
  · exact h.join h' hhead hR

/-- The tokens of a text hold all of its characters. -/
theorem Erases.withCharacters (h : Erases text erased stops P) : Erases text erased stops
    fun ms => P ms ∧ charactersOf (ms.map Prod.fst) = text.toList := by
  intro start
  obtain ⟨ms, hms, hwritten, hP⟩ := h start
  exact ⟨ms, hms, hwritten, hP, hms.characters⟩

/-- With and without a space in front, a text is read as marked tokens. -/
def ErasesPhrase (text erased : String) (stops : Char → Prop)
    (P : List (Token × Bool) → Prop) : Prop :=
  ∀ lead, lead = "" ∨ lead = " " → Erases (lead ++ text) (lead ++ erased) stops P

theorem ErasesPhrase.plain (h : ErasesPhrase text erased stops P) : Erases text erased stops P := by
  simpa using h "" (.inl rfl)

/-- A phrase is erased behind a blank, which is kept. -/
theorem ErasesPhrase.spaced (h : ErasesPhrase text erased stops P) :
    Erases (" " ++ text) (" " ++ erased) stops P := h " " (.inr rfl)

/-- A phrase that is erased may be followed by a text that it stops at. -/
theorem ErasesPhrase.join (h : ErasesPhrase front frontErased stops P)
    (h' : Erases back backErased stops' Q) (hjoin : ∀ c ∈ back.toList.head?, stops c)
    (hR : ∀ ms ns, P ms → Q ns → R (ms ++ ns)) :
    ErasesPhrase (front ++ back) (frontErased ++ backErased) stops' R := by
  intro lead hlead
  rw [← String.append_assoc, ← String.append_assoc]
  exact (h lead hlead).join h' hjoin hR

/-- A phrase whose tokens are all kept is erased to itself. -/
theorem Phrase.keep (h : Phrase text stops S) :
    ErasesPhrase text text stops fun ms => ∃ ts, ms = allKept ts ∧ S ts :=
  fun lead hlead => (h lead hlead).keep

/-- Marked tokens of the given sort with a mark behind them that closes a list. -/
def IsMarkedClosed (Q : List (Token × Bool) → Prop) (close : String) (ms : List (Token × Bool)) :
    Prop :=
  ∃ inner last, ms = inner ++ [(last, true)] ∧ Q inner ∧ last.IsMark close

section

variable {α : Type} {source written : α → String}

/-- The bracket that closes a list is kept. -/
theorem erases_close (close : String) (hclose : close ∈ closers) (hQ : Q []) :
    Erases close close (fun _ => True) (IsMarkedClosed Q close) := by
  intro start
  obtain ⟨ms, hms, hwritten, _, rfl, t, rfl, ht, -⟩ := (phrase_close close hclose).plain.keep start
  exact ⟨_, hms, hwritten, [], t, rfl, hQ, ht⟩

/-- The rest of a list up to the mark that closes it. -/
theorem erases_following (items : List α) (close : String) (hclose : close ∈ closers)
    (hitems : ∀ x ∈ items, ErasesPhrase (source x) (written x) Delimits P) (hnil : Q [])
    (hcons : ∀ t ms ns, t.IsMark "," → P ms → Q ns → Q ((t, true) :: (ms ++ ns))) :
    Erases (following ", " (items.map source) ++ close)
      (following ", " (items.map written) ++ close)
      (fun _ => True) (IsMarkedClosed Q close) := by
  induction items with
  | nil => simpa [following] using erases_close close hclose hnil
  | cons x items ih =>
    have hrest := ih fun y hy => hitems y (List.mem_cons_of_mem _ hy)
    have hitem := (hitems x List.mem_cons_self).spaced
    have hcomma := (phrase_bracket "," (by decide)).plain.keep
    have hsplit : ∀ (f : α → String), following ", " ((x :: items).map f) ++ close =
        "," ++ (" " ++ f x ++ (following ", " (items.map f) ++ close)) := by
      intro f
      rw [List.map_cons, following, show ", " = "," ++ " " from rfl]
      simp only [String.append_assoc]
    rw [hsplit, hsplit]
    have hbehind : Erases (" " ++ source x ++ (following ", " (items.map source) ++ close))
        (" " ++ written x ++ (following ", " (items.map written) ++ close)) (fun _ => True)
        fun ms => ∃ us vs, ms = us ++ vs ∧ P us ∧ IsMarkedClosed Q close vs :=
      hitem.append hrest (delimits_following "," close (by decide) hclose)
    refine hcomma.join hbehind (by simp) ?_
    rintro _ _ ⟨_, rfl, t, rfl, ht, -⟩ ⟨us, _, rfl, hus, inner, last, rfl, hinner, hlast⟩
    exact ⟨(t, true) :: (us ++ inner), last, by simp [allKept], hcons t us inner ht hus hinner,
      hlast⟩

end

/-- A run starts where nothing is done. -/
theorem fits_start {table : TokenTable} :
    (Erasure.start table).Fits table ⟨[], table.tokens.toList, .fresh .top, []⟩ :=
  ⟨At.start, rfl, rfl, fun _ hbody => absurd hbody List.not_mem_nil⟩

/-- What is read of a source whose brackets pair up has a table. -/
theorem exists_tokenize_of_read {source : String} {last : Token}
    (hread : readTokens source = ⟨ts ++ [last], none⟩) (hkind : last.kind = .finish)
    (hbalanced : Balanced ts) :
    ∃ table, tokenize source = .ok table ∧ table.tokens.toList = ts ++ [last] := by
  refine exists_tokenize_iff.mpr ⟨hread, hbalanced.append (.other ?_ ?_ .nil)⟩
  · simp [Token.opens?, Token.is, hkind]
  · simp [Token.closes?, Token.is, hkind]

/-- What a run leaves of a source is told by its marks. -/
theorem exists_run_of_read {source : String} {ms : List (Token × Bool)} {last : Token}
    (hread : readTokens source = ⟨ms.map Prod.fst ++ [last], none⟩) (hkind : last.kind = .finish)
    (hbalanced : Balanced (ms.map Prod.fst))
    (hleads : ∀ table : TokenTable, tokenize source = .ok table → ∃ frame outer,
      Leads table ⟨[], ms.map Prod.fst ++ [last], .fresh .top, []⟩
        ⟨ms.reverse, [last], frame, outer⟩) :
    ∃ table s, tokenize source = .ok table ∧ Erasure.run table (.start table) 0 = .ok s ∧
      table.marked s = ms ++ [(last, true)] ∧
      (table.emit s).toList = emitted ms ++ (last.emit true).toList := by
  obtain ⟨table, htable, htokens⟩ := exists_tokenize_of_read hread hkind hbalanced
  obtain ⟨frame, outer, hrun⟩ := hleads table htable
  obtain ⟨s, hs, hrun⟩ := hrun _ (htokens ▸ fits_start)
  have hmarked : table.marked s = ms ++ [(last, true)] := by simpa [At] using hs.marks
  refine ⟨table, s, htable, hrun.trans hs.marks.run_eq, hmarked, ?_⟩
  rw [TokenTable.toList_emit, hmarked, List.flatMap_append]
  simp [emitted]

/-- A source of marked tokens is read as these, with white space and comments at its end. -/
theorem Erases.exists_read_append {source : String} (h : Erases source erased stops P)
    (tail : String) (hmark : ¬ ['#', '!'] <+: (source ++ tail).toList)
    (hend : triviaTail tail.toList = .ok []) (hstops : ∀ c ∈ tail.toList.head?, stops c) :
    ∃ ms last, readTokens (source ++ tail) = ⟨ms.map Prod.fst ++ [last], none⟩ ∧ P ms ∧
      emitted ms = erased.toList ∧ last.kind = .finish ∧ (last.emit true).toList = tail.toList := by
  obtain ⟨ms, hlexed, hwritten, hms⟩ := h 0
  exact ⟨ms, _, hlexed.readTokens_append hmark hend hstops, hms, hwritten, rfl,
    by simp [Token.emit]⟩

/-- A source is erased to the other text if a run marks its tokens in the given way. White space
and comments at its end are kept. -/
theorem Erases.exists_run_append {source : String} (h : Erases source erased stops P)
    (tail : String) (hmark : ¬ ['#', '!'] <+: (source ++ tail).toList)
    (hend : triviaTail tail.toList = .ok [])
    (hstops : ∀ c ∈ tail.toList.head?, stops c)
    (hbalanced : ∀ ms, P ms → Balanced (ms.map Prod.fst))
    (hleads : ∀ (table : TokenTable) (ms : List (Token × Bool)) (last : Token),
      tokenize (source ++ tail) = .ok table → P ms → last.kind = .finish → ∃ frame outer,
        Leads table ⟨[], ms.map Prod.fst ++ [last], .fresh .top, []⟩
          ⟨ms.reverse, [last], frame, outer⟩) :
    ∃ table s ms last, tokenize (source ++ tail) = .ok table ∧
      Erasure.run table (.start table) 0 = .ok s ∧ P ms ∧ last.kind = .finish ∧
      table.marked s = ms ++ [(last, true)] ∧ table.emit s = erased ++ tail := by
  obtain ⟨ms, last, hread, hms, hwritten, hkind, htail⟩ :=
    h.exists_read_append tail hmark hend hstops
  obtain ⟨table, s, htable, hrun, hmarked, hemit⟩ := exists_run_of_read hread hkind
    (hbalanced ms hms) fun table htable => hleads table ms last htable hms hkind
  refine ⟨table, s, ms, last, htable, hrun, hms, hkind, hmarked, ?_⟩
  rw [← String.toList_inj, hemit, hwritten, htail, String.toList_append]

/-- A source that ends with a token is erased to the other text if a run marks its tokens in the
given way. -/
theorem Erases.exists_run {source : String} (h : Erases source erased stops P)
    (hmark : ¬ ['#', '!'] <+: source.toList)
    (hbalanced : ∀ ms, P ms → Balanced (ms.map Prod.fst))
    (hleads : ∀ (table : TokenTable) (ms : List (Token × Bool)) (last : Token),
      tokenize source = .ok table → P ms → last.kind = .finish → ∃ frame outer,
        Leads table ⟨[], ms.map Prod.fst ++ [last], .fresh .top, []⟩
          ⟨ms.reverse, [last], frame, outer⟩) :
    ∃ table s ms last, tokenize source = .ok table ∧
      Erasure.run table (.start table) 0 = .ok s ∧ P ms ∧ last.kind = .finish ∧
      table.marked s = ms ++ [(last, true)] ∧ table.emit s = erased := by
  have hsource : source ++ "" = source := String.append_empty
  have hrun := h.exists_run_append "" (by rwa [hsource]) (by simp [triviaTail]) (by simp)
    hbalanced (by rwa [hsource])
  simpa only [String.append_empty] using hrun

end Workflow.Script
