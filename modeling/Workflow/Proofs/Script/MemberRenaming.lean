import Workflow.Proofs.Script.InterchangeRun
import Workflow.Proofs.Script.MarkedText
import Workflow.Proofs.Script.MemberReading
import Workflow.Proofs.Script.Pairs

/-!
# Replacing the name of a member

Which member a script reads is no matter of types. If the name behind a point is replaced by one
that stands in the same lists of words, the script is read as before and erased as before: what is
written out has the new name in place of the old one, or neither if the name was part of a type.
Names that the lists tell apart are not treated alike. What stands behind a conditional call of
`catch` is removed, because round brackets behind this word are taken for those of a handler.
-/

namespace Workflow.Script

variable {source out text : String} {table : TokenTable} {t u point name : Token}
  {before behind : List Token} {ms ns : List (Token × Bool)}

theorem Token.outline_of_content (h : t.content = u.content) : t.outline = u.outline := by
  simp only [content, Prod.mk.injEq] at h
  rw [outline, outline, h.1, h.2.1]

theorem emit_of_content (h : t.content = u.content) (kept : Bool) :
    t.emit kept = u.emit kept := by
  simp only [Token.content, Prod.mk.injEq] at h
  rw [Token.emit, Token.emit, h.2.1, h.2.2]

/-- What is written of marked tokens depends on what they are and which are kept. -/
theorem emitted_congr
    (hcontent : (ms.map Prod.fst).map Token.content = (ns.map Prod.fst).map Token.content)
    (hkept : ms.map Prod.snd = ns.map Prod.snd) : emitted ms = emitted ns := by
  induction ms generalizing ns with
  | nil =>
    rw [List.map_nil, eq_comm, List.map_eq_nil_iff] at hkept
    rw [hkept]
  | cons m ms ih =>
    obtain ⟨n, ns, rfl, hfirst, hrest⟩ := List.map_eq_cons_iff.mp hkept.symm
    simp only [List.map_cons, List.cons.injEq] at hcontent
    have htail := ih hcontent.2 hrest.symm
    simp only [emitted, List.flatMap_cons] at htail ⊢
    rw [htail, ← hfirst, emit_of_content hcontent.1]

/-- Something is read behind every token but the end of the source. -/
theorem ne_nil_of_read (h : readTokens source = ⟨before ++ point :: t :: behind, none⟩)
    (hkind : t.kind ≠ .finish) : behind ≠ [] := by
  rintro rfl
  obtain ⟨u, us, hall, hof⟩ := readTokens_eq_iff.mp h
  obtain ⟨front, last, hlist, hlast, -⟩ := readsOn_iff.mp hof.reads
  rw [← hall, List.append_cons] at hlist
  obtain rfl := List.singleton_inj.mp (List.append_inj' hlist rfl).2
  exact hkind hlast

theorem TokenTable.map_snd_marked (table : TokenTable) (s : Erasure) :
    (table.marked s).map Prod.snd = (List.range table.tokens.size).map s.keeps := by
  refine List.ext_getElem (by simp [marked]) fun i hi hi' => ?_
  simp [marked]

theorem TokenTable.text_eq_getD (table : TokenTable) (k : Nat) :
    table.text k = ((table.tokens.toList.map Token.text)[k]?).getD "" := by
  simp [TokenTable.text]

/-- The source with an interchangeable name has a table that differs in this name only. -/
theorem exists_renamed (htable : tokenize source = .ok table)
    (htokens : table.tokens.toList = before ++ point :: name :: behind)
    (hpoint : point.kind = .punctuator ∧ point.text ∈ [".", "?."]) (hname : name.kind = .word)
    (hidentifier : IsIdentifier text) (hinterchangeable : Interchangeable name.text text) :
    ∃ table', tokenize (String.ofList
        (charactersOf (before ++ point :: { name with text } :: behind))) = .ok table' ∧
      table'.tokens.toList.map Token.content =
        (before ++ point :: { name with text } :: behind).map Token.content ∧
      table.Renamed table' before.length := by
  obtain ⟨table', htable', hcontent, hpartner⟩ :=
    exists_tokenize_replace htable htokens hpoint hname hidentifier (hinterchangeable _ (by decide))
  have hread := (tokenize_eq_ok_iff.mp htable).1
  have htokenAt : table.tokens[before.length]? = some point := by
    rw [← Array.getElem?_toList, htokens]
    simp
  have hnameAt : table.tokens[before.length + 1]? = some name := by
    rw [← Array.getElem?_toList, htokens]
    simp
  have htexts : table'.tokens.toList.map Token.text =
      (table.tokens.toList.map Token.text).set (before.length + 1) text := by
    have htext : ∀ t u : Token, t.content = u.content → t.text = u.text := fun _ _ h =>
      (Prod.mk.inj (Token.spelling_of_content h)).2
    rw [map_of_content htext hcontent, htokens]
    simp
  have htextName : table.text (before.length + 1) = name.text := by simp [TokenTable.text, hnameAt]
  have htextName' : table'.text (before.length + 1) = text := by
    rw [TokenTable.text_eq_getD, htexts, List.getElem?_set_self (by simp [htokens])]
    rfl
  have hbehind := List.length_pos_iff.mpr (ne_nil_of_read (htokens ▸ hread) (by simp [hname]))
  have hmark : table.text before.length = point.text := by simp [TokenTable.text, htokenAt]
  have hsize : table.tokens.size = before.length + (behind.length + 1 + 1) := by
    rw [← Array.length_toList, htokens, List.length_append, List.length_cons, List.length_cons]
  refine ⟨table', htable', hcontent, ?_⟩
  exact {
    outline := by
      rw [map_of_content (fun _ _ => Token.outline_of_content) hcontent, htokens]
      simp [Token.outline]
    partner := hpartner
    text := fun k hk => by
      rw [TokenTable.text_eq_getD, TokenTable.text_eq_getD, htexts,
        List.getElem?_set_ne (Ne.symm hk)]
    point := ⟨by simp [TokenTable.kind, htokenAt, hpoint.1], hmark ▸ hpoint.2⟩
    name := by simpa [TokenTable.kind, hnameAt] using hname
    starts := by
      rw [htextName, htextName']
      exact ⟨startsName_of_read hread (by simp [htokens]) hname, hidentifier.startsName⟩
    interchangeable := by rwa [htextName, htextName']
    unpaired := fun k hk => by
      have hbracket := (bracket_of_partner htable (partner_symm htable hk)).2.1
      have hnone : ∀ mark ∈ [".", "?."], mark ∉ bracketMarks := by decide
      exact hnone _ hpoint.2 (hmark ▸ hbracket)
    inside := by
      rw [TokenTable.finish]
      omega }

/-- Where an accepted script has an interchangeable name behind a point, it is accepted, too, and
the same tokens of it are kept: the new name takes the place of the old one in what is written out
if this one is kept there. -/
theorem eraseTypes_rename (htable : tokenize source = .ok table)
    (htokens : table.tokens.toList = before ++ point :: name :: behind)
    (hpoint : point.kind = .punctuator ∧ point.text ∈ [".", "?."]) (hname : name.kind = .word)
    (hidentifier : IsIdentifier text) (hinterchangeable : Interchangeable name.text text)
    (hout : eraseTypes source = .ok out) :
    source.toList = charactersOf (before ++ point :: name :: behind) ∧
    ∃ ms ns kept, ms.map Prod.fst = before ++ [point] ∧ ns.map Prod.fst = behind ∧
      out.toList = emitted (ms ++ (name, kept) :: ns) ∧
      eraseTypes (String.ofList
          (charactersOf (before ++ point :: { name with text } :: behind))) =
        .ok (String.ofList (emitted (ms ++ ({ name with text }, kept) :: ns))) := by
  obtain ⟨table', htable', hcontent, hrenamed⟩ :=
    exists_renamed htable htokens hpoint hname hidentifier hinterchangeable
  obtain ⟨s, hrun, rfl⟩ : ∃ s, Erasure.run table (.start table) 0 = .ok s ∧ table.emit s = out := by
    simp only [eraseTypes, htable] at hout
    split at hout
    · cases hout
    · rename_i s hrun
      exact ⟨s, hrun, Except.ok.inj hout⟩
  have hmarked : (table.marked s).map Prod.fst = before ++ [point] ++ name :: behind := by
    rw [TokenTable.map_fst_marked, htokens, List.append_cons]
  obtain ⟨ms, rest, hsplit, hms, hrest⟩ := List.map_eq_append_iff.mp hmarked
  obtain ⟨⟨name', kept⟩, ns, rfl, hfirst, hns⟩ := List.map_eq_cons_iff.mp hrest
  obtain rfl : name = name' := hfirst.symm
  have hsource : charactersOf table.tokens.toList = source.toList := by
    obtain ⟨t, ts, hall, hof⟩ := readTokens_eq_iff.mp (tokenize_eq_ok_iff.mp htable).1
    rw [hall]
    exact hof.characters
  refine ⟨by rw [← hsource, htokens], ms, ns, kept, hms, hns, ?_, ?_⟩
  · rw [TokenTable.toList_emit, hsplit]
    rfl
  · have hemit : (table'.emit s).toList = emitted (ms ++ ({ name with text }, kept) :: ns) := by
      rw [TokenTable.toList_emit]
      refine emitted_congr ?_ ?_
      · rw [TokenTable.map_fst_marked, hcontent]
        simp [hms, hns]
      · rw [TokenTable.map_snd_marked, hrenamed.size, ← TokenTable.map_snd_marked, hsplit]
        simp
    simp only [eraseTypes, htable', hrenamed.run_start hrun]
    rw [← hemit, String.ofList_toList]

/-- The word `as` is a member name like `then`. -/
theorem eraseTypes_rename_then : ∃ ms ns kept,
    emitted (ms ++ (⟨.word, "", "then", 2⟩, kept) :: ns) = "p.then(e);".toList ∧
    eraseTypes "p.as(e as T);" =
      .ok (String.ofList (emitted (ms ++ (⟨.word, "", "as", 2⟩, kept) :: ns))) := by
  have htable : tokenize "p.then(e as T);" = .ok ⟨#[⟨.word, "", "p", 0⟩, ⟨.punctuator, "", ".", 1⟩,
      ⟨.word, "", "then", 2⟩, ⟨.punctuator, "", "(", 6⟩, ⟨.word, "", "e", 7⟩, ⟨.word, " ", "as", 9⟩,
      ⟨.word, " ", "T", 12⟩, ⟨.punctuator, "", ")", 13⟩, ⟨.punctuator, "", ";", 14⟩,
      ⟨.finish, "", "", 15⟩],
      #[none, none, none, some 7, none, none, none, some 3, none, none]⟩ := by
    decide +kernel
  have hidentifier : IsIdentifier "as" :=
    ⟨'a', ['s'], rfl, by decide, List.forall_mem_singleton.mpr (by decide)⟩
  have hout : eraseTypes "p.then(e as T);" = .ok "p.then(e);" := by decide +kernel
  have hinterchangeable : Interchangeable "then" "as" :=
    interchangeable_of_notMem (by decide) (by decide)
  obtain ⟨-, ms, ns, kept, -, -, hemitted, hrenamed⟩ := eraseTypes_rename htable
    (show _ = [⟨.word, "", "p", 0⟩] ++ _ :: _ :: _ from rfl) ⟨rfl, by decide⟩ rfl hidentifier
    hinterchangeable hout
  exact ⟨ms, ns, kept, hemitted.symm, hrenamed⟩

/-- The call of a member is no handler of errors, but `catch` is taken for one. -/
theorem eraseTypes_catch :
    eraseTypes "const v = c ? p.then(e) : d;" = .ok "const v = c ? p.then(e) : d;" ∧
      eraseTypes "const v = c ? p.catch(e) : d;" = .ok "const v = c ? p.catch(e);" := by
  decide +kernel

end Workflow.Script
