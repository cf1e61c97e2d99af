import Workflow.Proofs.Script.Lookahead
import Workflow.Proofs.Script.Written

/-!
# How far erasure has come

While erasure reads a table, the tokens before the next one are marked as kept or removed,
and all others are still kept. The marks so far, nearest first, and the tokens ahead say what
can be asked about the place: which kept tokens stand before it, and what follows. Each kind
of token has a law for the step that erasure takes at it.
-/

namespace Workflow.Script

namespace Erasure

/-- The tokens before the next one, nearest first and each with whether it is kept, and the
tokens from the next one on, none of which is removed. -/
def At (s : Erasure) (table : TokenTable) (done : List (Token × Bool)) (rest : List Token) : Prop :=
  table.marked s = done.reverse ++ rest.map fun t => (t, true)

/-- The marks behind further tokens, which are kept. -/
def passed (ts : List Token) (done : List (Token × Bool)) : List (Token × Bool) :=
  ts.reverse.map (fun t => (t, true)) ++ done

/-- The kept ones of the tokens before the next one, nearest first. -/
def recent (done : List (Token × Bool)) : List Token := (done.filter Prod.snd).map Prod.fst

/-- Every class body that is known opens before the index. -/
def BodiesBefore (s : Erasure) (i : Nat) : Prop := ∀ k ∈ s.classBodies, k < i

/-- The kept tokens before an index, nearest first. -/
def Preceded (s : Erasure) (table : TokenTable) : Nat → List Token → Prop
  | i, [] => s.previous i = none
  | i, t :: ts => ∃ p, s.previous i = some p ∧ table.tokens[p]? = some t ∧ Preceded s table p ts

variable {s s' : Erasure} {table : TokenTable} {done : List (Token × Bool)} {t u : Token}
  {ts rest : List Token} {i : Nat}

/-- Class bodies that open before an index open before every later one. -/
theorem BodiesBefore.mono {j : Nat} (h : s.BodiesBefore i) (hij : i ≤ j) : s.BodiesBefore j :=
  fun k hk => Nat.lt_of_lt_of_le (h k hk) hij

@[simp] theorem length_passed : (passed ts done).length = done.length + ts.length := by
  simp [passed, Nat.add_comm]

/-- What is passed last is what precedes the next token. -/
@[simp] theorem recent_passed : recent (passed ts done) = ts.reverse ++ recent done := by
  simp only [recent, passed, List.filter_append, List.map_append, List.filter_map]
  simp [Function.comp_def]

/-- Each token is marked with whether the run has kept it so far. -/
theorem getElem?_marked (i : Nat) :
    (table.marked s)[i]? = table.tokens[i]?.map fun t => (t, s.keeps i) := by
  simp [TokenTable.marked]

/-- Behind the marked tokens the table goes on with those that are to come. -/
theorem ahead_of_marked {ms : List (Token × Bool)} (h : table.marked s = done.reverse ++ ms) :
    table.Ahead done.length (ms.map Prod.fst) := by
  have htokens := congrArg (List.map Prod.fst) h
  rw [TokenTable.map_fst_marked] at htokens
  rw [TokenTable.Ahead, htokens, List.map_append, List.drop_left' (by simp)]

theorem keeps_of_marked {m : Token × Bool} {ms : List (Token × Bool)}
    (h : table.marked s = done.reverse ++ m :: ms) : s.keeps done.length = m.2 := by
  have hmark := congrArg (·[done.length]?) h
  simp only [getElem?_marked, (ahead_of_marked h).getElem?] at hmark
  rw [List.getElem?_append_right (by simp)] at hmark
  simpa [Prod.ext_iff] using hmark

namespace At

/-- Where a run stands depends on what it has kept and on nothing else. -/
theorem of_kept (h : s.At table done rest) (hkept : s'.kept = s.kept) : s'.At table done rest := by
  have hkeeps : ∀ i, s'.keeps i = s.keeps i := by
    intro i
    rw [keeps, keeps, hkept]
  unfold At TokenTable.marked at h ⊢
  simp only [hkeeps]
  exact h

/-- Nothing is removed before the run. -/
theorem start : (Erasure.start table).At table [] table.tokens.toList := by
  refine List.ext_getElem? fun i => ?_
  rw [getElem?_marked, List.reverse_nil, List.nil_append, List.getElem?_map, Array.getElem?_toList]
  cases htoken : table.tokens[i]? with
  | none => rfl
  | some t =>
    have hlt : i < table.tokens.size := (Array.getElem?_eq_some_iff.mp htoken).1
    simp [Erasure.keeps, Erasure.start, hlt]

/-- The run is over at the last token. -/
theorem run_eq (h : s.At table done [t]) : run table s done.length = .ok s := by
  have hlength := congrArg List.length h
  simp only [TokenTable.marked, List.length_mapIdx, Array.length_toList, List.length_append,
    List.length_reverse, List.length_map, List.length_cons] at hlength
  have hfinish : ¬ done.length < table.finish := by
    rw [TokenTable.finish]
    simp only [List.length_nil] at hlength
    omega
  rw [run, dif_neg hfinish]

/-- The tokens that are to come stand in the table from the next one on. -/
theorem ahead (h : s.At table done rest) : table.Ahead done.length rest := by
  have hahead := ahead_of_marked h
  rw [List.map_map] at hahead
  exact hahead.trans (List.map_id rest)

/-- A token that is to come has not been removed. -/
theorem keeps (h : s.At table done (t :: rest)) : s.keeps done.length = true :=
  keeps_of_marked (m := (t, true)) h

/-- A run that has a further token in front of it is not over at the next one. -/
theorem lt_finish (h : s.At table done (t :: rest)) (hrest : rest ≠ []) :
    done.length < table.finish := by
  have hpos := List.length_pos_iff.mpr hrest
  have hlength := congrArg List.length h
  simp only [TokenTable.marked, List.length_mapIdx, Array.length_toList, List.length_append,
    List.length_reverse, List.length_map, List.length_cons] at hlength
  rw [TokenTable.finish]
  omega

/-- A token that is kept is marked so. -/
theorem keep (h : s.At table done (t :: rest)) : s.At table ((t, true) :: done) rest := by
  simpa [At] using h

/-- Tokens that are kept one after the other are marked so. -/
theorem pass (h : s.At table done (ts ++ rest)) : s.At table (passed ts done) rest := by
  simpa [At, passed] using h

/-- The tokens of a range in front are marked as removed. -/
theorem remove (h : s.At table done (ts ++ u :: rest)) :
    (s.remove table done.length (done.length + ts.length)).At table
      (ts.reverse.map (fun t => (t, false)) ++ done) (u :: rest) := by
  have hlength := congrArg List.length h
  simp only [TokenTable.marked, List.length_mapIdx, Array.length_toList, List.length_append,
    List.length_reverse, List.length_map, List.length_cons] at hlength
  have hstop : min (done.length + ts.length) table.finish = done.length + ts.length := by
    rw [TokenTable.finish]
    omega
  have hmarked : table.marked (s.remove table done.length (done.length + ts.length)) =
      (table.marked s).mapIdx fun k m =>
        (m.1, m.2 && !(decide (done.length ≤ k) && decide (k < done.length + ts.length))) := by
    refine List.ext_getElem? fun k => ?_
    rw [getElem?_marked, List.getElem?_mapIdx, getElem?_marked, keeps_remove, hstop]
    cases table.tokens[k]? <;> rfl
  rw [At, hmarked, show table.marked s = _ from h]
  simp only [List.map_append, List.mapIdx_append, List.reverse_append, List.append_assoc,
    List.length_reverse, List.length_map, List.map_reverse, List.reverse_reverse]
  congr 1
  · refine List.mapIdx_eq_iff.mpr fun k => ?_
    cases hk : done.reverse[k]? with
    | none => rfl
    | some m =>
      have hlt : k < done.length := by
        simpa using (List.getElem?_eq_some_iff.mp hk).1
      simp [Nat.not_le.mpr hlt]
  · congr 1
    · refine List.mapIdx_eq_iff.mpr fun k => ?_
      cases hk : ts[k]? with
      | none => simp [hk]
      | some m =>
        have hlt : k < ts.length := (List.getElem?_eq_some_iff.mp hk).1
        simp [Nat.add_comm, hlt]
    · refine List.mapIdx_eq_iff.mpr fun k => ?_
      have hge : ¬ k + ts.length + done.length < done.length + ts.length := by omega
      simp [hge]

end At

/-- What precedes an index is known from the kept token in front of it. -/
theorem Preceded.of_previous {j : Nat} (h : s.Preceded table i ts)
    (heq : s.previous j = s.previous i) : s.Preceded table j ts := by
  cases ts with
  | nil => exact heq.trans h
  | cons t ts =>
    obtain ⟨p, hp, htoken, hrest⟩ := h
    exact ⟨p, heq.trans hp, htoken, hrest⟩

/-- The kept ones of the marked tokens precede the next one. -/
theorem preceded_of_marked {others : List (Token × Bool)}
    (h : table.marked s = done.reverse ++ others) : s.Preceded table done.length (recent done) := by
  induction done generalizing others with
  | nil => rfl
  | cons m done ih =>
    obtain ⟨t, kept⟩ := m
    have hsplit : table.marked s = done.reverse ++ (t, kept) :: others := by simpa using h
    have hrest := ih hsplit
    have hmark : (table.marked s)[done.length]? = some (t, kept) := by
      rw [hsplit, List.getElem?_append_right (by simp)]
      simp
    rw [getElem?_marked] at hmark
    obtain ⟨t', htoken, heq⟩ := Option.map_eq_some_iff.mp hmark
    obtain ⟨rfl, hkept⟩ := Prod.mk.inj heq
    cases kept with
    | true =>
      have hprevious : s.previous (done.length + 1) = some done.length := by
        rw [previous, if_pos hkept]
      exact ⟨done.length, hprevious, htoken, hrest⟩
    | false =>
      have hprevious : s.previous (done.length + 1) = s.previous done.length := by
        rw [previous, if_neg (by rw [hkept]; exact Bool.false_ne_true)]
      exact hrest.of_previous hprevious

theorem At.preceded (h : s.At table done rest) : s.Preceded table done.length (recent done) :=
  preceded_of_marked h

theorem is_of_getElem? {p : Nat} (h : table.tokens[p]? = some t) (text : String) :
    table.is p text = t.is text := by
  simp [TokenTable.is, h]

/-- What an index follows is the nearest of the tokens that precede it. -/
theorem Preceded.follows (h : s.Preceded table i ts) (text : String) :
    s.follows table i text = ts.head?.any (·.is text) := by
  cases ts with
  | nil => simp [Erasure.follows, show s.previous i = none from h]
  | cons t ts =>
    obtain ⟨p, hp, htoken, -⟩ := h
    simp [Erasure.follows, hp, is_of_getElem? htoken]

/-- The words that give the brackets behind them a meaning. -/
def bracketWords : List String := ["function", "catch", "import", "export"]

/-- The token gives no bracket behind it a meaning. -/
def IsCalm (t : Token) : Prop := ∀ text ∈ bracketWords, t.is text = false

/-- A name is none of the words that give a bracket its meaning. -/
theorem isCalm_of_isName (h : t.IsName) : IsCalm t := by
  intro text hmem
  refine h.is_eq_false (.inl ?_)
  revert text
  decide

/-- A literal is no word at all. -/
theorem isCalm_of_literal (h : t.kind = .string ∨ t.kind = .number) : IsCalm t :=
  fun _ _ => Token.is_eq_false h

/-- A mark or a word that is none of those gives a bracket no meaning. -/
theorem isCalm_of_is {text : String} (h : ∀ other, t.is other = (text == other))
    (htext : text ∉ bracketWords) : IsCalm t := by
  intro other hmem
  rw [h, beq_eq_false_iff_ne]
  exact fun heq => htext (heq ▸ hmem)

/-- None of the three nearest tokens gives a bracket a meaning. -/
def Calm (ts : List Token) : Prop := ∀ t ∈ ts.take 3, IsCalm t

/-- Tokens without a meaning for brackets may be put in front. -/
theorem Calm.append {us : List Token} (h : Calm us)
    (hts : ∀ t ∈ ts, IsCalm t) : Calm (ts ++ us) := by
  induction ts with
  | nil => exact h
  | cons t ts ih =>
    intro u hu
    rcases List.mem_cons.mp hu with rfl | hu
    · exact hts _ List.mem_cons_self
    · exact ih (fun t ht => hts t (List.mem_cons_of_mem _ ht)) u
        ((List.take_sublist_take_left (by decide)).mem hu)

/-- Tokens without a meaning for brackets may be passed. -/
theorem Calm.passed (h : Calm (recent done))
    (hts : ∀ t ∈ ts, IsCalm t) :
    Calm (recent (Erasure.passed ts done)) := by
  rw [recent_passed]
  exact h.append fun t ht => hts t (List.mem_reverse.mp ht)

theorem calm_nil : Calm (recent []) := by
  simp [Calm, recent]

/-- A kept token without a meaning for brackets leaves it so. -/
theorem Calm.cons (h : Calm (recent done)) (ht : IsCalm t) : Calm (recent ((t, true) :: done)) :=
  h.append (show ∀ u ∈ [t], IsCalm u by simpa using ht)

/-- A kept mark leaves it so, as it is none of the words. -/
theorem Calm.mark {text : String} (h : Calm (recent done)) (ht : t.IsMark text)
    (htext : text ∉ bracketWords) : Calm (recent ((t, true) :: done)) :=
  h.cons (isCalm_of_is ht.is htext)

/-- Of marked tokens only the kept ones count. -/
theorem Calm.marks {ms : List (Token × Bool)} (h : Calm (recent done))
    (hms : ∀ m ∈ ms, m.2 = true → IsCalm m.1) : Calm (recent (ms.reverse ++ done)) := by
  rw [recent, List.filter_append, List.map_append]
  refine h.append fun t ht => ?_
  obtain ⟨m, hm, rfl⟩ := List.mem_map.mp ht
  obtain ⟨hmem, hkept⟩ := List.mem_filter.mp hm
  exact hms m (List.mem_reverse.mp hmem) hkept

/-- Three tokens without a meaning for brackets hide what is further away. -/
theorem calm_of_length {us : List Token} (h : ∀ t ∈ ts, IsCalm t) (hlength : 3 ≤ ts.length) :
    Calm (ts ++ us) := by
  intro t ht
  rw [List.take_append_of_le_length hlength] at ht
  exact h t (List.mem_of_mem_take ht)

/-- The third of the tokens before a bracket is none of the words either. -/
theorem Calm.follows_eq_false (hcalm : Calm (t :: u :: ts)) (h : s.Preceded table i ts)
    (text : String) (htext : text ∈ bracketWords) : s.follows table i text = false := by
  rw [h.follows]
  cases ts with
  | nil => rfl
  | cons v ts => exact hcalm v (by simp) text htext

/-- No bracket is that of the parameters of a function unless `function` is near. -/
theorem followsFunction_eq_false (h : s.Preceded table i ts) (hcalm : Calm ts) :
    s.followsFunction table i = false := by
  cases ts with
  | nil => simp [followsFunction, show s.previous i = none from h]
  | cons t ts =>
    obtain ⟨p, hp, ht, hrest⟩ := h
    have hfirst := hcalm t (by simp)
    simp only [IsCalm, bracketWords, List.mem_cons, List.not_mem_nil, or_false, forall_eq_or_imp,
      forall_eq] at hfirst
    cases ts with
    | nil =>
      have hnone : s.previous p = none := hrest
      simp [followsFunction, hp, hnone, is_of_getElem? ht, hfirst]
    | cons u ts =>
      obtain ⟨q, hq, hu, hrest⟩ := hrest
      have hsecond := hcalm u (by simp) "function" (by decide)
      have hthird := hcalm.follows_eq_false hrest "function" (by decide)
      simp [followsFunction, hp, hq, is_of_getElem? ht, is_of_getElem? hu, hfirst, hsecond, hthird]

/-- No bracket is the clause of a module unless `import` or `export` is near. -/
theorem opensModuleClause_eq_false (h : s.Preceded table i ts) (hcalm : Calm ts) :
    s.opensModuleClause table i = false := by
  cases ts with
  | nil => simp [opensModuleClause, show s.previous i = none from h]
  | cons t ts =>
    obtain ⟨p, hp, ht, hrest⟩ := h
    have hfirst := hcalm t (by simp)
    simp only [IsCalm, bracketWords, List.mem_cons, List.not_mem_nil, or_false, forall_eq_or_imp,
      forall_eq] at hfirst
    cases ts with
    | nil =>
      have hnone : s.previous p = none := hrest
      simp [opensModuleClause, hp, hnone, is_of_getElem? ht, hfirst]
    | cons u ts =>
      obtain ⟨q, hq, hu, hrest⟩ := hrest
      have hthird := hcalm.follows_eq_false hrest "import" (by decide)
      simp [opensModuleClause, hp, hq, is_of_getElem? ht, hfirst, hthird]

/-- A run takes the step at a token that is kept and goes on with its answer. -/
theorem run_of_step {a : Advance i} (hi : i < table.finish) (hkeeps : s.keeps i = true)
    (hstep : s.step table i = .ok a) : run table s i = run table a.state a.next := by
  rw [run, dif_pos hi, if_pos hkeeps]
  split
  · rename_i heq
    rw [hstep] at heq
    cases heq
  · rename_i heq
    rw [hstep] at heq
    cases heq
    rfl

/-- A run goes on with what the step at the next token answers. -/
theorem run_step {a : Advance i} (h : s.At table done (t :: rest)) (hrest : rest ≠ [])
    (hi : done.length = i) (hstep : s.step table i = .ok a) :
    run table s i = run table a.state a.next := by
  subst hi
  exact run_of_step (h.lt_finish hrest) h.keeps hstep

/-- A token that has been removed is passed over without a step. -/
theorem run_of_removed (hi : i < table.finish) (hkeeps : s.keeps i = false) :
    run table s i = run table s (i + 1) := by
  rw [run, dif_pos hi, if_neg (by rw [hkeeps]; exact Bool.false_ne_true)]

/-- The words that may start a statement that only declares types. -/
def statementWords : List String := [
  "interface", "type", "import", "declare", "abstract", "enum", "const"]

/-- No other word starts a statement that is removed. -/
theorem statementRemoval_eq_none (hexport : table.is i "export" = false)
    (htext : table.text i ∉ statementWords ∨
      table.text i = "const" ∧ table.is (i + 1) "enum" = false) :
    table.statementRemoval i = .ok none := by
  unfold TokenTable.statementRemoval
  simp only [hexport]
  split
  case h_7 heq =>
    change table.text i = "const" at heq
    rcases htext with hmem | ⟨-, henum⟩
    · exact absurd (by rw [heq]; decide) hmem
    · change (if table.is (i + 1) "enum" = true then _ else _) = _
      rw [henum]
      rfl
  case h_8 => rfl
  all_goals
    rename_i word heq
    change table.text i = _ at heq
    rcases htext with hmem | ⟨hconst, -⟩
    · exact absurd (by rw [heq]; decide) hmem
    · exact absurd (hconst.symm.trans heq) (by decide)

/-- Where no statement that only declares types starts, nothing is removed as a whole. -/
theorem removalAt_eq_none (h : table.isWord i = false ∨ table.statementRemoval i = .ok none) :
    s.removalAt table i = .ok none := by
  unfold removalAt
  rcases h with h | h
  · simp [startsStatement, h]
    rfl
  · rw [h]
    split <;> rfl

/-- A step that removes no statement depends on the kind of its token. -/
theorem step_of_removalAt (h : s.removalAt table i = .ok none) : s.step table i =
    match table.kind i with
    | .word => s.word table i
    | .punctuator => s.punctuator table i
    | _ => .ok (s.advance i) := by
  rw [step, h]
  rfl

/-- To note nothing leaves the state as it is. -/
theorem onFrame_eq_self {f : Frame → Frame} (h : f s.frame = s.frame) : s.onFrame f = s := by
  rw [onFrame, h]

/-- A variable declaration, if there is one, is past the declared name. -/
def Settled (f : Frame) : Prop := f.declaration = none ∨ f.declaration = some .initializer

/-- A word tells nothing where no declared name is expected. -/
theorem Settled.afterWord_eq {f : Frame} (h : Settled f) : Frame.afterWord f = f := by
  rcases h with h | h <;> simp [Frame.afterWord, h]

/-- A closed bracket tells nothing where no declared name is expected. -/
theorem Settled.afterClose_eq {f : Frame} (h : Settled f) : Frame.afterClose i f = f := by
  rcases h with h | h <;> simp [Frame.afterClose, h]

/-- The words that a declaration, a heading or an assertion starts with. -/
def plainWords : List String := ["let", "const", "var", "function", "class", "as", "satisfies"]

/-- A word that starts nothing is passed, and noted as the name of what is declared. -/
theorem plainWord_eq (h : table.text i ∉ plainWords) :
    s.plainWord table i = .ok ((s.onFrame Frame.afterWord).advance i) := by
  unfold plainWord
  split
  case h_8 => rfl
  all_goals
    rename_i heq
    exact absurd (by rw [heq]; decide) h

/-- A word that is no member name, neither behind a point nor in a class, is read as a plain
word. -/
theorem word_eq_plainWord (hpoint : s.follows table i "." = false)
    (hquestion : s.follows table i "?." = false)
    (hclass : s.frame.kind = .classBody → s.classMember table i = .ok (none, s))
    (hmodifier : table.isOneOf i modifiers = false) : s.word table i = s.plainWord table i := by
  rw [word, hpoint, hquestion, hmodifier, if_neg (by simp)]
  by_cases hkind : s.frame.kind = .classBody
  · rw [if_pos hkind, hclass hkind]
    rfl
  · rw [if_neg hkind, if_neg (by simp)]

/-- The words that are more than names, in a declaration or in front of a member. -/
def roleWords : List String := "export" :: (modifiers ++ statementWords ++ plainWords)

/-- A name plays no other part. -/
theorem notMem_roleWords (ht : t.IsName) : t.text ∉ roleWords := ht.text_not_mem (by decide)

variable {text : String}

section

variable (hk : table.Ahead i (t :: ts))

include hk

/-- A word is read as one where no statement that only declares types starts. -/
theorem step_word (hkind : t.kind = .word) (hexport : t.text ≠ "export")
    (htext : t.text ∉ statementWords ∨ t.text = "const" ∧ table.is (i + 1) "enum" = false) :
    s.step table i = s.word table i := by
  have hexport' : table.is i "export" = false := by
    rw [hk.is]
    simp [Token.is, hexport]
  rw [← hk.text] at htext
  rw [step_of_removalAt (removalAt_eq_none (.inr (statementRemoval_eq_none hexport' htext))),
    hk.kind, hkind]

/-- A word that is no more than a name is passed over where no variable is declared. -/
theorem step_plain (hkind : t.kind = .word) (htext : t.text ∉ roleWords)
    (hclass : s.frame.kind = .classBody → s.classMember table i = .ok (none, s))
    (hframe : Settled s.frame) : s.step table i = .ok (s.advance i) := by
  simp only [roleWords, List.mem_cons, List.mem_append, not_or] at htext
  obtain ⟨hexport, ⟨hmodifier, hstatement⟩, hplain⟩ := htext
  rw [step_word hk hkind hexport (.inl hstatement)]
  by_cases hmember : (s.follows table i "." || s.follows table i "?.") = true
  · rw [word, if_pos hmember]
    rfl
  · simp only [Bool.or_eq_true, not_or, Bool.not_eq_true] at hmember
    rw [word_eq_plainWord hmember.1 hmember.2 hclass (by simpa [hk.isOneOf] using hmodifier),
      plainWord_eq (hk.text ▸ hplain), onFrame_eq_self hframe.afterWord_eq]

/-- A name is passed where no variable is declared. -/
theorem step_name (ht : t.IsName)
    (hclass : s.frame.kind = .classBody → s.classMember table i = .ok (none, s))
    (hframe : Settled s.frame) : s.step table i = .ok (s.advance i) :=
  step_plain hk ht.1 (notMem_roleWords ht) hclass hframe

/-- A literal is passed over. -/
theorem step_literal (ht : t.kind = .string ∨ t.kind = .number) :
    s.step table i = .ok (s.advance i) := by
  have hword : table.isWord i = false := by
    rw [hk.isWord]
    rcases ht with ht | ht <;> rw [ht] <;> rfl
  rw [step_of_removalAt (removalAt_eq_none (.inl hword)), hk.kind]
  rcases ht with ht | ht <;> rw [ht]

/-- A mark is read by its text. -/
theorem step_mark (ht : t.IsMark text) : s.step table i = s.punctuator table i := by
  have hword : table.isWord i = false := by
    rw [hk.isWord, ht.1]
    rfl
  rw [step_of_removalAt (removalAt_eq_none (.inl hword)), hk.kind, ht.1]

attribute [local simp] punctuator pure Except.pure

/-- An operator without a role in types is passed over. -/
theorem step_operator (ht : t.IsMark text)
    (hmem : text ∉ ["(", "[", "\x7b", ")", "]", "\x7d", "<", ":", "?", "!", "=", ",", ";"]) :
    s.step table i = .ok (s.advance i) := by
  rw [step_mark hk ht, punctuator, hk.text, ht.2]
  split
  case h_14 => rfl
  all_goals exact absurd (by decide) hmem

/-- A round bracket opens parameters or a group. -/
theorem step_round {kind : FrameKind} (ht : t.IsMark "(")
    (hkind : kind = if s.opensParameters table i then .parameters else .group) :
    s.step table i = .ok ((s.openBracket table i kind false).advance i) := by
  simp [step_mark hk ht, hk.text, ht.2, hkind]

/-- A square bracket opens a list or a pattern. -/
theorem step_square (ht : t.IsMark "[") :
    s.step table i = .ok ((s.openBracket table i .square true).advance i) := by
  simp [step_mark hk ht, hk.text, ht.2]

/-- A brace opens a block if it is neither the body of a class nor a clause of a module. -/
theorem step_block (ht : t.IsMark "\x7b") (hbodies : s.BodiesBefore i)
    (hclause : s.opensModuleClause table i = false) :
    s.step table i = .ok ((s.openBracket table i .block true).advance i) := by
  have hbody : s.classBodies.contains i = false := by
    rw [Bool.eq_false_iff, Ne, List.contains_iff_mem]
    exact fun hmem => Nat.lt_irrefl i (hbodies i hmem)
  simp [step_mark hk ht, hk.text, ht.2, hbody, hclause, -List.contains_eq_mem]

/-- All closing brackets are read in the same way. -/
theorem step_close (ht : t.IsMark ")" ∨ t.IsMark "]" ∨ t.IsMark "\x7d") :
    s.step table i = s.closeBracket table i := by
  rcases ht with ht | ht | ht <;> simp [step_mark hk ht, hk.text, ht.2]

theorem step_colon (ht : t.IsMark ":") : s.step table i = s.colon table i := by
  simp [step_mark hk ht, hk.text, ht.2]

theorem step_question (ht : t.IsMark "?") : s.step table i = .ok (s.question table i) := by
  simp [step_mark hk ht, hk.text, ht.2]

/-- An equals sign puts the value of what is declared next. -/
theorem step_equals (ht : t.IsMark "=") :
    s.step table i = .ok ((s.onFrame Frame.afterEquals).advance i) := by
  simp [step_mark hk ht, hk.text, ht.2]

/-- A comma puts the next declared name next. -/
theorem step_comma (ht : t.IsMark ",") :
    s.step table i = .ok ((s.onFrame Frame.afterComma).advance i) := by
  simp [step_mark hk ht, hk.text, ht.2]

/-- A semicolon ends a declaration and drops the conditional expressions that wait. -/
theorem step_semicolon (ht : t.IsMark ";") : s.step table i =
    .ok ((s.onFrame fun f => { f with declaration := none, conditionals := 0 }).advance i) := by
  simp [step_mark hk ht, hk.text, ht.2]

end

/-- A run passes over tokens that are marked already, if the kept ones are no more than names. -/
theorem run_marked {ms : List (Token × Bool)} (h : s.At table (ms.reverse ++ done) rest)
    (hrest : rest ≠ []) (hframe : Settled s.frame)
    (hms : ∀ m ∈ ms, m.2 = true →
      m.1.kind = .word ∧ m.1.text ∉ roleWords ∧ s.frame.kind ≠ .classBody) :
    run table s done.length = run table s (ms.reverse ++ done).length := by
  induction ms generalizing done with
  | nil => rfl
  | cons m ms ih =>
    have hmarked : table.marked s = done.reverse ++ m :: (ms ++ rest.map fun t => (t, true)) := by
      simpa [At] using h
    have hlt : done.length < table.finish := by
      have hlength := congrArg List.length hmarked
      have hpos := List.length_pos_iff.mpr hrest
      simp only [TokenTable.marked, List.length_mapIdx, Array.length_toList, List.length_append,
        List.length_reverse, List.length_map, List.length_cons] at hlength
      rw [TokenTable.finish]
      omega
    have hnext : run table s done.length = run table s (done.length + 1) := by
      have hkeeps := keeps_of_marked hmarked
      by_cases hkept : m.2 = true
      · obtain ⟨hkind, htext, hclass⟩ := hms m List.mem_cons_self hkept
        have hahead : table.Ahead done.length (m.1 :: _) := ahead_of_marked hmarked
        exact run_of_step hlt (hkeeps.trans hkept)
          (step_plain hahead hkind htext (fun hbody => absurd hbody hclass) hframe)
      · exact run_of_removed hlt (hkeeps.trans (Bool.eq_false_iff.mpr hkept))
    have hbehind : s.At table (ms.reverse ++ m :: done) rest := by simpa using h
    have hrun := ih hbehind fun n hn => hms n (List.mem_cons_of_mem m hn)
    rw [hnext, List.reverse_cons, List.append_assoc]
    exact hrun

/-- A round bracket opens no parameters unless an arrow, a body or a result type follows. -/
theorem opensParameters_eq_false {next : Token} (hfunction : s.followsFunction table i = false)
    (hnext : table.Ahead (table.closeOf i + 1) (next :: ts)) (harrow : next.is "=>" = false)
    (hbody : next.is "\x7b" = false)
    (hcolon : next.is ":" = true → 0 < s.frame.conditionals) :
    s.opensParameters table i = false := by
  have htyped : (next.is ":" && s.frame.conditionals == 0) = false := by
    by_cases hc : next.is ":" = true
    · have hpos := hcolon hc
      simp [Nat.ne_of_gt hpos]
    · simp [hc]
  unfold opensParameters
  simp only [hnext.is, hfunction, harrow, hbody, htyped]
  simp

/-- The round bracket in front of an arrow opens parameters. -/
theorem opensParameters_of_arrow {next : Token}
    (hnext : table.Ahead (table.closeOf i + 1) (next :: ts)) (harrow : next.is "=>" = true) :
    s.opensParameters table i = true := by
  unfold opensParameters
  simp only [hnext.is, harrow]
  simp

/-- A bracket that holds no parameters is closed. -/
theorem closeBracket_eq {parent : Frame} {outer : List Frame} (houter : s.outer = parent :: outer)
    (hparent : Settled parent)
    (hkind : s.frame.kind ≠ .parameters ∨ table.is (i + 1) ":" = false) :
    s.closeBracket table i = .ok
      (({ s with frame := parent, outer := outer } : Erasure).advance i) := by
  unfold closeBracket
  rw [houter]
  simp only [hparent.afterClose_eq]
  rw [if_neg (by rcases hkind with hkind | hkind <;> simp [hkind])]
  rfl

/-- A question mark starts a conditional expression outside of parameters, and in front of an
operand. -/
theorem question_eq (h : s.frame.kind = .parameters →
    ∀ text ∈ [":", ",", ")", "="], table.is (i + 1) text = false) : s.question table i =
    (s.onFrame fun f => { f with conditionals := f.conditionals + 1 }).advance i := by
  rw [question, if_neg]
  by_cases hkind : s.frame.kind = .parameters
  · simp [h hkind]
  · simp [hkind]

/-- A colon belongs to a question mark that waits for it. -/
theorem colon_eq (h : 0 < s.frame.conditionals) : s.colon table i =
    .ok ((s.onFrame fun f => { f with conditionals := f.conditionals - 1 }).advance i) := by
  rw [colon, if_pos h]
  rfl

end Erasure

end Workflow.Script
