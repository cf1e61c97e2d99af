import Workflow.Proofs.Script.ConstantValue
import Workflow.Proofs.Script.Term
import Workflow.Proofs.Script.TypedClass

/-!
# Type arguments

An opening angle bracket behind an operand compares or opens type arguments. Those of a call and
of a `new` expression are removed with their brackets, whatever the types are, and a comparison
stays as it is.
-/

namespace Workflow.Script

/-- A dotted name. -/
structure Path where
  first : PlainName
  members : List PlainName

def Path.text (p : Path) : String := p.first.text ++ dotted p.members

/-- A value with type arguments, or one that may compare. -/
inductive GenericValue where
  | call (callee : Path) (type : Ty) (types : List Ty) (arguments : List Expr)
  | construct (callee : Path) (type : Ty) (types : List Ty) (arguments : List Expr)
  | bare (callee : Path) (type : Ty) (types : List Ty)
  | term (e : Term)

/-- Arguments in their brackets. -/
def argumentList (arguments : List Expr) : String :=
  "(" ++ ", ".intercalate (arguments.map Expr.text) ++ ")"

def GenericValue.source : GenericValue → String
  | .call callee type types arguments =>
    callee.text ++ angled ((type :: types).map Ty.text) ++ argumentList arguments
  | .construct callee type types arguments =>
    "new " ++ callee.text ++ angled ((type :: types).map Ty.text) ++ argumentList arguments
  | .bare callee type types => "new " ++ callee.text ++ angled ((type :: types).map Ty.text)
  | .term e => e.text

def GenericValue.erased : GenericValue → String
  | .call callee _ _ arguments => callee.text ++ argumentList arguments
  | .construct callee _ _ arguments => "new " ++ callee.text ++ argumentList arguments
  | .bare callee _ _ => "new " ++ callee.text
  | .term e => e.text

variable {source : String} {table : TokenTable} {ts us inner behind : List Token}
  {t less last next : Token} {done : List (Token × Bool)} {f : Frame} {outer : List Frame}
  {i k : Nat}

open Erasure

/-! ## Where type arguments end -/

/-- Types with commas between them are type arguments up to the bracket that closes them. -/
theorem TypeListTokens.typeArgumentsEndFrom (h : TypeListTokens ts)
    (htable : tokenize source = .ok table) (hk : table.Ahead k (ts ++ last :: behind))
    (hlast : last.IsMark ">") :
    ∃ hlt, typeArgumentsEndFrom table k = some ⟨k + ts.length + 1, hlt⟩ := by
  induction h generalizing k with
  | @last ts grouped hts =>
    have hends : last.EndsType grouped := hlast.endsType (by decide) (by simp)
    obtain ⟨hlt, hend⟩ := hts.typeEnd htable hk hends.outside hends.arrow
    have hclosed : table.is (k + ts.length) ">" = true := by rw [hk.append.is, hlast.is]; rfl
    rw [Erasure.typeArgumentsEndFrom, hend]
    exact ⟨Nat.lt_succ_of_lt hlt, by simp only [hclosed, if_true]⟩
  | @cons comma ts us grouped hts hcomma _ ih =>
    have hends : comma.EndsType grouped := hcomma.endsType (by decide) (by simp)
    rw [List.append_assoc, List.cons_append] at hk
    obtain ⟨hlt, hend⟩ := hts.typeEnd htable hk hends.outside hends.arrow
    obtain ⟨hlt', hrest⟩ := ih hk.append.tail
    have hopen : table.is (k + ts.length) ">" = false := by rw [hk.append.is, hcomma.is]; rfl
    have hmore : table.is (k + ts.length) "," = true := by rw [hk.append.is, hcomma.is]; rfl
    have hstop : k + (ts ++ comma :: us).length + 1 = k + ts.length + 1 + us.length + 1 := by
      simp only [List.length_append, List.length_cons]
      omega
    rw [hstop, Erasure.typeArgumentsEndFrom, hend]
    simp only [hopen, hmore, hrest]
    exact ⟨by omega, rfl⟩

/-- Whether `new` stands in front of a path is seen from its names and points. -/
theorem followsConstructor_eq {s : Erasure} {n p : Nat} (hn : s.previous i = some n)
    (hp : s.previous n = some p) : s.followsConstructor table i =
      (table.isWord n &&
        if table.is p "." then s.followsConstructor table p else table.is p "new") := by
  rw [followsConstructor]
  split
  · simp_all
  · rename_i n' hn'
    obtain rfl := Option.some.inj (hn.symm.trans hn')
    split
    · simp_all
    · rename_i p' hp'
      obtain rfl := Option.some.inj (hp.symm.trans hp')
      rfl

/-- The kept tokens from the nearest one on are a dotted name and the word `new` before it. -/
inductive ConstructorBehind : List Token → Prop
  | new {name word : Token} {ts : List Token} : name.kind = .word → word.IsWord "new" →
      ConstructorBehind (name :: word :: ts)
  | member {name point : Token} {ts : List Token} : name.kind = .word → point.IsMark "." →
      ConstructorBehind ts → ConstructorBehind (name :: point :: ts)

namespace ConstructorBehind

/-- Members go on with a dotted name. -/
theorem members (h : ConstructorBehind (t :: ts)) (hus : Members us) :
    ConstructorBehind ((t :: us).reverse ++ ts) := by
  induction hus generalizing t ts with
  | nil => exact h
  | cons hpoint hname _ ih => simpa using ih (.member hname.1 hpoint h)

/-- A run sees the `new` that stands in front of a path. -/
theorem followsConstructor {s : Erasure} (h : ConstructorBehind ts) (hs : s.Preceded table i ts) :
    s.followsConstructor table i = true := by
  have hisWord : ∀ {n : Nat} {name : Token}, table.tokens[n]? = some name → name.kind = .word →
      table.isWord n = true := by
    intro n name htoken hkind
    simp [TokenTable.isWord, TokenTable.kind, htoken, hkind]
  induction h generalizing i with
  | new hname hword =>
    obtain ⟨n, hn, htoken, p, hp, htoken', -⟩ := hs
    rw [followsConstructor_eq hn hp, hisWord htoken hname, is_of_getElem? htoken',
      is_of_getElem? htoken', hword.is, hword.is]
    rfl
  | member hname hpoint _ ih =>
    obtain ⟨n, hn, htoken, p, hp, htoken', hrest⟩ := hs
    rw [followsConstructor_eq hn hp, hisWord htoken hname, is_of_getElem? htoken', hpoint.is,
      ih hrest]
    rfl

end ConstructorBehind

/-! ## Values with type arguments -/

namespace Erasure

/-- Type arguments that stand behind an operand and in front of a bracket, or behind the name of a
constructor, are removed. -/
theorem leads_typeArguments (htable : tokenize source = .ok table) (hless : less.IsMark "<")
    (hinner : TypeListTokens inner) (hlast : last.IsMark ">")
    (hbefore : ∃ v ∈ (recent done).head?, v.EndsTerm)
    (happlied : next.is "(" = true ∨ ConstructorBehind (recent done)) :
    Leads table ⟨done, less :: (inner ++ last :: next :: behind), f, outer⟩
      ⟨(allRemoved (less :: (inner ++ [last]))).reverse ++ done, next :: behind, f, outer⟩ := by
  rw [show less :: (inner ++ last :: next :: behind) =
    less :: (inner ++ [last] ++ next :: behind) by simp]
  refine leads_of_removal fun s hs => ?_
  have hahead := hs.ahead
  rw [List.append_assoc, List.singleton_append] at hahead
  obtain ⟨hlt, hend⟩ := hinner.typeArgumentsEndFrom htable hahead.tail hlast
  have hstop : done.length + 1 + inner.length + 1 =
      done.length + (less :: (inner ++ [last])).length := by
    simp only [List.length_cons, List.length_append, List.length_nil]
    omega
  have harguments : typeArgumentsEnd table done.length =
      some ⟨done.length + 1 + inner.length + 1, Nat.lt_of_succ_lt hlt⟩ := by
    rw [typeArgumentsEnd, hend]
  have happlied' : (table.is (done.length + 1 + inner.length + 1) "(" ||
      table.kind (done.length + 1 + inner.length + 1) == .template ||
        s.followsConstructor table done.length) = true := by
    rcases happlied with hround | hbehind
    · rw [hahead.tail.append.tail.is, hround]
      rfl
    · rw [hbehind.followsConstructor hs.marks.preceded, Bool.or_true]
  refine ⟨_, Nat.lt_of_succ_lt hlt, hstop, ?_⟩
  rw [step_angle hahead hless, angle, if_pos (behindOperand_of_endsTerm hs.marks hbefore),
    harguments]
  simp only [happlied', if_true]
  rfl

end Erasure

/-- The tokens of a dotted name. -/
inductive PathTokens : List Token → Prop
  | mk {name : Token} {us : List Token} : name.IsName → Members us → PathTokens (name :: us)

/-- The tokens of types in angle brackets. -/
inductive TypeArgumentTokens : List Token → Prop
  | mk {less last : Token} {inner : List Token} : less.IsMark "<" → TypeListTokens inner →
      last.IsMark ">" → TypeArgumentTokens (less :: (inner ++ [last]))

/-- The tokens of arguments in their brackets. -/
inductive ArgumentTokens : List Token → Prop
  | mk {first last : Token} {inner : List Token} : first.IsMark "(" → Inert .items inner →
      last.IsMark ")" → ArgumentTokens (first :: (inner ++ [last]))

/-- The marks of a value with type arguments. -/
inductive GenericMarks : List (Token × Bool) → Prop
  | call {path types arguments : List Token} : PathTokens path → TypeArgumentTokens types →
      ArgumentTokens arguments →
      GenericMarks (allKept path ++ (allRemoved types ++ allKept arguments))
  | construct {word : Token} {path types arguments : List Token} : word.IsWord "new" →
      PathTokens path → TypeArgumentTokens types → ArgumentTokens arguments →
      GenericMarks ((word, true) :: (allKept path ++ (allRemoved types ++ allKept arguments)))
  | bare {word : Token} {path types : List Token} : word.IsWord "new" → PathTokens path →
      TypeArgumentTokens types → GenericMarks ((word, true) :: (allKept path ++ allRemoved types))

/-- A path is inert. -/
theorem PathTokens.inert (h : PathTokens ts) : Inert .operand ts := by
  obtain ⟨hname, hus⟩ := h
  exact .name hname hus.inert

/-- A path is a term. -/
theorem PathTokens.termTokens (h : PathTokens ts) : TermTokens .operand ts := by
  obtain ⟨hname, hus⟩ := h
  refine .block (.name hname hus.inert) ?_
  rename_i name us
  by_cases hne : us = []
  · subst hne
    exact ⟨name, rfl, .inl hname, hname.is_eq_false (.inr (by decide))⟩
  · obtain ⟨t, ht, hlast⟩ := hus.exists_last hne
    rw [List.getLast?_cons_of_ne_nil hne]
    exact ⟨t, ht, .inl hlast, hlast.is_eq_false (.inr (by decide))⟩

/-- Behind `new` and a path, the run sees a constructor. -/
theorem PathTokens.constructorBehind {word : Token} (h : PathTokens ts)
    (hword : word.IsWord "new") :
    ConstructorBehind (recent ((allKept ts).reverse ++ (word, true) :: done)) := by
  obtain ⟨hname, hus⟩ := h
  rw [recent_allKept]
  exact (ConstructorBehind.new hname.1 hword).members hus

theorem TypeArgumentTokens.balanced (h : TypeArgumentTokens ts) : Balanced ts := by
  obtain ⟨hless, hinner, hlast⟩ := h
  exact .of_mark hless (by decide) (hinner.balanced.append (.of_mark hlast (by decide) .nil))

theorem ArgumentTokens.balanced (h : ArgumentTokens ts) : Balanced ts := by
  obtain ⟨hfirst, hinner, hlast⟩ := h
  exact .group (hfirst.opens? .round) (hlast.closes? .round) hinner.balanced .nil

namespace GenericMarks

variable {ms : List (Token × Bool)}

theorem balanced (h : GenericMarks ms) : Balanced (ms.map Prod.fst) := by
  cases h with
  | call hpath htypes harguments =>
    simpa using hpath.inert.balanced.append (htypes.balanced.append harguments.balanced)
  | construct hword hpath htypes harguments =>
    have hcall := hpath.inert.balanced.append (htypes.balanced.append harguments.balanced)
    simpa using Balanced.of_word hword (by decide) hcall
  | bare hword hpath htypes =>
    simpa using Balanced.of_word hword (by decide) (hpath.inert.balanced.append htypes.balanced)

end GenericMarks

section

variable {path types arguments : List Token} (hpath : PathTokens path)
  (htypes : TypeArgumentTokens types) (htable : tokenize source = .ok table)
  (hcalm : Calm (recent done))
include hpath htypes htable hcalm

/-- A run removes the type arguments behind a dotted name. -/
theorem leads_instance (next : Token) (behind : List Token)
    (happlied : next.is "(" = true ∨ ConstructorBehind (recent ((allKept path).reverse ++ done))) :
    Leads table ⟨done, path ++ (types ++ next :: behind), topFrame (some .initializer), []⟩
      ⟨(allRemoved types).reverse ++ ((allKept path).reverse ++ done), next :: behind,
        topFrame (some .initializer), []⟩ := by
  obtain ⟨hless, hinner, hlast⟩ := htypes
  rename_i less last inner
  have hnamed : Leads table ⟨done, path ++ less :: (inner ++ last :: next :: behind),
      topFrame (some .initializer), []⟩ _ :=
    TermPasses.of_inert htable hpath.inert operand_holds_top hcalm (.of_mark hless (by decide))
  have hremoved := hnamed.trans (leads_typeArguments htable hless hinner hlast
    hpath.termTokens.recent_last happlied)
  simpa using hremoved

/-- A run removes the type arguments of a call, and passes over the other ones. -/
theorem leads_call (behind : List Token) (harguments : ArgumentTokens arguments)
    (hnext : next.BehindTerm) :
    Leads table
      ⟨done, path ++ (types ++ (arguments ++ next :: behind)), topFrame (some .initializer), []⟩
      ⟨(allKept arguments).reverse ++ ((allRemoved types).reverse ++
        ((allKept path).reverse ++ done)), next :: behind, topFrame (some .initializer), []⟩ := by
  obtain ⟨hfirst, hinner, hlast⟩ := harguments
  rename_i first last inner
  have hinstance : Leads table ⟨done, path ++ (types ++ first ::
      (inner ++ [last] ++ next :: behind)), topFrame (some .initializer), []⟩ _ :=
    leads_instance hpath htypes htable hcalm _ _ (.inl (by rw [hfirst.is]; rfl))
  have hcalm' : Calm (recent ((allRemoved types).reverse ++ ((allKept path).reverse ++ done))) :=
    (hcalm.marks (isCalm_allKept hpath.termTokens.calm)).marks isCalm_allRemoved
  exact hinstance.trans (TermPasses.round htable hfirst hinner.balanced hlast
    (.of_inert htable hinner) operand_holds_top hcalm' hnext)

end

namespace GenericMarks

variable {ms : List (Token × Bool)}

/-- A run removes the type arguments of a value, and nothing else. -/
theorem marksValue (h : GenericMarks ms) (htable : tokenize source = .ok table) :
    MarksValue table ms := by
  intro done semicolon behind hcalm hbefore hsemicolon
  have hnext : semicolon.BehindTerm := .of_mark hsemicolon (by decide)
  have hnew : ∀ {word : Token} {rest : List Token}, rest ≠ [] → word.IsWord "new" →
      Leads table ⟨done, word :: rest, topFrame (some .initializer), []⟩
        ⟨(word, true) :: done, rest, topFrame (some .initializer), []⟩ := fun hrest hword =>
    leads_word hrest hword.1 (by rw [hword.2]; decide) (by decide) hbefore
  cases h with
  | call hpath htypes harguments =>
    simpa using leads_call hpath htypes htable hcalm behind harguments hnext
  | construct hword hpath htypes harguments =>
    have hcalm' := hcalm.cons (isCalm_of_is hword.is (by decide))
    have hcall := leads_call hpath htypes htable hcalm' behind harguments hnext
    simpa using (hnew (by simp) hword).trans hcall
  | bare hword hpath htypes =>
    have hcalm' := hcalm.cons (isCalm_of_is hword.is (by decide))
    have hinstance := leads_instance hpath htypes htable hcalm' semicolon behind
      (.inr (hpath.constructorBehind hword))
    simpa using (hnew (by simp) hword).trans hinstance

end GenericMarks

/-! ## Texts with type arguments -/

/-- A path is read as a name with its members. -/
theorem Path.phrase (p : Path) : Phrase p.text Delimits PathTokens := by
  refine ((phrase_name p.first).members p.members).mono (fun _ => id) ?_
  rintro _ ⟨_, us, rfl, ⟨name, rfl, hname⟩, hus, -⟩
  exact .mk hname hus

/-- Type arguments are read as a list in angle brackets. -/
theorem lexes_typeArguments (type : Ty) (types : List Ty) :
    Lexes (angled ((type :: types).map Ty.text)) (fun _ => True) TypeArgumentTokens := by
  have hlist := lexes_closed ">" (by decide) (phrase_typeList type types)
  have hopens : ∀ c ∈ (", ".intercalate ((type :: types).map Ty.text) ++ ">").toList.head?,
      c ∉ continuations "<".toList := by
    rw [List.map_cons, intercalate_cons, String.append_assoc]
    exact (type.opensList.append _).head?
  rw [List.map_cons, angled, ← List.map_cons, String.append_assoc]
  refine phrase_less.plain.join hlist hopens ?_
  rintro _ _ ⟨less, rfl, hless, -⟩ ⟨inner, last, rfl, hinner, hlast⟩
  exact .mk hless hinner hlast

/-- Arguments are read as a list in round brackets. -/
theorem lexes_argumentList (arguments : List Expr) :
    Lexes (argumentList arguments) (fun _ => True) ArgumentTokens := by
  have hitems := phrase_items fun e (_ : e ∈ arguments) => e.takesMembers
  rw [Expr.texts_eq_map] at hitems
  have hlist := phrase_between "(" ")" (by decide)
    (lexes_inert ")" (by decide) (by decide) hitems)
  refine hlist.plain.mono ?_
  rintro _ ⟨first, inner, last, rfl, hfirst, -, hinner, hlast⟩
  exact .mk hfirst hinner hlast

theorem phrase_new : Phrase "new" (· = ' ') fun ts => ∃ t, ts = [t] ∧ t.IsWord "new" :=
  (phrase_letters rfl (by decide) (List.all_eq_true.mp (by decide))).mono
    (by rintro _ rfl; decide) fun _ => id

section

variable (callee : Path) (type : Ty) (types : List Ty) (arguments : List Expr)

/-- The type arguments of a constructor are removed, and its path is kept. -/
theorem erases_instance :
    ErasesPhrase (callee.text ++ angled ((type :: types).map Ty.text)) callee.text (fun _ => True)
      fun ms => ∃ path types, ms = allKept path ++ allRemoved types ∧ PathTokens path ∧
        TypeArgumentTokens types := by
  have hinstance : ErasesPhrase (callee.text ++ angled ((type :: types).map Ty.text))
      (callee.text ++ "") (fun _ => True) fun ms => ∃ path types,
        ms = allKept path ++ allRemoved types ∧ PathTokens path ∧ TypeArgumentTokens types := by
    refine callee.phrase.keep.join (lexes_typeArguments type types).remove
      (by simp [angled, Delimits, delimiters]) ?_
    rintro _ _ ⟨path, rfl, hpath⟩ ⟨ts, rfl, htypes⟩
    exact ⟨path, ts, rfl, hpath, htypes⟩
  rwa [String.append_empty] at hinstance

/-- The type arguments of a call are removed, and its path and arguments are kept. -/
theorem erases_call :
    ErasesPhrase (callee.text ++ angled ((type :: types).map Ty.text) ++ argumentList arguments)
      (callee.text ++ argumentList arguments) (fun _ => True) fun ms => ∃ path types arguments,
        ms = allKept path ++ (allRemoved types ++ allKept arguments) ∧ PathTokens path ∧
          TypeArgumentTokens types ∧ ArgumentTokens arguments := by
  refine (erases_instance callee type types).join (lexes_argumentList arguments).keep (by simp) ?_
  rintro _ _ ⟨path, ts, rfl, hpath, htypes⟩ ⟨us, rfl, harguments⟩
  exact ⟨path, ts, us, by simp, hpath, htypes, harguments⟩

end

/-- The word `new` stands in front of a value. -/
theorem ErasesPhrase.new {text erased : String} {stops : Char → Prop}
    {P : List (Token × Bool) → Prop} (h : ErasesPhrase text erased stops P) :
    ErasesPhrase ("new " ++ text) ("new " ++ erased) stops fun ms => ∃ word ns,
      ms = (word, true) :: ns ∧ word.IsWord "new" ∧ P ns := by
  have hnew : "new " = "new" ++ " " := rfl
  rw [hnew, String.append_assoc, String.append_assoc]
  refine phrase_new.keep.join h.spaced (by simp) ?_
  rintro _ ns ⟨_, rfl, word, rfl, hword⟩ hns
  exact ⟨word, ns, rfl, hword, hns⟩

/-- A constant whose value has type arguments is erased to the constant without them, and one whose
value compares stays as it is. -/
theorem eraseTypes_genericValue (x : PlainName) (v : GenericValue) :
    eraseTypes (constantText x v.source) = .ok (constantText x v.erased) := by
  have hgeneric : ∀ {source erased : String},
      ErasesPhrase source erased Delimits GenericMarks →
      eraseTypes (constantText x source) = .ok (constantText x erased) := fun h =>
    eraseTypes_constantText x h (fun _ hms => hms.balanced) fun _ _ htable hms =>
      hms.marksValue htable
  cases v with
  | call callee type types arguments =>
    refine hgeneric fun lead hlead => (erases_call callee type types arguments lead hlead).mono
      (fun _ _ => trivial) ?_
    rintro _ ⟨path, ts, us, rfl, hpath, htypes, harguments⟩
    exact .call hpath htypes harguments
  | construct callee type types arguments =>
    rw [show (GenericValue.construct callee type types arguments).source =
      "new " ++ (callee.text ++ angled ((type :: types).map Ty.text) ++ argumentList arguments) by
        simp only [GenericValue.source, String.append_assoc],
      show (GenericValue.construct callee type types arguments).erased =
        "new " ++ (callee.text ++ argumentList arguments) by
        simp only [GenericValue.erased, String.append_assoc]]
    refine hgeneric fun lead hlead =>
      ((erases_call callee type types arguments).new lead hlead).mono (fun _ _ => trivial) ?_
    rintro _ ⟨word, _, rfl, hword, path, ts, us, rfl, hpath, htypes, harguments⟩
    exact .construct hword hpath htypes harguments
  | bare callee type types =>
    rw [GenericValue.source, GenericValue.erased, String.append_assoc]
    refine hgeneric fun lead hlead =>
      ((erases_instance callee type types).new lead hlead).mono (fun _ _ => trivial) ?_
    rintro _ ⟨word, _, rfl, hword, path, ts, rfl, hpath, htypes⟩
    exact .bare hword hpath htypes
  | term e =>
    have hangle : '>' ∉ (constantText x e.text).toList := by
      simp only [constantText, String.toList_append, List.mem_append, not_or]
      exact ⟨⟨⟨⟨by decide, fun h => (x.isTermChar _ h).1 rfl⟩, by decide⟩,
        fun h => (e.isTermChar _ h).1 rfl⟩, by decide⟩
    refine eraseTypes_constantText x e.takes.phrase.keep ?_ ?_
    · rintro _ ⟨ts, rfl, hts⟩
      rw [map_fst_allKept]
      exact hts.balanced
    · rintro table _ htable ⟨ts, rfl, hts⟩ done semicolon behind hcalm - hsemicolon
      rw [map_fst_allKept]
      exact hts.passes htable (TokenTable.is_eq_false_of_not_mem htable hangle (by decide))
        operand_holds_top hcalm (.of_mark hsemicolon (by decide))

end Workflow.Script
