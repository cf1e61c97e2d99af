import Workflow.Proofs.Script.ClassBody

/-!
# Headings of classes

What a heading loses is removed when its first word is read, and the bracket that opens the
body is noted there. A run then passes over what is left of the heading and into the body, and
comes out of a whole class in the state in which it went in.
-/

namespace Workflow.Script

open Erasure

/-- The tokens of the class that another one extends, if there is one. -/
inductive BaseMarks : List (Token × Bool) → Prop
  | nil : BaseMarks []
  | base {word name : Token} {angle : List Token} : word.IsWord "extends" → name.IsName →
      AngleTokens angle → BaseMarks ((word, true) :: (name, true) :: allRemoved angle)

/-- The tokens of types with commas between them. -/
inductive TypeListTokens : List Token → Prop
  | last {ts : List Token} {grouped : Bool} : TypeTokens grouped ts → TypeListTokens ts
  | cons {comma : Token} {ts us : List Token} {grouped : Bool} : TypeTokens grouped ts →
      comma.IsMark "," → TypeListTokens us → TypeListTokens (ts ++ comma :: us)

/-- The tokens of what a class implements, if it implements anything. -/
inductive InterfaceTokens : List Token → Prop
  | nil : InterfaceTokens []
  | list {word : Token} {ts : List Token} : word.IsWord "implements" → TypeListTokens ts →
      InterfaceTokens (word :: ts)

/-- The tokens of a class up to its body. -/
inductive HeadingMarks : List (Token × Bool) → Prop
  | mk {word name : Token} {angle listed : List Token} {bs : List (Token × Bool)} :
      word.IsWord "class" → name.IsName → AngleTokens angle → BaseMarks bs →
      InterfaceTokens listed →
      HeadingMarks ((word, true) :: (name, true) :: (allRemoved angle ++ (bs ++ allRemoved listed)))

/-- The tokens of a class. -/
inductive ClassMarks : List (Token × Bool) → Prop
  | mk {block close : Token} {hs ms : List (Token × Bool)} : HeadingMarks hs →
      block.IsMark "\x7b" → MembersMarks ms → close.IsMark "\x7d" →
      ClassMarks (hs ++ (block, true) :: (ms ++ [(close, true)]))

/-- The token ends the clause of the class that another one extends. -/
def Token.EndsBase (u : Token) : Prop := u.IsMark "\x7b" ∨ u.IsWord "implements"

variable {source : String} {table : TokenTable} {ms bs done : List (Token × Bool)} {s : Erasure}
  {t u name next : Token} {angle listed ts rest behind : List Token} {f : Frame}
  {outer : List Frame}

/-- The token behind a base is no other mark or word. -/
theorem Token.EndsBase.is_eq_false {text : String} (hu : u.EndsBase)
    (htext : text ≠ "\x7b" ∧ text ≠ "implements") :
    u.is text = false := by
  rcases hu with hu | hu
  · rw [hu.is, beq_eq_false_iff_ne]
    exact htext.1.symm
  · rw [hu.is, beq_eq_false_iff_ne]
    exact htext.2.symm

/-- Behind the class that another one extends, the list of interfaces or the body starts. -/
theorem InterfaceTokens.exists_next (h : InterfaceTokens listed) (hu : u.IsMark "\x7b")
    (rest : List Token) : ∃ v others, listed ++ u :: rest = v :: others ∧ v.EndsBase := by
  cases h with
  | nil => exact ⟨u, rest, rfl, .inl hu⟩
  | list hword _ => exact ⟨_, _, rfl, .inr hword⟩

/-- What stands behind the name of a class does not start with an angle bracket. -/
theorem BaseMarks.exists_next (h : BaseMarks bs) (hu : u.EndsBase) (rest : List Token) :
    ∃ v others, bs.map Prod.fst ++ u :: rest = v :: others ∧ v.is "<" = false := by
  cases h with
  | nil => exact ⟨u, rest, rfl, hu.is_eq_false (by decide)⟩
  | base hword _ _ => exact ⟨_, _, rfl, by rw [hword.is]; rfl⟩

/-- The types that a class implements end in front of its body. -/
theorem TypeListTokens.typeListEnd {k : Nat} (h : TypeListTokens ts)
    (htable : tokenize source = .ok table) (hk : table.Ahead k (ts ++ u :: rest))
    (hu : u.IsMark "\x7b") : Answers (Erasure.typeListEnd table k) (k + ts.length) := by
  induction h generalizing k with
  | @last ts grouped hts =>
    have hends : u.EndsType grouped := hu.endsType (by decide) (by simp)
    obtain ⟨hlt, hend⟩ := hts.typeEnd htable hk hends.outside hends.arrow
    have hstop : table.is (k + ts.length) "," = false := by rw [hk.append.is, hu.is]; rfl
    rw [Erasure.typeListEnd, hend]
    simp only [bind, Except.bind]
    rw [dif_neg (by simp [hstop])]
    exact ⟨hlt, rfl⟩
  | @cons comma ts us grouped hts hcomma _ ih =>
    have hends : comma.EndsType grouped := hcomma.endsType (by decide) (by simp)
    rw [List.append_assoc, List.cons_append] at hk
    obtain ⟨hlt, hend⟩ := hts.typeEnd htable hk hends.outside hends.arrow
    obtain ⟨hlt', hend'⟩ := ih hk.append.tail
    have hmore : table.is (k + ts.length) "," = true := by rw [hk.append.is, hcomma.is]; rfl
    rw [Erasure.typeListEnd, hend]
    simp only [bind, Except.bind]
    rw [dif_pos hmore, hend']
    have hstop : k + (ts ++ comma :: us).length = k + ts.length + 1 + us.length := by
      simp only [List.length_append, List.length_cons]
      omega
    rw [hstop]
    exact ⟨Index.lt_of_lt_of_succ_lt hlt hlt', rfl⟩

namespace Erasure

/-- A list in angle brackets is removed where it may stand. -/
theorem exists_removeTypeList (htable : tokenize source = .ok table)
    (hs : s.At table done (angle ++ u :: rest)) (hangle : AngleTokens angle)
    (hu : u.is "<" = false) :
    ∃ s', s.removeTypeList table done.length =
        .ok (((allRemoved angle).reverse ++ done).length, s') ∧ SamePlace s s' ∧
      s'.At table ((allRemoved angle).reverse ++ done) (u :: rest) := by
  have hend := hangle.angleEnd htable hs.ahead hu
  by_cases hopens : table.is done.length "<" = true
  · rw [if_pos hopens] at hend
    obtain ⟨_, hend⟩ := hend
    refine ⟨_, ?_, .remove, hs.removeTo⟩
    rw [removeTypeList, if_pos hopens, hend, length_allRemoved]
    rfl
  · rw [if_neg hopens] at hend
    subst hend
    refine ⟨s, ?_, .refl s, hs⟩
    rw [removeTypeList, if_neg hopens]
    rfl

/-- The type parameters behind the name of a class are removed. -/
theorem exists_classParameters {i : Nat} (htable : tokenize source = .ok table)
    (hs : s.At table done (name :: (angle ++ u :: rest))) (hi : i + 1 = done.length)
    (hname : name.IsName) (hangle : AngleTokens angle) (hu : u.is "<" = false) :
    ∃ s', s.classParameters table i =
        .ok (((allRemoved angle).reverse ++ (name, true) :: done).length, s') ∧ SamePlace s s' ∧
      s'.At table ((allRemoved angle).reverse ++ (name, true) :: done) (u :: rest) := by
  have hahead := hs.ahead
  rw [← hi] at hahead
  have hnamed : (table.isWord (i + 1) && !table.is (i + 1) "extends" &&
      !table.is (i + 1) "implements") = true := by
    rw [hahead.isWord, hahead.is, hahead.is, hname.1, hname.is_eq_false (.inl (by decide)),
      hname.is_eq_false (.inl (by decide))]
    rfl
  obtain ⟨s', hremoved, hsame, hmarks⟩ := exists_removeTypeList htable hs.keep hangle hu
  refine ⟨s', ?_, hsame, hmarks⟩
  rw [classParameters, if_pos hnamed, ← hremoved, List.length_cons, ← hi]

theorem SamePlace.trans {s₁ s₂ : Erasure} (h : SamePlace s s₁) (h' : SamePlace s₁ s₂) :
    SamePlace s s₂ :=
  ⟨h'.frame.trans h.frame, h'.outer.trans h.outer, h'.bodies.trans h.bodies⟩

/-- Where the heading goes on without a base nothing is removed. -/
theorem extendsClause_of_endsBase {k : Nat} (hahead : table.Ahead k (u :: rest)) (hu : u.EndsBase) :
    extendsClause table s k = .ok (k, s) := by
  have hends : table.is k "\x7b" = true ∨ table.is k "implements" = true := by
    rw [hahead.is, hahead.is]
    exact hu.imp (fun h => by rw [h.is]; rfl) fun h => by rw [h.is]; rfl
  unfold extendsClause
  rw [dif_neg (by rcases hends with h | h <;> simp [h])]

/-- A name is passed over in the search for the end of a base. -/
theorem extendsClause_name (hs : s.At table done (name :: rest)) (hrest : rest ≠ [])
    (hname : name.IsName) :
    extendsClause table s done.length = extendsClause table s (done.length + 1) := by
  have hother :
      ∀ text ∈ ["\x7b", "implements", "<", "(", "["], table.is done.length text = false := by
    intro text htext
    rw [hs.ahead.is]
    refine hname.is_eq_false ?_
    revert text
    decide
  rw [extendsClause, dif_pos ⟨hs.lt_finish hrest, by simp [hother], by simp [hother]⟩]
  simp [hother]

/-- The type arguments of the class that another one extends are removed. -/
theorem exists_extendsClause (htable : tokenize source = .ok table)
    (hs : s.At table ((name, true) :: done) (angle ++ u :: rest)) (hname : name.IsName)
    (hangle : AngleTokens angle) (hu : u.EndsBase) :
    ∃ s', extendsClause table s ((name, true) :: done).length =
        .ok (((allRemoved angle).reverse ++ (name, true) :: done).length, s') ∧ SamePlace s s' ∧
      s'.At table ((allRemoved angle).reverse ++ (name, true) :: done) (u :: rest) := by
  cases hangle with
  | nil => exact ⟨s, extendsClause_of_endsBase hs.ahead hu, .refl s, hs⟩
  | @list opening closing inner hopening hinner hclosing =>
    have hopens : table.is ((name, true) :: done).length "<" = true := by
      rw [hs.ahead.is, hopening.is]
      rfl
    have hword : table.isWord (((name, true) :: done).length - 1) = true := by
      have hmarked : table.marked s = done.reverse ++ (name, true) ::
          ((opening :: (inner ++ [closing]) ++ u :: rest).map fun t => (t, true)) := by
        simpa [At] using hs
      have hahead : table.Ahead done.length (name :: _) := ahead_of_marked hmarked
      rw [List.length_cons, Nat.add_sub_cancel, hahead.isWord, hname.1]
      rfl
    have hend := (AngleTokens.list hopening hinner hclosing).angleEnd htable hs.ahead
      (hu.is_eq_false (by decide))
    rw [if_pos hopens] at hend
    obtain ⟨_, hend⟩ := hend
    have hcontinues : ¬ table.is ((name, true) :: done).length "\x7b" = true ∧
        ¬ table.is ((name, true) :: done).length "implements" = true := by
      rw [hs.ahead.is, hs.ahead.is, hopening.is, hopening.is]
      exact ⟨Bool.false_ne_true, Bool.false_ne_true⟩
    refine ⟨_, ?_, .remove, hs.removeTo⟩
    rw [extendsClause, dif_pos ⟨hs.lt_finish (by simp), hcontinues⟩]
    simp only [hopens, hword, hend, Bool.and_self, if_true, bind, Except.bind]
    rw [← length_allRemoved]
    exact extendsClause_of_endsBase hs.removeTo.ahead hu

/-- From a base its type arguments are removed. -/
theorem exists_classBase (htable : tokenize source = .ok table)
    (hs : s.At table done (bs.map Prod.fst ++ u :: rest)) (hbs : BaseMarks bs) (hu : u.EndsBase) :
    ∃ s', s.classBase table done.length = .ok ((bs.reverse ++ done).length, s') ∧ SamePlace s s' ∧
      s'.At table (bs.reverse ++ done) (u :: rest) := by
  cases hbs with
  | nil =>
    have hnone : table.is done.length "extends" = false :=
      (hs.ahead.is _).trans (hu.is_eq_false (by decide))
    exact ⟨s, by rw [classBase, hnone]; rfl, .refl s, hs⟩
  | @base word name angle hword hname hangle =>
    have hs' : s.At table done (word :: name :: (angle ++ u :: rest)) := by simpa using hs
    have hextends : table.is done.length "extends" = true := by
      rw [hs'.ahead.is, hword.is]
      rfl
    obtain ⟨s', hclause, hsame, hmarks⟩ := exists_extendsClause htable hs'.keep.keep hname hangle hu
    refine ⟨s', ?_, hsame, by simpa using hmarks⟩
    have hskip := extendsClause_name hs'.keep (by simp) hname
    rw [classBase, if_pos hextends]
    simpa using hskip.trans hclause

/-- The interfaces of a class are removed, with the word in front of them. -/
theorem exists_classInterfaces (htable : tokenize source = .ok table)
    (hs : s.At table done (listed ++ u :: rest)) (hlisted : InterfaceTokens listed)
    (hu : u.IsMark "\x7b") :
    ∃ s', s.classInterfaces table done.length =
        .ok (((allRemoved listed).reverse ++ done).length, s') ∧ SamePlace s s' ∧
      s'.At table ((allRemoved listed).reverse ++ done) (u :: rest) := by
  cases hlisted with
  | nil =>
    have hnone : table.is done.length "implements" = false := by
      rw [hs.ahead.is, hu.is]
      rfl
    exact ⟨s, by rw [classInterfaces, hnone]; rfl, .refl s, hs⟩
  | @list word ts hword hts =>
    have himplements : table.is done.length "implements" = true := by
      rw [hs.ahead.is, hword.is]
      rfl
    obtain ⟨_, hend⟩ := hts.typeListEnd htable hs.ahead.tail hu
    refine ⟨_, ?_, .remove, hs.removeTo⟩
    have hstop : done.length + 1 + ts.length =
        ((allRemoved (word :: ts)).reverse ++ done).length := by
      rw [length_allRemoved, List.length_cons]
      omega
    rw [classInterfaces, if_pos himplements, hend, ← hstop]
    rfl

/-- What only exists for types is removed from a heading, and its body is noted. -/
theorem exists_classHeading (htable : tokenize source = .ok table)
    (hs : s.At table done (ms.map Prod.fst ++ u :: rest)) (hms : HeadingMarks ms)
    (hu : u.IsMark "\x7b") :
    ∃ s', s.classHeading table done.length =
        .ok { s' with classBodies := (ms.reverse ++ done).length :: s'.classBodies } ∧
      SamePlace s s' ∧ s'.At table (ms.reverse ++ done) (u :: rest) := by
  obtain @⟨word, name, angle, listed, bs, hword, hname, hangle, hbs, hlisted⟩ := hms
  have hs₀ : s.At table done
      (word :: name :: (angle ++ (bs.map Prod.fst ++ (listed ++ u :: rest)))) := by
    simpa using hs
  obtain ⟨v, others, hbehind, hv⟩ := hlisted.exists_next hu rest
  rw [hbehind] at hs₀
  obtain ⟨w, others', hbehind', hw⟩ := hbs.exists_next hv others
  rw [hbehind'] at hs₀
  obtain ⟨s₁, hparameters, hsame₁, hs₁⟩ :=
    exists_classParameters htable hs₀.keep rfl hname hangle hw
  rw [← hbehind'] at hs₁
  obtain ⟨s₂, hbase, hsame₂, hs₂⟩ := exists_classBase htable hs₁ hbs hv
  rw [← hbehind] at hs₂
  obtain ⟨s₃, hinterfaces, hsame₃, hs₃⟩ := exists_classInterfaces htable hs₂ hlisted hu
  have hmarks : (allRemoved listed).reverse ++ (bs.reverse ++ ((allRemoved angle).reverse ++
      (name, true) :: (word, true) :: done)) =
      ((word, true) :: (name, true) :: (allRemoved angle ++ (bs ++ allRemoved listed))).reverse ++
        done := by simp
  rw [hmarks] at hs₃ hinterfaces
  refine ⟨s₃, ?_, (hsame₁.trans hsame₂).trans hsame₃, hs₃⟩
  simp only [classHeading, hparameters, hbase, hinterfaces, bind, Except.bind]
  rw [openBody, if_pos (by rw [hs₃.ahead.is, hu.is]; rfl)]
  rfl

/-- The curly bracket that a heading has noted opens the body of a class. -/
theorem step_classBody {k : Nat} (hahead : table.Ahead k (u :: rest)) (hu : u.IsMark "\x7b")
    (hbody : k ∈ s.classBodies) :
    s.step table k = .ok ((s.openBracket table k .classBody true).advance k) := by
  have hnoted : s.classBodies.contains k = true := List.contains_iff_mem.mpr hbody
  rw [step_mark hahead hu, punctuator, hahead.text, hu.2]
  simp only [hnoted]
  rfl

end Erasure

theorem TypeListTokens.balanced (h : TypeListTokens ts) : Balanced ts := by
  induction h with
  | last hts => exact hts.enclosed.balanced
  | cons hts hcomma _ ih => exact hts.enclosed.balanced.append (.of_mark hcomma (by decide) ih)

theorem InterfaceTokens.balanced (h : InterfaceTokens listed) : Balanced listed := by
  cases h with
  | nil => exact .nil
  | list hword hts => exact .of_word hword (by decide) hts.balanced

theorem BaseMarks.balanced (h : BaseMarks bs) : Balanced (bs.map Prod.fst) := by
  cases h with
  | nil => exact .nil
  | base hword hname hangle =>
    simpa using Balanced.of_word hword (by decide) (.of_name hname hangle.balanced)

namespace HeadingMarks

/-- The tokens of the heading of a class are balanced. -/
theorem balanced (h : HeadingMarks ms) : Balanced (ms.map Prod.fst) := by
  obtain ⟨hword, hname, hangle, hbs, hlisted⟩ := h
  have hbehind := hangle.balanced.append (hbs.balanced.append hlisted.balanced)
  simpa using Balanced.of_word hword (by decide) (.of_name hname hbehind)

/-- The word is no more than a name. -/
def IsPassedWord (t : Token) : Prop := t.kind = .word ∧ t.text ∉ roleWords ∧ IsCalm t

/-- Behind the first word of a heading, what is kept is words without a role. -/
theorem exists_words (h : HeadingMarks ms) : ∃ word ns, ms = (word, true) :: ns ∧
    word.IsWord "class" ∧ ∀ m ∈ ns, m.2 = true → IsPassedWord m.1 := by
  obtain @⟨word, name, angle, listed, bs, hword, hname, hangle, hbs, hlisted⟩ := h
  have hnamed : ∀ {t : Token}, t.IsName → IsPassedWord t :=
    fun ht => ⟨ht.1, notMem_roleWords ht, isCalm_of_isName ht⟩
  have hremoved : ∀ ts : List Token, ∀ m ∈ allRemoved ts, m.2 = true → IsPassedWord m.1 := by
    simp [allRemoved]
  have hbase : ∀ m ∈ bs, m.2 = true → IsPassedWord m.1 := by
    cases hbs with
    | nil => simp
    | base hextends hbase _ =>
      simp only [List.forall_mem_cons]
      exact ⟨fun _ => ⟨hextends.1, by rw [hextends.2]; decide,
        isCalm_of_is hextends.is (by decide)⟩,
        fun _ => hnamed hbase, hremoved _⟩
  refine ⟨word, _, rfl, hword, ?_⟩
  simp only [List.forall_mem_cons, List.forall_mem_append]
  exact ⟨fun _ => hnamed hname, hremoved _, hbase, hremoved _⟩

/-- No kept token of the heading of a class gives a bracket a meaning. -/
theorem isCalm (h : HeadingMarks ms) : ∀ m ∈ ms, m.2 = true → IsCalm m.1 := by
  obtain ⟨word, ns, rfl, hword, hns⟩ := h.exists_words
  exact List.forall_mem_cons.mpr ⟨fun _ => isCalm_of_is hword.is (by decide),
    fun m hm hkept => (hns m hm hkept).2.2⟩

/-- A run keeps of a heading what is no type, and goes on in the body of the class. -/
theorem leads {block : Token} (h : HeadingMarks ms) (htable : tokenize source = .ok table)
    (hblock : block.IsMark "\x7b") (hrest : rest ≠ []) (hclass : f.kind ≠ .classBody)
    (hsettled : Settled f) (hbefore : Unpointed done) :
    Leads table ⟨done, ms.map Prod.fst ++ block :: rest, f, outer⟩
      ⟨(block, true) :: (ms.reverse ++ done), rest, .fresh .classBody, f :: outer⟩ := by
  intro s hs
  obtain ⟨s', hheading, hsame, hmarks⟩ := exists_classHeading htable hs.marks h hblock
  obtain ⟨word, ns, rfl, hword, hns⟩ := h.exists_words
  have hframe : s'.frame = f := hsame.frame.trans hs.frame
  have houter : s'.outer = outer := hsame.outer.trans hs.outer
  have hrev : ((word, true) :: ns).reverse ++ done = ns.reverse ++ (word, true) :: done := by simp
  rw [hrev] at hheading hmarks ⊢
  generalize hk : (ns.reverse ++ (word, true) :: done).length = k at hheading
  generalize hnoted : ({ s' with classBodies := k :: s'.classBodies } : Erasure) = s₁ at hheading
  have hmarks₁ : s₁.At table (ns.reverse ++ (word, true) :: done) (block :: rest) :=
    hmarks.of_kept (by rw [← hnoted])
  have hframe₁ : s₁.frame = f := by rw [← hnoted, ← hframe]
  have houter₁ : s₁.outer = outer := by rw [← hnoted, ← houter]
  have hbodies₁ : s₁.classBodies = k :: s.classBodies := by rw [← hnoted, hsame.bodies]
  have hstep : s.step table done.length = .ok (s₁.advance done.length) := by
    rw [step_eq_plainWord hs hword.1 (by rw [hword.2]; decide)
      (.inl (by rw [hword.2]; decide)) hclass hbefore, plainWord, hs.ahead.text, hword.2, hheading]
    rfl
  have hskipped := run_marked hmarks₁ (by simp) (hframe₁ ▸ hsettled) fun m hm hkept =>
    ⟨(hns m hm hkept).1, (hns m hm hkept).2.1, hframe₁ ▸ hclass⟩
  have hopened :=
    step_classBody hmarks₁.ahead hblock (by rw [hbodies₁, hk]; exact List.mem_cons_self)
  rw [openBracket_eq (hframe₁ ▸ hsettled), hframe₁, houter₁] at hopened
  refine ⟨{ s₁ with frame := .fresh .classBody, outer := f :: outer },
    ⟨hmarks₁.keep.of_kept rfl, rfl, rfl, ?_⟩, ?_⟩
  · have hbefore : ∀ j ∈ s₁.classBodies, j < k + 1 := by
      rw [hbodies₁]
      refine List.forall_mem_cons.mpr ⟨Nat.lt_succ_self k, fun j hj => ?_⟩
      have hj' : j < done.length := hs.bodies j hj
      simp only [List.length_append, List.length_cons] at hk
      omega
    rw [← hk] at hbefore
    exact hbefore
  · rw [run_step hs.marks (by simp) rfl hstep]
    exact hskipped.trans (run_step hmarks₁ hrest rfl hopened)

end HeadingMarks

namespace ClassMarks

/-- The tokens of a class are balanced. -/
theorem balanced (h : ClassMarks ms) : Balanced (ms.map Prod.fst) := by
  obtain ⟨hhs, hblock, hms, hclose⟩ := h
  have hbody := Balanced.group (hblock.opens? .curly) (hclose.closes? .curly) hms.balanced .nil
  simpa using hhs.balanced.append hbody

/-- A run keeps of a class what is no type. -/
theorem leads {last : Token} (h : ClassMarks ms) (htable : tokenize source = .ok table)
    (hlast : last.kind = .finish) :
    Leads table ⟨[], ms.map Prod.fst ++ [last], .fresh .top, []⟩
      ⟨ms.reverse, [last], .fresh .top, []⟩ := by
  obtain @⟨block, close, hs, ms, hhs, hblock, hms, hclose⟩ := h
  have hnext : last.is ":" = false := by simp [Token.is, hlast]
  have hheading : Leads table
      ⟨[], hs.map Prod.fst ++ block :: (ms.map Prod.fst ++ close :: [last]), .fresh .top, []⟩ _ :=
    hhs.leads htable hblock (by simp) (by decide) (.inl rfl) unpointed_nil
  have hstarts : Erasure.StartsMember ((block, true) :: (hs.reverse ++ [])) :=
    ⟨block, rfl, .inl (by rw [hblock.is]; rfl)⟩
  have hcalm : Calm (recent ((block, true) :: (hs.reverse ++ []))) :=
    (calm_nil.marks hhs.isCalm).mark hblock (by decide)
  have hmembers := hheading.trans (hms.leads htable hcalm hstarts (by rw [hclose.is]; rfl))
  have hclosed := hmembers.trans (leads_close (.inr (.inr hclose)) (.inl rfl) hnext)
  simpa using hclosed

end ClassMarks

end Workflow.Script
