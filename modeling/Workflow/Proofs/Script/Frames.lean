import Mathlib.Logic.Relation
import Workflow.Proofs.Script.Bounds

/-!
# What a step does to the open brackets

Whatever erasure does at a token in front of the end of the source, the reading goes on further
on and at the end of the source at most. The innermost bracket is changed, another one is opened
in it, or it is closed; only a bracket that stands in another one is closed, so one is always
left. A conditional expression that waits for its colon is only taken off if there is one.
-/

namespace Workflow.Script

/-- How many conditional expressions wait for their colon in front of a step and behind it. -/
inductive CountStep : Nat → Nat → Prop
  | same (n : Nat) : CountStep n n
  | more (n : Nat) : CountStep n (n + 1)
  | less (n : Nat) : CountStep (n + 1) n
  | none (n : Nat) : CountStep n 0

/-- The open brackets in front of a step and behind it, innermost first. -/
inductive FrameStep : List Frame → List Frame → Prop
  /-- The innermost bracket stays what it is for. -/
  | within {f g : Frame} {outer : List Frame} : g.kind = f.kind →
      CountStep f.conditionals g.conditionals → FrameStep (f :: outer) (g :: outer)
  /-- A bracket is opened in the innermost one. -/
  | opened {f g : Frame} {kind : FrameKind} {outer : List Frame} : g.kind = f.kind →
      g.conditionals = f.conditionals → FrameStep (f :: outer) (.fresh kind :: g :: outer)
  /-- The innermost bracket is closed, and stood in another one. -/
  | closed {f g parent : Frame} {outer : List Frame} : g.kind = parent.kind →
      g.conditionals = parent.conditionals → FrameStep (f :: parent :: outer) (g :: outer)

namespace Erasure

/-- The open brackets, innermost first. -/
def frames (s : Erasure) : List Frame := s.frame :: s.outer

/-- The reading goes on at the end of the source at most, with open brackets that a step may
leave. -/
structure Proceeds (table : TokenTable) (s : Erasure) {i : Nat} (a : Advance i) : Prop where
  le_finish : a.next ≤ table.finish
  frames : FrameStep s.frames a.state.frames

variable {table : TokenTable} {s t : Erasure} {i k e : Nat} {a : Advance i}

/-- To remove tokens leaves the open brackets as they are. -/
@[simp] theorem frames_remove (first stop : Nat) : (s.remove table first stop).frames = s.frames :=
  rfl

/-- A step may leave the open brackets as they are. -/
theorem FrameStep.same (s : Erasure) : FrameStep s.frames s.frames :=
  .within rfl (.same s.frame.conditionals)

/-! ## Headings and members leave the brackets as they are -/

/-- To remove a list of types leaves the open brackets as they are. -/
theorem frames_removeTypeList (h : s.removeTypeList table k = .ok (e, t)) :
    t.frames = s.frames := by
  unfold removeTypeList at h
  split at h
  · obtain ⟨m, -, h⟩ := exists_of_bind_eq_ok h
    cases h
    rfl
  · cases h
    rfl

/-- The heading of a function leaves the open brackets as they are. -/
theorem frames_functionHeading (h : s.functionHeading table i = .ok t) : t.frames = s.frames := by
  obtain ⟨⟨e, t'⟩, hlist, h⟩ := exists_of_bind_eq_ok h
  cases h
  exact frames_removeTypeList hlist

theorem frames_extendsClause (h : extendsClause table s k = .ok (e, t)) : t.frames = s.frames := by
  fun_induction extendsClause table s k with
  | case1 s k _ _ ih =>
    obtain ⟨⟨m, hm⟩, -, h⟩ := exists_of_bind_eq_ok h
    exact ih m hm h
  | case2 s k _ _ _ ih => exact ih h
  | case3 s k _ _ _ ih => exact ih h
  | case4 s k _ =>
    cases h
    rfl

theorem frames_classParameters (h : s.classParameters table i = .ok (e, t)) :
    t.frames = s.frames := by
  unfold classParameters at h
  simp only at h
  split at h
  · exact frames_removeTypeList h
  · cases h
    rfl

theorem frames_classBase (h : s.classBase table k = .ok (e, t)) : t.frames = s.frames := by
  unfold classBase at h
  split at h
  · exact frames_extendsClause h
  · cases h
    rfl

theorem frames_classInterfaces (h : s.classInterfaces table k = .ok (e, t)) :
    t.frames = s.frames := by
  unfold classInterfaces at h
  split at h
  · obtain ⟨m, -, h⟩ := exists_of_bind_eq_ok h
    cases h
    rfl
  · cases h
    rfl

/-- The body of a class is noted apart from the open brackets. -/
theorem frames_openBody : (s.openBody table k).frames = s.frames := by
  unfold openBody
  split <;> rfl

/-- The heading of a class leaves the open brackets as they are. -/
theorem frames_classHeading (h : s.classHeading table i = .ok t) : t.frames = s.frames := by
  obtain ⟨⟨k₁, s₁⟩, h₁, h⟩ := exists_of_bind_eq_ok h
  obtain ⟨⟨k₂, s₂⟩, h₂, h⟩ := exists_of_bind_eq_ok h
  obtain ⟨⟨k₃, s₃⟩, h₃, h⟩ := exists_of_bind_eq_ok h
  cases h
  rw [frames_openBody, frames_classInterfaces h₃, frames_classBase h₂, frames_classParameters h₁]

/-- The type parameters of a method leave the open brackets as they are. -/
theorem frames_methodParameters {k m : { k : Nat // i < k }}
    (h : s.methodParameters table i k = .ok (m, t)) : t.frames = s.frames := by
  unfold methodParameters at h
  split at h
  · obtain ⟨⟨e, he⟩, -, h⟩ := exists_of_bind_eq_ok h
    simp only at h
    split at h
    · cases h
      rfl
    · cases h
      rfl
  · cases h
    rfl

/-- What is removed at a member of a class leaves the open brackets as they are. -/
theorem frames_classMember {r : Option (TokenTable.Removal i)}
    (h : s.classMember table i = .ok (r, t)) : t.frames = s.frames := by
  unfold classMember at h
  split at h
  · cases h
    rfl
  · split at h
    · cases h
      rfl
    · obtain ⟨⟨m, s₁⟩, h₁, h⟩ := exists_of_bind_eq_ok h
      have hs₁ := frames_methodParameters h₁
      simp only at h
      split at h
      · obtain ⟨n, -, h⟩ := exists_of_bind_eq_ok h
        cases h
        exact hs₁
      · split at h
        · cases h
          exact hs₁
        · cases h
          exact hs₁

/-! ## What is noted of the innermost bracket -/

/-- The function notes something of a bracket that leaves its count as it is. -/
def KeepsCount (f : Frame → Frame) : Prop :=
  ∀ g, (f g).kind = g.kind ∧ (f g).conditionals = g.conditionals

/-- What a word tells of a declaration is no matter of the count. -/
theorem keepsCount_afterWord : KeepsCount Frame.afterWord := by
  intro g
  unfold Frame.afterWord
  split <;> exact ⟨rfl, rfl⟩

theorem keepsCount_afterClose : KeepsCount (Frame.afterClose i) := by
  intro g
  unfold Frame.afterClose
  split <;> exact ⟨rfl, rfl⟩

theorem keepsCount_afterEquals : KeepsCount Frame.afterEquals := by
  intro g
  unfold Frame.afterEquals
  split <;> exact ⟨rfl, rfl⟩

theorem keepsCount_afterComma : KeepsCount Frame.afterComma := by
  intro g
  unfold Frame.afterComma
  split <;> exact ⟨rfl, rfl⟩

/-- To note something of the innermost bracket may be a step. -/
theorem KeepsCount.frameStep {f : Frame → Frame} (hf : KeepsCount f) (s : Erasure) :
    FrameStep s.frames (s.onFrame f).frames := by
  obtain ⟨hkind, hcount⟩ := hf s.frame
  have hsame : CountStep s.frame.conditionals (f s.frame).conditionals := by
    rw [hcount]
    exact .same _
  exact .within hkind hsame

/-- To open a bracket may be a step. -/
theorem frameStep_openBracket (kind : FrameKind) (pattern : Bool) :
    FrameStep s.frames (s.openBracket table i kind pattern).frames := by
  unfold openBracket
  split <;> exact .opened rfl rfl

/-! ## Each step -/

/-- The end of an assertion. -/
theorem stop_le_finish_of_assertion {source : String} (htable : tokenize source = .ok table)
    {r : TokenTable.Removal i} (h : s.assertion table i = .ok (some r)) :
    r.stop ≤ table.finish := by
  unfold assertion at h
  simp only at h
  split at h
  · cases h
  · split at h
    · rename_i hconst
      cases h
      exact lt_finish_of_is htable (Bool.and_eq_true_iff.mp hconst).2
    · obtain ⟨⟨e, he⟩, htype, h⟩ := exists_of_bind_eq_ok h
      cases h
      have hend := typeEnd_le_finish htable htype
      exact hend

/-- The end of what is removed at a member of a class. -/
theorem stop_le_finish_of_classMember {source : String} (htable : tokenize source = .ok table)
    (hi : i < table.finish) {r : TokenTable.Removal i}
    (h : s.classMember table i = .ok (some r, t)) : r.stop ≤ table.finish := by
  unfold classMember at h
  split at h
  · cases h
  · split at h
    · cases h
      exact hi
    · obtain ⟨⟨⟨m, hm⟩, s₁⟩, -, h⟩ := exists_of_bind_eq_ok h
      simp only at h
      split at h
      · obtain ⟨⟨e, he⟩, htype, h⟩ := exists_of_bind_eq_ok h
        cases h
        have hend := typeEnd_le_finish htable htype
        exact hend
      · split at h
        · cases h
        · cases h

/-- Type arguments end at a closing angle bracket. -/
theorem typeArgumentsEnd_le_finish {source : String} (htable : tokenize source = .ok table)
    {r : { m : Nat // i < m }} (hi : table.text i = "<")
    (h : typeArgumentsEnd table i = some r) : r.val ≤ table.finish :=
  (TokenTable.Span.typeArgumentsEnd hi h).le_finish_of_lt htable r.2

namespace Proceeds

/-- What proceeds from the same open brackets proceeds from here. -/
theorem of_frames (h : Proceeds table t a) (hframes : t.frames = s.frames) :
    Proceeds table s a := ⟨h.le_finish, hframes ▸ h.frames⟩

/-- A range is removed, and the reading goes on behind it. -/
theorem beyond {r : TokenTable.Removal i} (hr : r.stop ≤ table.finish)
    (h : FrameStep s.frames t.frames) : Proceeds table s (t.advanceOver table r) := ⟨hr, h⟩

variable {source : String} (htable : tokenize source = .ok table) (hi : i < table.finish)

include hi

/-- The reading goes on with the next token. -/
theorem advance (h : FrameStep s.frames t.frames) : Proceeds table s (t.advance i) := ⟨hi, h⟩

/-- The reading goes on with the next token where the open brackets stay as they are. -/
theorem advance_of_eq (h : t.frames = s.frames) : Proceeds table s (t.advance i) :=
  advance hi (h ▸ FrameStep.same s)

/-- A question mark is removed, or counted as a conditional expression. -/
theorem question : Proceeds table s (s.question table i) := by
  unfold Erasure.question
  simp only
  split
  · exact beyond hi (FrameStep.same s)
  · exact advance hi (.within rfl (.more s.frame.conditionals))

include htable

/-- A word opens no bracket and closes none. -/
theorem plainWord (h : s.plainWord table i = .ok a) : Proceeds table s a := by
  unfold Erasure.plainWord at h
  have honward := advance (s := s) hi (keepsCount_afterWord.frameStep s)
  split at h
  case h_1 | h_2 | h_3 =>
    simp only at h
    split at h
    · cases h
      exact advance hi (.within rfl (.same s.frame.conditionals))
    · cases h
      exact honward
  case h_4 =>
    obtain ⟨s₁, h₁, h⟩ := exists_of_bind_eq_ok h
    cases h
    exact advance_of_eq hi (frames_functionHeading h₁)
  case h_5 =>
    obtain ⟨s₁, h₁, h⟩ := exists_of_bind_eq_ok h
    cases h
    exact advance_of_eq hi (frames_classHeading h₁)
  case h_6 | h_7 =>
    obtain ⟨r, hassertion, h⟩ := exists_of_bind_eq_ok h
    split at h
    · cases h
      exact beyond (stop_le_finish_of_assertion htable hassertion) (FrameStep.same s)
    · cases h
      exact honward
  case h_8 =>
    cases h
    exact honward

/-- A word behind a point and one that is a member are read within their bracket. -/
theorem word (h : s.word table i = .ok a) : Proceeds table s a := by
  unfold Erasure.word at h
  split at h
  · cases h
    exact advance_of_eq hi rfl
  · split at h
    · obtain ⟨⟨r, s₁⟩, h₁, h⟩ := exists_of_bind_eq_ok h
      have hs₁ := frames_classMember h₁
      simp only at h
      split at h
      · cases h
        exact beyond (stop_le_finish_of_classMember htable hi h₁) (hs₁ ▸ FrameStep.same s)
      · exact (plainWord htable hi h).of_frames hs₁
    · split at h
      · cases h
      · exact plainWord htable hi h

/-- A closing bracket closes the innermost one, if that stands in another one. -/
theorem closeBracket (h : s.closeBracket table i = .ok a) : Proceeds table s a := by
  unfold Erasure.closeBracket at h
  split at h
  · cases h
    exact advance hi (keepsCount_afterClose.frameStep s)
  · rename_i parent outer houter
    obtain ⟨hkind, hcount⟩ := keepsCount_afterClose (i := i) parent
    have hclosed : FrameStep s.frames
        (Erasure.frames { s with frame := Frame.afterClose i parent, outer := outer }) := by
      rw [Erasure.frames, houter]
      exact .closed hkind hcount
    simp only at h
    split at h
    · obtain ⟨⟨e, he⟩, htype, h⟩ := exists_of_bind_eq_ok h
      cases h
      have hend := typeEnd_le_finish htable htype
      exact beyond hend hclosed
    · cases h
      exact advance hi hclosed

/-- A colon takes off one conditional expression, or removes a type. -/
theorem colon (h : s.colon table i = .ok a) : Proceeds table s a := by
  unfold Erasure.colon at h
  split at h
  · rename_i hcount
    cases h
    obtain ⟨n, hn⟩ := Nat.exists_eq_add_one_of_ne_zero (Nat.pos_iff_ne_zero.mp hcount)
    have hless : CountStep s.frame.conditionals (s.frame.conditionals - 1) := by
      rw [hn]
      exact .less n
    exact advance hi (.within rfl hless)
  · split at h
    · obtain ⟨⟨e, he⟩, htype, h⟩ := exists_of_bind_eq_ok h
      cases h
      have hend := typeEnd_le_finish htable htype
      exact beyond hend (FrameStep.same s)
    · cases h
      exact advance_of_eq hi rfl

/-- An angle bracket removes a list of types or an assertion, or stands for itself. -/
theorem angle (htext : table.text i = "<") (h : s.angle table i = .ok a) :
    Proceeds table s a := by
  unfold Erasure.angle at h
  simp only at h
  split at h
  · split at h
    · rename_i harguments
      split at h
      · cases h
        exact beyond (typeArgumentsEnd_le_finish htable htext harguments) (FrameStep.same s)
      · cases h
        exact advance_of_eq hi rfl
    · cases h
      exact advance_of_eq hi rfl
  · obtain ⟨⟨e, he⟩, hangle, h⟩ := exists_of_bind_eq_ok h
    simp only at h
    split at h
    · cases h
      have hend := angleEnd_le_finish htable hangle
      exact beyond hend (FrameStep.same s)
    · split at h
      · rename_i harguments
        cases h
        exact beyond (typeArgumentsEnd_le_finish htable htext harguments) (FrameStep.same s)
      · cases h

/-- Whatever a mark stands for, the reading proceeds. -/
theorem punctuator (h : s.punctuator table i = .ok a) : Proceeds table s a := by
  unfold Erasure.punctuator at h
  split at h
  case h_1 | h_2 | h_3 =>
    cases h
    exact advance hi (frameStep_openBracket _ _)
  case h_4 | h_5 | h_6 => exact closeBracket htable hi h
  case h_7 htext => exact angle htable hi htext h
  case h_8 => exact colon htable hi h
  case h_9 =>
    cases h
    exact question hi
  case h_10 =>
    cases h
    refine advance_of_eq hi ?_
    unfold exclamation
    simp only
    split <;> rfl
  case h_11 =>
    cases h
    exact advance hi (keepsCount_afterEquals.frameStep s)
  case h_12 =>
    cases h
    exact advance hi (keepsCount_afterComma.frameStep s)
  case h_13 =>
    cases h
    exact advance hi (.within rfl (.none s.frame.conditionals))
  case h_14 =>
    cases h
    exact advance_of_eq hi rfl

/-- Whatever stands at a token, a step proceeds. -/
theorem step (h : s.step table i = .ok a) : Proceeds table s a := by
  obtain ⟨removal, hremoval, h⟩ := exists_of_bind_eq_ok h
  split at h
  · cases h
    unfold removalAt at hremoval
    split at hremoval
    · exact beyond (statementRemoval_le_finish htable hremoval) (FrameStep.same s)
    · cases hremoval
  · split at h
    · exact word htable hi h
    · exact punctuator htable hi h
    · cases h
      exact advance_of_eq hi rfl

end Proceeds

/-- A colon takes off a conditional expression that waits. Where none waits nothing is taken off,
and the open brackets stay as they are. -/
theorem frames_of_colon (hkind : table.kind i = .punctuator) (htext : table.text i = ":")
    (h : s.step table i = .ok a) :
    (∃ n, s.frame.conditionals = n + 1 ∧
      a.state.frames = { s.frame with conditionals := n } :: s.outer) ∨
    s.frame.conditionals = 0 ∧ a.state.frames = s.frames := by
  have hstart : s.startsStatement table i = false := by
    simp [startsStatement, TokenTable.isWord, hkind]
  have hcolon : s.colon table i = .ok a := by
    simpa [step, removalAt, hstart, hkind, punctuator, htext, pure, Except.pure, bind, Except.bind]
      using h
  unfold colon at hcolon
  split at hcolon
  · rename_i hcount
    cases hcolon
    obtain ⟨n, hn⟩ := Nat.exists_eq_add_one_of_ne_zero (Nat.pos_iff_ne_zero.mp hcount)
    refine .inl ⟨n, hn, ?_⟩
    simp [frames, advance, onFrame, hn]
  · rename_i hcount
    refine .inr ⟨Nat.eq_zero_of_not_pos hcount, ?_⟩
    split at hcolon
    · obtain ⟨m, -, hcolon⟩ := exists_of_bind_eq_ok hcolon
      cases hcolon
      rfl
    · cases hcolon
      rfl

/-! ## The run -/

/-- What a run comes to: after so many passes, what is known at the token that is read next. -/
inductive Reaches (table : TokenTable) : Nat → Erasure → Nat → Prop
  /-- The run starts in front of the first token. -/
  | start : Reaches table 0 (.start table) 0
  /-- A token that has been removed is passed over. -/
  | passed {n i : Nat} {s : Erasure} : Reaches table n s i → i < table.finish →
      s.keeps i = false → Reaches table (n + 1) s (i + 1)
  /-- A token that is still kept is read. -/
  | stepped {n i : Nat} {s : Erasure} {a : Advance i} : Reaches table n s i → i < table.finish →
      s.keeps i = true → s.step table i = .ok a → Reaches table (n + 1) a.state a.next

/-- A run goes forward through the tokens, and its open brackets and marks fit them. -/
structure RunsForward (table : TokenTable) : Prop where
  /-- What is come to is part of the run. -/
  run_eq : ∀ {n i s}, Reaches table n s i → run table (.start table) 0 = run table s i
  /-- The run comes to the end of the source, or to a token that is refused. -/
  ends : (∃ n s, Reaches table n s table.finish ∧ run table (.start table) 0 = .ok s) ∨
    ∃ n s i fault, Reaches table n s i ∧ s.step table i = .error fault ∧
      run table (.start table) 0 = .error fault
  /-- There are no more passes than tokens in front of the end of the source. -/
  passes : ∀ {n i s}, Reaches table n s i → n ≤ i ∧ i ≤ table.finish
  /-- Each step goes forward, and to the end of the source at most. -/
  forward : ∀ {n i s a}, Reaches table n s i → i < table.finish → s.step table i = .ok a →
    i < a.next ∧ a.next ≤ table.finish
  /-- Each step leaves a bracket open, and takes off a conditional expression only if one
  waits. -/
  steps : ∀ {n i s a}, Reaches table n s i → i < table.finish → s.step table i = .ok a →
    FrameStep s.frames a.state.frames
  /-- Where no conditional expression waits for a colon, none is taken off. -/
  colons : ∀ {n i s a}, Reaches table n s i → table.kind i = .punctuator → table.text i = ":" →
    s.step table i = .ok a →
      (∃ waiting, s.frame.conditionals = waiting + 1 ∧
        a.state.frames = { s.frame with conditionals := waiting } :: s.outer) ∨
      s.frame.conditionals = 0 ∧ a.state.frames = s.frames
  /-- The open brackets have come about by such steps. -/
  frames : ∀ {n i s}, Reaches table n s i →
    Relation.ReflTransGen FrameStep [.fresh .top] s.frames
  /-- There is a mark for every token. -/
  size_kept : ∀ {n i s}, Reaches table n s i → s.kept.size = table.tokens.size

section

variable {source : String} {n : Nat}

/-- No removal changes how many marks there are. -/
theorem keptByRemoval_size (table : TokenTable) (size : Nat) :
    KeptByRemoval table fun kept => kept.size = size := by
  intro s first stop _ hs
  simpa [remove] using hs

namespace Reaches

/-- What is come to is come to by the run, which goes on from there. -/
theorem run_eq (h : Reaches table n s i) : run table (.start table) 0 = run table s i := by
  induction h with
  | start => rfl
  | @passed n i s _ hi hkeeps ih =>
    rw [ih, run, dif_pos hi, if_neg (by simp [hkeeps])]
  | @stepped n i s a _ hi hkeeps hstep ih =>
    rw [ih, run, dif_pos hi, if_pos hkeeps, hstep]

/-- Each pass takes the run forward by a token at least. -/
theorem passes (h : Reaches table n s i) (htable : tokenize source = .ok table) :
    n ≤ i ∧ i ≤ table.finish := by
  induction h with
  | start => exact ⟨Nat.le_refl 0, Nat.zero_le _⟩
  | passed _ hi _ ih => exact ⟨Nat.succ_le_succ ih.1, hi⟩
  | @stepped n i s a _ hi _ hstep ih =>
    have hlt := a.lt
    exact ⟨by omega, (Proceeds.step htable hi hstep).le_finish⟩

/-- From one place to the next the open brackets change as one step may change them. -/
theorem frames (h : Reaches table n s i) (htable : tokenize source = .ok table) :
    Relation.ReflTransGen FrameStep [.fresh .top] s.frames := by
  induction h with
  | start => exact .refl
  | passed _ _ _ ih => exact ih
  | stepped _ hi _ hstep ih => exact ih.tail (Proceeds.step htable hi hstep).frames

/-- For each token it is known whether it is kept. -/
theorem size_kept (h : Reaches table n s i) : s.kept.size = table.tokens.size := by
  induction h with
  | start => exact Array.size_replicate
  | passed _ _ _ ih => exact ih
  | stepped _ _ _ hstep ih => exact (keptByRemoval_size table _).step hstep ih

/-- A run that has come to a token goes on to the end of the source or to a token that is
refused. -/
theorem ends (h : Reaches table n s i) (htable : tokenize source = .ok table) :
    (∃ m t, Reaches table m t table.finish ∧ run table s i = .ok t) ∨
      ∃ m t k fault, Reaches table m t k ∧ t.step table k = .error fault ∧
        run table s i = .error fault := by
  fun_induction run table s i generalizing n with
  | case1 s i _ _ fault hstep => exact .inr ⟨n, s, i, fault, h, hstep, rfl⟩
  | case2 s i hi hkeeps advance hstep ih => exact ih (h.stepped hi hkeeps hstep)
  | case3 s i hi hkeeps ih => exact ih (h.passed hi (by simpa using hkeeps))
  | case4 s i hi =>
    obtain rfl : i = table.finish := by
      have := (h.passes htable).2
      omega
    exact .inl ⟨n, s, h, rfl⟩

end Reaches

/-- The run of every source that has a table goes forward. -/
theorem runsForward_of_tokenize (htable : tokenize source = .ok table) : RunsForward table where
  run_eq h := h.run_eq
  ends := Reaches.start.ends htable
  passes h := h.passes htable
  forward {_ _ _ a} _ hi hstep := ⟨a.lt, (Proceeds.step htable hi hstep).le_finish⟩
  steps _ hi hstep := (Proceeds.step htable hi hstep).frames
  colons _ hkind htext hstep := frames_of_colon hkind htext hstep
  frames h := h.frames htable
  size_kept h := h.size_kept

end

end Erasure

end Workflow.Script
