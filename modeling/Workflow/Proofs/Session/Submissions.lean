import Workflow.Proofs.Session.Freshness
import Workflow.Session.Submit

/-!
# Attempts to submit a draft

A draft may be submitted again and again, by several callers at once, and each attempt goes on
by itself: it begins, asks the store, and ends with the answer, unless its caller gives it up.
Whatever the order of these actions, the drafts of the attempts under way are the one that the
session holds, so there is never more than one of them. Submitting borrows the session, so a
draft is edited only while no attempt is under way.
-/

namespace Workflow

/-- How far an attempt to submit a draft has come. -/
inductive Attempt where
  /-- It has begun, and the store has not been asked. -/
  | accepted (x : Submission)
  /-- The store has been asked and has not answered. -/
  | calling (x : Submission)
  /-- The caller has got a result. -/
  | ended (result : Except SubmitError Submitted)
  /-- The caller has given it up. -/
  | dropped

namespace Attempt

/-- The draft of an attempt that has begun and has neither ended nor been given up. -/
def pending? : Attempt → Option Submission
  | .accepted x | .calling x => some x
  | .ended _ | .dropped => none

/-- Whether the store has been asked and has not answered. -/
def isCalling : Attempt → Bool
  | .calling _ => true
  | _ => false

/-- Whether an attempt ended without having begun. -/
def IsRefused : Attempt → Prop
  | .ended (.error .inFlight) | .ended (.error (.compile _)) => True
  | _ => False

/-- Whether the store may have been asked. -/
def MayHaveCalled : Attempt → Prop
  | .accepted _ => False
  | a => ¬a.IsRefused

end Attempt

/-- A call of the store, with the attempt that makes it and the session at that time. -/
structure Session.Issued where
  /-- The number of the attempt. -/
  attempt : Nat
  /-- The session when the store was asked. -/
  session : Session
  /-- What the store was asked. -/
  call : Call

/-- A session and the attempts to submit it. -/
structure Session.Traffic where
  /-- The session. -/
  session : Session
  /-- The attempts in the order in which they were made. -/
  attempts : List Attempt
  /-- The calls of the store in order. -/
  calls : List Issued

namespace Session

/-- One thing that happens at a session. -/
inductive Traffic.Action where
  /-- A caller begins to submit. -/
  | start
  /-- An attempt asks the store. -/
  | call (i : Nat)
  /-- The store answers an attempt. -/
  | answer (i : Nat) (answer : Except ClientError Unit)
  /-- The caller of an attempt gives it up. -/
  | drop (i : Nat)
  /-- The session is edited; only the submission under way is out of reach. -/
  | edit (s : Session)

namespace Traffic

variable (t : Traffic)

/-- The traffic of a session that nobody has submitted yet. -/
def ofSession (s : Session) : Traffic := ⟨s, [], []⟩

/-- An attempt begins, or ends at once. -/
def start : Traffic :=
  match t.session.beginSubmission with
  | .error e => { t with attempts := t.attempts ++ [.ended (.error e)] }
  | .ok (begun, x) => { t with session := begun, attempts := t.attempts ++ [.accepted x] }

/-- An attempt that was under way is over, and the session is free. -/
def finish (i : Nat) (a : Attempt) : Traffic :=
  { t with session := t.session.endSubmission, attempts := t.attempts.set i a }

/-- What an action leaves. One that is not possible changes nothing. -/
def perform : Action → Traffic
  | .start => t.start
  | .call i =>
    match t.attempts[i]? with
    | some (.accepted x) =>
      { t with
        attempts := t.attempts.set i (.calling x)
        calls := t.calls ++ [⟨i, t.session, x.call⟩] }
    | _ => t
  | .answer i answer =>
    match t.attempts[i]? with
    | some (.calling x) => t.finish i (.ended (result x answer))
    | _ => t
  | .drop i =>
    match t.attempts[i]? with
    | some (.accepted _) | some (.calling _) => t.finish i .dropped
    | _ => t
  | .edit s =>
    match t.attempts.filterMap Attempt.pending? with
    | [] => { t with session := { s with submission := t.session.submission } }
    | _ => t

/-- What a sequence of actions leaves. -/
def run (actions : List Action) : Traffic := actions.foldl perform t

end Traffic

/-- What the store is asked when the draft of a session compiles to a definition. -/
def storing (s : Session) (d : Definition) : Call :=
  match s.definitionId with
  | some id => .update id ⟨d, s.snapshot⟩
  | none => .create ⟨d, s.snapshot⟩

/-- The submission that begins when the draft of a session compiles to a definition. -/
def begun (s : Session) (d : Definition) : Submission := ⟨s.definitionId, ⟨d, s.snapshot⟩⟩

/-- What holds after any sequence of actions. -/
structure Traffic.Orderly (t : Traffic) : Prop where
  /-- At most one call of the store is outstanding. -/
  one_call : (t.attempts.filter Attempt.isCalling).length ≤ 1
  /-- The session is being submitted exactly if an attempt has begun and is not over. -/
  isSubmitting_iff : t.session.isSubmitting = true ↔ ∃ a ∈ t.attempts, a.pending?.isSome
  /-- A refused attempt has not asked the store. -/
  refused : ∀ i a, t.attempts[i]? = some a → a.IsRefused → ∀ c ∈ t.calls, c.attempt ≠ i
  /-- No attempt asks the store twice. -/
  nodup_calls : (t.calls.map Issued.attempt).Nodup
  /-- The store is asked to take the draft as it is then. -/
  storing : ∀ c ∈ t.calls, ∃ d, c.session.compile = .ok d ∧ c.call = c.session.storing d

/-- What the next action does. -/
structure Traffic.Acts (t : Traffic) : Prop where
  /-- An attempt made while another one is under way ends at once. -/
  in_flight : t.session.isSubmitting = true →
    t.perform .start = { t with attempts := t.attempts ++ [.ended (.error .inFlight)] }
  /-- So does one whose draft does not compile, and the session stays free. -/
  not_compiled : t.session.isSubmitting = false → ∀ cause, t.session.compile = .error cause →
    t.perform .start = { t with attempts := t.attempts ++ [.ended (.error (.compile cause))] }
  /-- Any other attempt is accepted with the draft, and nothing is asked of the store yet. -/
  accepted : t.session.isSubmitting = false → ∀ d, t.session.compile = .ok d →
    t.perform .start =
      { t with
        session := { t.session with submission := some (t.session.begun d) }
        attempts := t.attempts ++ [.accepted (t.session.begun d)] }
  /-- An accepted attempt asks the store to take the draft of the session. -/
  called : ∀ i x, t.attempts[i]? = some (.accepted x) → ∃ d, t.session.compile = .ok d ∧
    (t.perform (.call i)).calls = t.calls ++ [⟨i, t.session, t.session.storing d⟩]
  /-- The answer of the store ends the attempt, and the session is free. -/
  answered : ∀ i x answer, t.attempts[i]? = some (.calling x) →
    (t.perform (.answer i answer)).attempts = t.attempts.set i (.ended (result x answer)) ∧
      (t.perform (.answer i answer)).session.isSubmitting = false
  /-- So it is when an attempt under way is given up. -/
  dropped : ∀ i a, t.attempts[i]? = some a → a.pending?.isSome →
    (t.perform (.drop i)).attempts = t.attempts.set i .dropped ∧
      (t.perform (.drop i)).session.isSubmitting = false
  /-- The store is asked by nothing else. -/
  silent : ∀ action, (∀ i, action ≠ .call i) → (t.perform action).calls = t.calls
  /-- Nothing but an edit changes more of the session than whether it is being submitted. -/
  draft : ∀ action, (∀ s, action ≠ .edit s) →
    ∃ x, (t.perform action).session = { t.session with submission := x }
  /-- A submission that nothing comes between is its start, its call and the answer to it. -/
  submit : ∀ store : Call → Except ClientError Unit, ∃ answer calls,
    t.run [.start, .call t.attempts.length, .answer t.attempts.length answer] =
        ⟨(t.session.submit (m := Id) store).1,
          t.attempts ++ [.ended (t.session.submit (m := Id) store).2], t.calls ++ calls⟩ ∧
      ∀ c ∈ calls, answer = store c.call

/-! ## Beginning a submission -/

theorem call_begun (s : Session) (d : Definition) : (s.begun d).call = s.storing d := by
  cases hid : s.definitionId <;> simp only [Submission.call, storing, begun, hid]

theorem beginSubmission_of_isSubmitting {s : Session} (h : s.isSubmitting = true) :
    s.beginSubmission = .error .inFlight := by
  rw [beginSubmission, if_pos h]

theorem beginSubmission_of_compile_error {s : Session} (h : s.isSubmitting = false)
    {cause : CompileError} (hc : s.compile = .error cause) :
    s.beginSubmission = .error (.compile cause) := by
  rw [beginSubmission, if_neg (by simp [h]), hc]

theorem beginSubmission_of_compile_ok {s : Session} (h : s.isSubmitting = false) {d : Definition}
    (hc : s.compile = .ok d) :
    s.beginSubmission = .ok ({ s with submission := some (s.begun d) }, s.begun d) := by
  rw [beginSubmission, if_neg (by simp [h]), hc]
  rfl

namespace Traffic

variable {t : Traffic} {i : Nat} {a : Attempt} {x : Submission}

/-- All that the beginning of an attempt can do. -/
theorem start_cases (t : Traffic) :
    (t.session.isSubmitting = true ∧
      t.start = { t with attempts := t.attempts ++ [.ended (.error .inFlight)] }) ∨
    (t.session.isSubmitting = false ∧ ∃ cause, t.session.compile = .error cause ∧
      t.start = { t with attempts := t.attempts ++ [.ended (.error (.compile cause))] }) ∨
    (t.session.isSubmitting = false ∧ ∃ d, t.session.compile = .ok d ∧
      t.start = { t with
        session := { t.session with submission := some (t.session.begun d) }
        attempts := t.attempts ++ [.accepted (t.session.begun d)] }) := by
  cases hs : t.session.isSubmitting with
  | true =>
    refine .inl ⟨rfl, ?_⟩
    rw [start, beginSubmission_of_isSubmitting hs]
  | false =>
    cases hc : t.session.compile with
    | error cause =>
      refine .inr (.inl ⟨rfl, cause, rfl, ?_⟩)
      rw [start, beginSubmission_of_compile_error hs hc]
    | ok d =>
      refine .inr (.inr ⟨rfl, d, rfl, ?_⟩)
      rw [start, beginSubmission_of_compile_ok hs hc]

/-! ## The invariant -/

/-- The drafts of the attempts under way are what the session holds, and the store is asked to
take nothing else. -/
structure Sound (t : Traffic) : Prop where
  /-- The attempts under way are those of the submission that the session holds. -/
  pending : t.attempts.filterMap Attempt.pending? = t.session.submission.toList
  /-- A submission carries the draft of the session. -/
  drafted : ∀ x ∈ t.session.submission, ∃ d, t.session.compile = .ok d ∧ x = t.session.begun d
  /-- An attempt that has asked the store is under way, has got an answer, or was given up. -/
  called : ∀ c ∈ t.calls, ∃ a, t.attempts[c.attempt]? = some a ∧ a.MayHaveCalled
  /-- No attempt asks the store twice. -/
  nodup_calls : (t.calls.map Issued.attempt).Nodup
  /-- The store is asked to take the draft as it is then. -/
  storing : ∀ c ∈ t.calls, ∃ d, c.session.compile = .ok d ∧ c.call = c.session.storing d

theorem sound_ofSession {s : Session} (hs : s.isSubmitting = false) : (ofSession s).Sound := by
  have hnone : s.submission = none := by simpa [isSubmitting] using hs
  refine ⟨?_, ?_, ?_, List.nodup_nil, ?_⟩ <;> simp [ofSession, hnone]

/-- If only one element of a list is selected, the list in which it is replaced has at most the
new one selected. -/
theorem filterMap_set {α β : Type} {f : α → Option β} {xs : List α} {i : Nat} {a : α} {x y : β}
    (ha : xs[i]? = some a) (hx : f a = some x) (hxs : xs.filterMap f = [y]) (b : α) :
    y = x ∧ (xs.set i b).filterMap f = (f b).toList := by
  obtain ⟨hi, rfl⟩ := List.getElem?_eq_some_iff.mp ha
  have hsplit : xs = xs.take i ++ xs[i] :: xs.drop (i + 1) := by simp
  rw [hsplit, List.filterMap_append, List.filterMap_cons, hx] at hxs
  obtain ⟨hbefore, hone⟩ :
      (xs.take i).filterMap f = [] ∧ x :: (xs.drop (i + 1)).filterMap f = [y] := by
    simpa [List.append_eq_singleton_iff] using hxs
  obtain ⟨rfl, hbehind⟩ := List.cons.inj hone
  refine ⟨rfl, ?_⟩
  rw [List.set_eq_take_append_cons_drop, if_pos hi, List.filterMap_append, List.filterMap_cons,
    hbefore, hbehind]
  cases f b <;> rfl

/-- An attempt under way is the only one, and its draft is the one that the session holds. -/
theorem Sound.of_pending (h : t.Sound) (ha : t.attempts[i]? = some a) (hx : a.pending? = some x) :
    t.session.submission = some x ∧
      ∀ b, (t.attempts.set i b).filterMap Attempt.pending? = b.pending?.toList := by
  have hmem : x ∈ t.session.submission.toList := by
    rw [← h.pending]
    exact List.mem_filterMap.mpr ⟨a, List.mem_of_getElem? ha, hx⟩
  have hsubmission : t.session.submission = some x := by simpa using hmem
  have hone : t.attempts.filterMap Attempt.pending? = [x] := by rw [h.pending, hsubmission]; rfl
  exact ⟨hsubmission, fun b => (filterMap_set ha hx hone b).2⟩

/-- The attempts that have asked the store are not disturbed by one more attempt. -/
theorem Sound.called_append (h : t.Sound) (a : Attempt) :
    ∀ c ∈ t.calls, ∃ b, (t.attempts ++ [a])[c.attempt]? = some b ∧ b.MayHaveCalled := by
  intro c hc
  obtain ⟨b, hb, hcalled⟩ := h.called c hc
  exact ⟨b, by rw [List.getElem?_append_left (List.getElem?_eq_some_iff.mp hb).1, hb], hcalled⟩

/-- Nor are they by the progress of an attempt that stays one that may have asked. -/
theorem Sound.called_set (h : t.Sound) (hi : i < t.attempts.length) (ha : a.MayHaveCalled) :
    ∀ c ∈ t.calls, ∃ b, (t.attempts.set i a)[c.attempt]? = some b ∧ b.MayHaveCalled := by
  intro c hc
  by_cases hci : c.attempt = i
  · exact ⟨a, by rw [hci, List.getElem?_set_self hi], ha⟩
  · rw [List.getElem?_set_ne (Ne.symm hci)]
    exact h.called c hc

/-- An attempt that has not asked the store has no call among those made. -/
theorem Sound.attempt_ne (h : t.Sound) (ha : t.attempts[i]? = some a) (hno : ¬a.MayHaveCalled) :
    ∀ c ∈ t.calls, c.attempt ≠ i := by
  rintro c hc rfl
  obtain ⟨b, hb, hcalled⟩ := h.called c hc
  exact hno (Option.some.inj (ha.symm.trans hb) ▸ hcalled)

theorem Sound.start (h : t.Sound) : t.start.Sound := by
  rcases start_cases t with ⟨_, heq⟩ | ⟨_, cause, _, heq⟩ | ⟨hfree, d, hd, heq⟩
  · rw [heq]
    exact { h with pending := by simp [h.pending, Attempt.pending?], called := h.called_append _ }
  · rw [heq]
    exact { h with pending := by simp [h.pending, Attempt.pending?], called := h.called_append _ }
  · rw [heq]
    have hnone : t.session.submission = none := by simpa [isSubmitting] using hfree
    refine ⟨?_, ?_, h.called_append _, h.nodup_calls, h.storing⟩
    · simp [h.pending, hnone, Attempt.pending?]
    · rintro x hx
      obtain rfl := Option.some.inj hx
      exact ⟨d, hd, rfl⟩

theorem Sound.call (h : t.Sound) (ha : t.attempts[i]? = some (.accepted x)) :
    Sound { t with
      attempts := t.attempts.set i (.calling x)
      calls := t.calls ++ [⟨i, t.session, x.call⟩] } := by
  obtain ⟨hsubmission, hset⟩ := h.of_pending ha rfl
  have hi : i < t.attempts.length := (List.getElem?_eq_some_iff.mp ha).1
  obtain ⟨d, hd, hx⟩ := h.drafted x hsubmission
  refine ⟨?_, h.drafted, ?_, ?_, ?_⟩
  · rw [hset, hsubmission]
    rfl
  · intro c hc
    rcases List.mem_append.mp hc with hc | hc
    · exact h.called_set (a := .calling x) hi id c hc
    · obtain rfl := List.mem_singleton.mp hc
      exact ⟨_, List.getElem?_set_self hi, id⟩
  · rw [List.map_append, List.nodup_append]
    refine ⟨h.nodup_calls, by simp, ?_⟩
    intro j hj k hk
    obtain ⟨c, hc, rfl⟩ := List.mem_map.mp hj
    obtain rfl : k = i := by simpa using hk
    exact h.attempt_ne ha id c hc
  · intro c hc
    rcases List.mem_append.mp hc with hc | hc
    · exact h.storing c hc
    · obtain rfl := List.mem_singleton.mp hc
      exact ⟨d, hd, by rw [hx, call_begun]⟩

/-- The session is free when an attempt under way is over. -/
theorem Sound.finish (h : t.Sound) {b : Attempt} (ha : t.attempts[i]? = some b)
    (hb : b.pending? = some x) (hover : a.pending? = none) (hcalled : a.MayHaveCalled) :
    (t.finish i a).Sound := by
  obtain ⟨_, hset⟩ := h.of_pending ha hb
  have hi : i < t.attempts.length := (List.getElem?_eq_some_iff.mp ha).1
  refine ⟨?_, ?_, h.called_set hi hcalled, h.nodup_calls, h.storing⟩
  · rw [Traffic.finish, hset, hover]
    rfl
  · intro x hx
    cases hx

/-- Every action keeps the invariant. -/
theorem Sound.perform (h : t.Sound) (action : Action) : (t.perform action).Sound := by
  cases action with
  | start => exact h.start
  | call i =>
    simp only [Traffic.perform]
    split
    · exact h.call ‹_›
    · exact h
  | answer i answer =>
    simp only [Traffic.perform]
    split
    · refine h.finish ‹_› rfl rfl ?_
      cases answer <;> exact id
    · exact h
  | drop i =>
    simp only [Traffic.perform]
    split
    · exact h.finish ‹_› rfl rfl id
    · exact h.finish ‹_› rfl rfl id
    · exact h
  | edit s =>
    simp only [Traffic.perform]
    split
    · rename_i hnone
      have hfree : t.session.submission = none := by
        simpa [hnone] using h.pending.symm
      refine ⟨?_, ?_, h.called, h.nodup_calls, h.storing⟩
      · exact h.pending
      · intro x hx
        simp [hfree] at hx
    · exact h

theorem Sound.run (h : t.Sound) (actions : List Action) : (t.run actions).Sound := by
  induction actions generalizing t with
  | nil => exact h
  | cons action actions ih => exact ih (h.perform action)

/-- The invariant is what a caller sees of it. -/
theorem Sound.orderly (h : t.Sound) : t.Orderly where
  one_call := by
    have hle : (t.attempts.filter Attempt.isCalling).length ≤
        (t.attempts.filterMap Attempt.pending?).length := by
      rw [← List.countP_eq_length_filter, List.length_filterMap_eq_countP]
      refine List.countP_mono_left fun a _ ha => ?_
      cases a <;> simp_all [Attempt.isCalling, Attempt.pending?]
    rw [h.pending] at hle
    exact Nat.le_trans hle (by cases t.session.submission <;> simp)
  isSubmitting_iff := by
    have hiff : t.session.submission.isSome ↔ t.attempts.filterMap Attempt.pending? ≠ [] := by
      rw [h.pending]
      cases t.session.submission <;> simp
    rw [isSubmitting, hiff]
    simp [List.filterMap_eq_nil_iff, Option.isSome_iff_ne_none]
  refused i a ha hrefused := by
    refine h.attempt_ne ha ?_
    cases a with
    | ended => exact not_not_intro hrefused
    | accepted | calling | dropped => cases hrefused
  nodup_calls := h.nodup_calls
  storing := h.storing

/-! ## The next action -/

/-- A submission that nothing comes between goes through its three actions in turn. -/
theorem run_submit (t : Traffic) (store : Call → Except ClientError Unit) : ∃ answer calls,
    t.run [.start, .call t.attempts.length, .answer t.attempts.length answer] =
        ⟨(t.session.submit (m := Id) store).1,
          t.attempts ++ [.ended (t.session.submit (m := Id) store).2], t.calls ++ calls⟩ ∧
      ∀ c ∈ calls, answer = store c.call := by
  cases hb : t.session.beginSubmission with
  | error e =>
    refine ⟨.ok (), [], ?_, by simp⟩
    simp [run, perform, start, hb, submit, pure]
  | ok pair =>
    obtain ⟨begun, x⟩ := pair
    refine ⟨store x.call, [⟨t.attempts.length, begun, x.call⟩], ?_, by simp⟩
    simp [run, perform, start, hb, submit, pure, bind, finish]

/-- Only an attempt that asks the store adds to its calls. -/
theorem calls_perform (t : Traffic) {action : Action} (h : ∀ i, action ≠ .call i) :
    (t.perform action).calls = t.calls := by
  cases action with
  | start =>
    rcases start_cases t with ⟨_, heq⟩ | ⟨_, _, _, heq⟩ | ⟨_, _, _, heq⟩ <;> rw [perform, heq]
  | call i => exact absurd rfl (h i)
  | answer | drop | edit =>
    simp only [perform]
    split <;> rfl

/-- Only an edit changes more of the session than whether it is being submitted. -/
theorem session_perform (t : Traffic) {action : Action} (h : ∀ s, action ≠ .edit s) :
    ∃ x, (t.perform action).session = { t.session with submission := x } := by
  cases action with
  | start =>
    rcases start_cases t with ⟨_, heq⟩ | ⟨_, _, _, heq⟩ | ⟨_, _, _, heq⟩ <;>
      exact ⟨_, by rw [perform, heq]⟩
  | call | answer | drop =>
    simp only [perform]
    split <;> exact ⟨_, rfl⟩
  | edit s => exact absurd rfl (h s)

theorem Sound.acts (h : t.Sound) : t.Acts where
  in_flight hs := by rw [Traffic.perform, Traffic.start, beginSubmission_of_isSubmitting hs]
  not_compiled hs cause hc := by
    rw [Traffic.perform, Traffic.start, beginSubmission_of_compile_error hs hc]
  accepted hs d hc := by rw [Traffic.perform, Traffic.start, beginSubmission_of_compile_ok hs hc]
  called i x ha := by
    obtain ⟨d, hd, rfl⟩ := h.drafted x (h.of_pending ha rfl).1
    exact ⟨d, hd, by simp only [Traffic.perform, ha, call_begun]⟩
  answered i x answer ha := by
    simp only [Traffic.perform, ha]
    exact ⟨rfl, rfl⟩
  dropped i a ha hpending := by
    cases a with
    | accepted x | calling x =>
      simp only [Traffic.perform, ha]
      exact ⟨rfl, rfl⟩
    | ended | dropped => cases hpending
  silent _ := calls_perform t
  draft _ := session_perform t
  submit := run_submit t

end Traffic

/-- Whatever is done at a session that nobody has submitted yet, and in whatever order, one draft
at most is on its way, and it is the draft of the session. -/
theorem one_submission_at_a_time {s : Session} (hs : s.isSubmitting = false)
    (actions : List Traffic.Action) :
    ((Traffic.ofSession s).run actions).Orderly ∧ ((Traffic.ofSession s).run actions).Acts :=
  have hsound := (Traffic.sound_ofSession hs).run actions
  ⟨hsound.orderly, hsound.acts⟩

/-- Of three attempts the second comes while the first waits for the store; the first is given
up, then the draft is edited, and the third replaces the stored definition. -/
theorem one_submission_after_a_race :
    let s := { twoTasks with definitionId := some "7" }
    let edited := { s with metadata := .named "draft" "edited" }
    let actions : List Traffic.Action :=
      [.start, .call 0, .start, .edit edited, .drop 0, .edit edited, .start, .call 2]
    let t := (Traffic.ofSession s).run actions
    s.isSubmitting = false ∧ t.attempts.map (fun a => a.pending?.isSome) = [false, false, true] ∧
      t.calls.map (fun c => (c.attempt, c.session.metadata.description)) =
        [(0, "two tasks"), (2, "edited")] ∧ t.Orderly ∧ t.Acts := by
  intro s edited actions t
  have hs : s.isSubmitting = false := rfl
  exact ⟨hs, by decide, by decide, one_submission_at_a_time hs actions⟩

end Session

end Workflow
