import Workflow.Proofs.Session.Mutation

/-!
# Validation that follows edits

A session whose validation follows edits is run through changes of its draft, which may fail, and
the passing of time. Passes are due in the order in which they were started, and the pass
started last has validated the draft as it is now: what changes the verdict starts a pass, and
nothing takes a pass away without starting another one.
-/

namespace Workflow.Session

/-- What can happen in a session. -/
inductive Step where
  /-- A change is tried. -/
  | mutate (m : Mutation)
  /-- Time passes. -/
  | elapse (ms : Nat)
  deriving DecidableEq, Repr

/-- The time a step takes. -/
def Step.duration : Step → Nat
  | .mutate _ => 0
  | .elapse ms => ms

/-- The time some steps take. -/
def elapsed : List Step → Nat
  | [] => 0
  | step :: steps => step.duration + elapsed steps

/-- A step, before the passes take place whose time it brings. A change that fails does nothing. -/
def perform (s : Session) : Step → Session
  | .mutate m => (s.mutate m).getD s
  | .elapse ms => { s with debouncer := s.debouncer.map fun d => { d with now := d.now + ms } }

/-- The session after a step. Passes whose time has come take place before the next one. -/
def after (s : Session) (step : Step) : Session := (s.perform step).settle

/-- The session after some steps. -/
def run (s : Session) (steps : List Step) : Session := steps.foldl after s

/-- The keys that a step schedules. -/
def scheduled (s : Session) : Step → List String
  | .mutate m => if (s.mutate m).isSome then m.keys s.graph else []
  | .elapse _ => []

/-- What has been delivered. -/
def channel (s : Session) : List Settled := (s.debouncer.map Debouncer.settled).getD []

/-- Whether something holds of every step of a run and the session before it. -/
def Throughout (P : Session → Step → Prop) : Session → List Step → Prop
  | _, [] => True
  | s, step :: steps => P s step ∧ Throughout P (s.after step) steps

variable {s s' : Session} {d e : Debouncer} {steps later : List Step} {step : Step}
  {P : Session → Step → Prop}

theorem perform_mutate {m : Mutation} (h : s.mutate m = some s') : s.perform (.mutate m) = s' := by
  simp [perform, h]

theorem mem_scheduled_iff {key : String} : key ∈ s.scheduled step ↔
    ∃ m s', step = .mutate m ∧ s.mutate m = some s' ∧ key ∈ m.keys s.graph := by
  cases step with
  | elapse ms => simp [scheduled]
  | mutate m => cases hm : s.mutate m <;> simp [scheduled, hm]

theorem elapsed_cons (step : Step) (steps : List Step) :
    elapsed (step :: steps) = step.duration + elapsed steps := rfl

theorem run_append (s : Session) (steps later : List Step) :
    s.run (steps ++ later) = (s.run steps).run later := List.foldl_append

theorem throughout_append :
    Throughout P s (steps ++ later) ↔ Throughout P s steps ∧ Throughout P (s.run steps) later := by
  induction steps generalizing s with
  | nil => simp [Throughout, run]
  | cons step steps ih =>
    rw [List.cons_append, Throughout, Throughout, ih, and_assoc]
    rfl

/-- What no step changes is the same after the run. -/
theorem Throughout.validate_run
    (h : Throughout (fun s step => (s.after step).validate = s.validate) s steps) :
    (s.run steps).validate = s.validate := by
  induction steps generalizing s with
  | nil => rfl
  | cons step steps ih => exact (ih h.2).trans h.1

/-! ## The invariant -/

/-- Validation follows edits: what is known of the passes that wait. -/
structure Follows (s : Session) (d : Debouncer) : Prop where
  /-- The passes wait in the debouncer. -/
  debouncer : s.debouncer = some d
  /-- The passes validate as the session does. -/
  rules : d.rules = s.rules
  /-- The table lists the passes that wait. -/
  sound : d.Sound
  /-- No pass waits longer than the delay. -/
  due_le : ∀ p ∈ d.waiting, p.due ≤ d.now + d.delay
  /-- Passes are due in the order in which they were started. -/
  ordered : d.waiting.Pairwise fun p q => p.due ≤ q.due
  /-- The pass started last finds what is found now. -/
  newest : ∀ p ∈ d.waiting.getLast?, (d.deliver p).report = s.validate

theorem follows_withDebounce (s : Session) (delay : Nat) :
    (s.withDebounce delay).Follows (.start s.rules delay) where
  debouncer := rfl
  rules := rfl
  sound := Debouncer.sound_start _ _
  due_le := by simp [Debouncer.start]
  ordered := List.Pairwise.nil
  newest := by simp [Debouncer.start]

/-- What a step makes of a debouncer before passes take place: the passes of the keys that it
schedules are replaced by others, which validate the draft that it leaves. -/
structure Stepped (s : Session) (d : Debouncer) (step : Step) (e : Debouncer)
    (passes : List Pass) : Prop where
  /-- Validation still follows edits. -/
  follows : (s.perform step).Follows e
  /-- The rules stay. -/
  rules : e.rules = d.rules
  /-- The delay stays. -/
  delay : e.delay = d.delay
  /-- Time passes as the step takes it. -/
  now : e.now = d.now + step.duration
  /-- Nothing is delivered yet. -/
  settled : e.settled = d.settled
  /-- The passes of other keys wait on, in front of those that are started. -/
  waiting : e.waiting = (d.waiting.filter fun p => !(s.scheduled step).contains p.key) ++ passes
  /-- One pass is started for each key. -/
  keys : passes.map Pass.key = s.scheduled step
  /-- A pass that is started is new and validates the draft after the delay. -/
  fresh : ∀ p ∈ passes, d.started ≤ p.number ∧ p.due = d.now + d.delay ∧
    p.graph = (s.perform step).graph

/-- Validation follows on when the passes of some keys are replaced by others, which validate the
draft as it is then. If there are no keys, the verdict must not have changed. -/
theorem Follows.replace (h : s.Follows d) {keys : List String} {passes : List Pass}
    (hdebouncer : s'.debouncer = some e) (hrules : s'.rules = s.rules) (hsound : e.Sound)
    (hsame : e.rules = d.rules ∧ e.now = d.now ∧ e.delay = d.delay)
    (hwaiting : e.waiting = (d.waiting.filter fun p => !keys.contains p.key) ++ passes)
    (hfresh : ∀ p ∈ passes, p.due = d.now + d.delay ∧ p.graph = s'.graph)
    (hnone : passes = [] → keys = [] ∧ s'.validate = s.validate) : s'.Follows e where
  debouncer := hdebouncer
  rules := hsame.1.trans (h.rules.trans hrules.symm)
  sound := hsound
  due_le := by
    intro p hp
    rw [hwaiting] at hp
    rw [hsame.2.1, hsame.2.2]
    rcases List.mem_append.mp hp with hp | hp
    · exact h.due_le p (List.mem_filter.mp hp).1
    · exact Nat.le_of_eq (hfresh p hp).1
  ordered := by
    rw [hwaiting]
    refine List.pairwise_append.mpr ⟨h.ordered.filter _, ?_, fun p hp q hq => ?_⟩
    · refine List.pairwise_of_forall_mem_list fun p hp q hq => ?_
      exact Nat.le_of_eq ((hfresh p hp).1.trans (hfresh q hq).1.symm)
    · rw [(hfresh q hq).1]
      exact h.due_le p (List.mem_filter.mp hp).1
  newest := by
    intro p hp
    rw [Debouncer.deliver, hsame.1]
    -- The last pass is one of those that were started, if there are any.
    rcases List.eq_nil_or_concat' passes with rfl | ⟨front, q, rfl⟩
    · obtain ⟨rfl, hvalidate⟩ := hnone rfl
      have hsame : e.waiting = d.waiting := by simp [hwaiting]
      rw [hvalidate]
      exact h.newest p (hsame ▸ hp)
    · have hq : q = p := by simpa [hwaiting, ← List.append_assoc] using hp
      have hgraph := (hfresh p (by simp [hq])).2
      rw [validate, hgraph, h.rules, hrules]

/-- A change that succeeds replaces the passes of its keys. -/
theorem Follows.stepped_mutate (h : s.Follows d) {m : Mutation} (hm : s.mutate m = some s') :
    ∃ e passes, s.Stepped d (.mutate m) e passes := by
  have hperform := perform_mutate hm
  have hscheduled : s.scheduled (.mutate m) = m.keys s.graph := by simp [scheduled, hm]
  obtain ⟨-, hrules, hdebouncer⟩ := operates_of_mutate hm
  obtain ⟨started, table, passes, heq, hkeys, hfresh⟩ :=
    h.sound.scheduleAll_eq (m.nodup_keys s.graph) s'.graph
  have hsound := h.sound.scheduleAll (m.keys s.graph) s'.graph
  have hsome : s'.debouncer = some (d.scheduleAll (m.keys s.graph) s'.graph) := by
    rw [hdebouncer, h.debouncer, Option.map_some]
  generalize d.scheduleAll (m.keys s.graph) s'.graph = e at heq hsound hsome
  have hwaiting := congrArg Debouncer.waiting heq
  refine ⟨e, passes, ?_, by rw [heq], by rw [heq], by rw [heq]; rfl, by rw [heq], ?_, ?_, ?_⟩
  · rw [hperform]
    refine h.replace hsome hrules hsound (by rw [heq]; exact ⟨rfl, rfl, rfl⟩) hwaiting
      (fun p hp => (hfresh p hp).2) fun hnone => ?_
    -- A change that starts no pass has no key, so no rule looks at what it changed.
    have hnokeys : m.keys s.graph = [] := by rw [← hkeys, hnone, List.map_nil]
    exact ⟨hnokeys, validate_of_keys_eq_nil hm hnokeys⟩
  · rw [hscheduled]
    exact hwaiting
  · rw [hscheduled, hkeys]
  · rw [hperform]
    exact hfresh

/-- Validation still follows edits after a step. -/
theorem Follows.stepped (h : s.Follows d) (step : Step) :
    ∃ e passes, s.Stepped d step e passes := by
  cases step with
  | elapse ms =>
    refine ⟨{ d with now := d.now + ms }, [], ?_, rfl, rfl, rfl, rfl, ?_, rfl, by simp⟩
    · refine ⟨?_, h.rules, h.sound.wait ms, fun p hp => ?_, h.ordered, h.newest⟩
      · rw [perform, h.debouncer]
        rfl
      · exact Nat.le_trans (h.due_le p hp) (Nat.add_le_add_right (Nat.le_add_right _ _) _)
    · simp [scheduled]
  | mutate m =>
    cases hm : s.mutate m with
    | none =>
      have hperform : s.perform (.mutate m) = s := by simp [perform, hm]
      have hscheduled : s.scheduled (.mutate m) = [] := by simp [scheduled, hm]
      refine ⟨d, [], by rw [hperform]; exact h, rfl, rfl, rfl, rfl, ?_, hscheduled.symm, by simp⟩
      simp [hscheduled]
    | some s' => exact h.stepped_mutate hm

/-! ## The passing of time -/

/-- Of passes that are due in their order, those that are due by a time and then those that are due
by a later time are those that are due by the later time. -/
theorem filter_due_append {passes : List Pass} (h : passes.Pairwise fun p q => p.due ≤ q.due)
    {now next : Nat} (hnow : now ≤ next) :
    passes.filter (·.due ≤ now) ++ (passes.filter (now < ·.due)).filter (·.due ≤ next) =
      passes.filter (·.due ≤ next) := by
  induction passes with
  | nil => rfl
  | cons p passes ih =>
    obtain ⟨hp, hpasses⟩ := List.pairwise_cons.mp h
    by_cases hdue : p.due ≤ now
    · have hnext : p.due ≤ next := Nat.le_trans hdue hnow
      rw [List.filter_cons_of_pos (by simpa using hdue),
        List.filter_cons_of_neg (by simpa using hdue),
        List.filter_cons_of_pos (by simpa using hnext), List.cons_append, ih hpasses]
    · have hlater : ∀ q ∈ p :: passes, now < q.due := by
        have hfirst : now < p.due := Nat.not_le.mp hdue
        exact List.forall_mem_cons.mpr ⟨hfirst, fun q hq => Nat.lt_of_lt_of_le hfirst (hp q hq)⟩
      have hready : (p :: passes).filter (·.due ≤ now) = [] :=
        List.filter_eq_nil_iff.mpr fun q hq => by simpa using hlater q hq
      have hall : (p :: passes).filter (now < ·.due) = p :: passes :=
        List.filter_eq_self.mpr fun q hq => by simpa using hlater q hq
      rw [hready, hall, List.nil_append]

/-- Of passes that are due in their order, the last is the last of those that are not due yet. -/
theorem mem_getLast?_of_filter_due {passes : List Pass}
    (h : passes.Pairwise fun p q => p.due ≤ q.due) {now : Nat} {p : Pass}
    (hp : p ∈ (passes.filter (now < ·.due)).getLast?) : p ∈ passes.getLast? := by
  rcases List.eq_nil_or_concat' passes with rfl | ⟨front, q, rfl⟩
  · exact hp
  · obtain ⟨-, -, hlast⟩ := List.pairwise_append.mp h
    by_cases hdue : now < q.due
    · have hq : [q].filter (now < ·.due) = [q] := List.filter_cons_of_pos (by simpa using hdue)
      rw [List.filter_append, hq, List.getLast?_concat] at hp
      rwa [List.getLast?_concat]
    · have hnone : (front ++ [q]).filter (now < ·.due) = [] := by
        refine List.filter_eq_nil_iff.mpr fun r hr => ?_
        have hle : r.due ≤ q.due := by
          rcases List.mem_append.mp hr with hr | hr
          · exact hlast r hr q (List.mem_singleton_self q)
          · exact Nat.le_of_eq (congrArg Pass.due (List.mem_singleton.mp hr))
        simpa using Nat.le_trans hle (Nat.not_lt.mp hdue)
      rw [hnone] at hp
      cases hp

/-- Passes that take place leave the one started last, unless none is left. -/
theorem Follows.settle (h : s.Follows d) : s.settle.Follows d.settle where
  debouncer := by rw [Session.settle, h.debouncer]; rfl
  rules := h.rules
  sound := h.sound.settle
  due_le := fun p hp => h.due_le p (Debouncer.mem_settle_waiting_iff.mp hp).1
  ordered := h.ordered.filter _
  newest := fun p hp => h.newest p (mem_getLast?_of_filter_due h.ordered hp)

/-- Validation follows edits throughout a run. -/
theorem Follows.run (h : s.Follows d) (steps : List Step) : ∃ e, (s.run steps).Follows e ∧
    e.now = d.now + elapsed steps ∧ e.delay = d.delay := by
  induction steps generalizing s d with
  | nil => exact ⟨d, h, rfl, rfl⟩
  | cons step steps ih =>
    obtain ⟨e, passes, hstepped⟩ := h.stepped step
    obtain ⟨last, hfollows, hnow, hdelay⟩ := ih hstepped.follows.settle
    refine ⟨last, hfollows, ?_, hdelay.trans hstepped.delay⟩
    have hsettled : e.settle.now = d.now + step.duration := hstepped.now
    rw [hnow, hsettled, elapsed_cons, Nat.add_assoc]

/-- Validation follows edits at every time of a run that starts with no pass. -/
theorem follows_run (s : Session) (delay : Nat) (steps : List Step) :
    ∃ d, ((s.withDebounce delay).run steps).Follows d ∧ d.now = elapsed steps ∧ d.delay = delay := by
  obtain ⟨d, hfollows, hnow, hdelay⟩ := (follows_withDebounce s delay).run steps
  exact ⟨d, hfollows, hnow.trans (Nat.zero_add _), hdelay⟩

end Workflow.Session
