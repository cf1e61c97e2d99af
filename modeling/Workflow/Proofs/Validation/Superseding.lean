import Workflow.Proofs.Validation.Passes
import Workflow.Session.Basic

/-!
# Superseded passes

A pass takes place exactly if nothing ends it before its time: no pass is scheduled for its
key, its key is not cancelled and neither are all keys. The passes of a run are found in the
actions alone, by `unsuperseded`, and the run delivers each of them once.

The induction over a run says what is still to be delivered at a state: the passes that
wait and survive what follows, and those that are scheduled later and survive the rest.
-/

namespace Workflow.Debouncer

/-- What can happen to a debouncer. -/
inductive Action where
  /-- A validation of a graph is scheduled under a key. -/
  | schedule (key : String) (g : Graph)
  /-- The validation of a key is cancelled. -/
  | cancel (key : String)
  /-- All validations are cancelled. -/
  | cancelAll
  /-- Time passes. -/
  | elapse (ms : Nat)
  deriving DecidableEq, Repr

namespace Action

/-- The time an action takes. -/
def duration : Action → Nat
  | .elapse ms => ms
  | _ => 0

/-- Whether an action ends the pass that waits for a key. -/
def ends (key : String) : Action → Bool
  | .schedule k _ => key == k
  | .cancel k => key == k
  | .cancelAll => true
  | .elapse _ => false

/-- Whether an action is not about another key. -/
def concerns (key : String) : Action → Bool
  | .schedule k _ => key == k
  | .cancel k => key == k
  | .cancelAll => true
  | .elapse _ => true

/-- The pass that an action starts. -/
def starts (d : Debouncer) : Action → List Pass
  | .schedule key g => [d.next key g]
  | _ => []

end Action

/-- An action, before the passes take place whose time it brings. -/
def perform (d : Debouncer) : Action → Debouncer
  | .schedule key g => d.schedule key g
  | .cancel key => d.cancel key
  | .cancelAll => d.cancelAll
  | .elapse ms => { d with now := d.now + ms }

/-- The state after an action. Passes whose time has come take place before the next one. -/
def after (d : Debouncer) (a : Action) : Debouncer := (d.perform a).settle

/-- The state after some actions. -/
def run (d : Debouncer) (as : List Action) : Debouncer := as.foldl after d

/-- The time some actions take. -/
def elapsed : List Action → Nat
  | [] => 0
  | a :: as => a.duration + elapsed as

/-- Whether a pass for a key takes place that has some time left to wait. -/
def survives (key : String) : Nat → List Action → Bool
  | 0, _ => true
  | _ + 1, [] => false
  | left + 1, a :: as => !a.ends key && survives key (left + 1 - a.duration) as

/-- What is delivered of the passes that are scheduled by some actions. -/
def unsuperseded (rules : List Rule) (delay : Nat) : Nat → List Action → List Settled
  | _, [] => []
  | now, .schedule key g :: as =>
    if survives key delay as then
      ⟨now + delay, key, ⟨g.validateBy rules⟩⟩ :: unsuperseded rules delay now as
    else unsuperseded rules delay now as
  | now, .cancel _ :: as => unsuperseded rules delay now as
  | now, .cancelAll :: as => unsuperseded rules delay now as
  | now, .elapse ms :: as => unsuperseded rules delay (now + ms) as

/-- Whether a pass for a key that has some time left to wait still waits after some actions. -/
def Stays (key : String) (left : Nat) (as : List Action) : Prop :=
  (∀ a ∈ as, a.ends key = false) ∧ elapsed as < left

/-- Whether the pass last scheduled for a key has neither taken place nor been cancelled. -/
def Waits (delay : Nat) (key : String) (as : List Action) : Prop :=
  ∃ before g later, as = before ++ .schedule key g :: later ∧ Stays key delay later

variable {d : Debouncer} {a : Action} {as : List Action} {key : String} {left now delay : Nat}
  {rules : List Rule} {r : Settled}

theorem elapsed_cons (a : Action) (as : List Action) :
    elapsed (a :: as) = a.duration + elapsed as := rfl

/-- What stands at a place of a list stands at its head or at a place of its tail. -/
theorem exists_place_cons_iff {α : Type} {P : List α → α → List α → Prop} {x : α} {xs : List α} :
    (∃ before y later, x :: xs = before ++ y :: later ∧ P before y later) ↔
      P [] x xs ∨ ∃ before y later, xs = before ++ y :: later ∧ P (x :: before) y later := by
  constructor
  · rintro ⟨_ | ⟨z, before⟩, y, later, hplace, hP⟩
    · obtain ⟨rfl, rfl⟩ := List.cons.inj hplace
      exact .inl hP
    · obtain ⟨rfl, htail⟩ := List.cons.inj hplace
      exact .inr ⟨before, y, later, htail, hP⟩
  · rintro (hP | ⟨before, y, later, rfl, hP⟩)
    · exact ⟨[], x, xs, rfl, hP⟩
    · exact ⟨x :: before, y, later, rfl, hP⟩

/-! ## Surviving -/

/-- A pass that is due at once is ended by nothing. -/
theorem survives_zero : survives key 0 as = true := by
  cases as <;> rfl

/-- A pass that is not yet due does not end without a further action. -/
theorem survives_nil (hleft : 0 < left) : survives key left [] = false := by
  cases left with
  | zero => omega
  | succ left => rfl

/-- A pass outlives an action that does not end it, if it outlives what follows for the rest of its
time. -/
theorem survives_cons (hleft : 0 < left) :
    survives key left (a :: as) = (!a.ends key && survives key (left - a.duration) as) := by
  cases left with
  | zero => omega
  | succ left => rfl

/-- A pass takes place exactly if its time comes and nothing ends it earlier. -/
theorem survives_iff : survives key left as = true ↔ left ≤ elapsed as ∧
    ¬ ∃ before a later, as = before ++ a :: later ∧ a.ends key = true ∧ elapsed before < left := by
  induction as generalizing left with
  | nil =>
    rcases Nat.eq_zero_or_pos left with rfl | hleft
    · simp [survives_zero]
    · simp [survives_nil hleft, elapsed, Nat.ne_of_gt hleft]
  | cons a as ih =>
    rcases Nat.eq_zero_or_pos left with rfl | hleft
    · simp [survives_zero]
    have hbefore : ∀ before, elapsed (a :: before) < left ↔ elapsed before < left - a.duration := by
      intro before
      rw [elapsed_cons]
      omega
    rw [survives_cons hleft, exists_place_cons_iff, elapsed_cons, Bool.and_eq_true, ih]
    simp only [hbefore, not_or, Bool.not_eq_true', Nat.sub_le_iff_le_add']
    have hnil : elapsed [] < left := hleft
    simp only [hnil, and_true, Bool.not_eq_true]
    exact and_left_comm

/-- Actions on other keys do not matter to a pass. -/
theorem survives_concerning :
    survives key left (as.filter (·.concerns key)) = survives key left as := by
  induction as generalizing left with
  | nil => rfl
  | cons a as ih =>
    rcases Nat.eq_zero_or_pos left with rfl | hleft
    · simp [survives_zero]
    by_cases hconcerns : a.concerns key = true
    · rw [List.filter_cons_of_pos hconcerns, survives_cons hleft, survives_cons hleft, ih]
    · rw [List.filter_cons_of_neg hconcerns, survives_cons hleft, ih]
      cases a <;> simp_all [Action.concerns, Action.ends, Action.duration]

/-! ## The passes of a run -/

/-- A report is one that nothing supersedes if its pass outlives all that follows its schedule. -/
theorem mem_unsuperseded_iff : r ∈ unsuperseded rules delay now as ↔
    ∃ before a later, as = before ++ a :: later ∧ ∃ key g, a = .schedule key g ∧
      survives key delay later = true ∧
      r = ⟨now + elapsed before + delay, key, ⟨g.validateBy rules⟩⟩ := by
  induction as generalizing now with
  | nil => simp [unsuperseded]
  | cons a as ih =>
    rw [exists_place_cons_iff]
    cases a with
    | schedule key g =>
      by_cases hsurvives : survives key delay as = true
      · simp [unsuperseded, hsurvives, ih, elapsed, Action.duration]
      · simp [unsuperseded, hsurvives, ih, elapsed, Action.duration]
    | cancel key => simp [unsuperseded, ih, elapsed, Action.duration]
    | cancelAll => simp [unsuperseded, ih, elapsed, Action.duration]
    | elapse ms => simp [unsuperseded, ih, elapsed, Action.duration, Nat.add_assoc]

/-- Actions on other keys do not matter to the deliveries of a key. -/
theorem unsuperseded_concerning :
    (unsuperseded rules delay now (as.filter (·.concerns key))).filter (·.key == key) =
      (unsuperseded rules delay now as).filter (·.key == key) := by
  induction as generalizing now with
  | nil => rfl
  | cons a as ih =>
    cases a with
    | schedule k g =>
      by_cases hkey : k = key
      · subst hkey
        have hconcerns : (Action.schedule k g).concerns k = true := by simp [Action.concerns]
        rw [List.filter_cons_of_pos hconcerns, unsuperseded, unsuperseded, survives_concerning]
        split
        · rw [List.filter_cons_of_pos (by simp), List.filter_cons_of_pos (by simp), ih]
        · exact ih
      · have hother : ¬ (Action.schedule k g).concerns key = true := by
          simpa [Action.concerns] using Ne.symm hkey
        rw [List.filter_cons_of_neg hother, ih, unsuperseded]
        split
        · rw [List.filter_cons_of_neg (by simpa using hkey)]
        · rfl
    | cancel k =>
      rw [unsuperseded, ← ih]
      by_cases hkey : key = k
      · rw [List.filter_cons_of_pos (by simpa [Action.concerns] using hkey), unsuperseded]
      · rw [List.filter_cons_of_neg (by simpa [Action.concerns] using hkey)]
    | cancelAll => exact ih
    | elapse ms => exact ih

/-! ## One action -/

/-- What an action does before passes take place. Only the table and the count are left open. -/
theorem Sound.perform_eq (h : d.Sound) (a : Action) : ∃ started table, d.perform a =
    { d with
      now := d.now + a.duration
      started := started
      table := table
      waiting := (d.waiting.filter fun p => !a.ends p.key) ++ a.starts d } := by
  cases a with
  | schedule key g =>
    obtain ⟨table, heq⟩ := h.schedule_eq key g
    exact ⟨_, table, heq⟩
  | cancel key =>
    refine ⟨d.started, d.table.filter (·.1 != key), h.cancel_eq.trans ?_⟩
    simp only [Action.starts, List.append_nil]
    rfl
  | cancelAll =>
    refine ⟨d.started, [], h.cancelAll_eq.trans ?_⟩
    simp [Action.starts, Action.ends, Action.duration]
  | elapse ms =>
    refine ⟨d.started, d.table, ?_⟩
    simp [perform, Action.starts, Action.ends, Action.duration]

/-- The passes that an action leaves, before those take place whose time it brings. -/
def held (d : Debouncer) (a : Action) : List Pass :=
  (d.waiting.filter fun p => !a.ends p.key) ++ a.starts d

/-- Only to schedule starts a pass, and it starts one. -/
theorem Action.mem_starts_iff {p : Pass} :
    p ∈ a.starts d ↔ ∃ key g, a = .schedule key g ∧ p = d.next key g := by
  cases a with
  | schedule key g => simp [Action.starts]
  | cancel key => simp [Action.starts]
  | cancelAll => simp [Action.starts]
  | elapse ms => simp [Action.starts]

/-- No action breaks what is known of the passes. -/
theorem Sound.perform (h : d.Sound) : (d.perform a).Sound := by
  cases a with
  | schedule key g => exact h.schedule
  | cancel key => exact h.cancel
  | cancelAll => exact h.cancelAll
  | elapse ms => exact h.wait ms

/-- No action breaks what is known of the passes, with those that are due delivered. -/
theorem Sound.after (h : d.Sound) : (d.after a).Sound := h.perform.settle

/-- After an action time has gone on, and only passes and reports have changed. -/
theorem Sound.after_eq (h : d.Sound) (a : Action) : ∃ started table, d.after a =
    { d with
      now := d.now + a.duration
      started := started
      table := table
      waiting := (d.held a).filter (d.now + a.duration < ·.due)
      settled := d.settled ++
        ((d.held a).filter (·.due ≤ d.now + a.duration)).map d.deliver } := by
  obtain ⟨started, table, heq⟩ := h.perform_eq a
  refine ⟨started, table, ?_⟩
  rw [Debouncer.after, heq]
  rfl

/-! ## A run -/

/-- What is still to be delivered: of the passes that wait, and of those that are scheduled. -/
def outcome (d : Debouncer) (as : List Action) : List Settled :=
  (d.waiting.filter fun p => survives p.key (p.due - d.now) as).map d.deliver ++
    unsuperseded d.rules d.delay d.now as

/-- Where no pass waits nothing is delivered without a further action. -/
theorem Calm.outcome_nil (h : d.Calm) : d.outcome [] = [] := by
  have hnone : d.waiting.filter (fun p => survives p.key (p.due - d.now) []) = [] := by
    refine List.filter_eq_nil_iff.mpr fun p hp => ?_
    rw [survives_nil (Nat.sub_pos_of_lt (h p hp))]
    exact Bool.false_ne_true
  rw [outcome, hnone]
  rfl

/-- What is to be delivered at a state is to be delivered of the passes that an action leaves, and
of those that are scheduled after it. -/
theorem Calm.outcome_cons (h : d.Calm) (a : Action) (as : List Action) : d.outcome (a :: as) =
    ((d.held a).filter fun p => survives p.key (p.due - (d.now + a.duration)) as).map d.deliver ++
      unsuperseded d.rules d.delay (d.now + a.duration) as := by
  have hwaiting : d.waiting.filter (fun p => survives p.key (p.due - d.now) (a :: as)) =
      (d.waiting.filter fun p => !a.ends p.key).filter fun p =>
        survives p.key (p.due - (d.now + a.duration)) as := by
    rw [List.filter_filter]
    refine List.filter_congr fun p hp => ?_
    rw [survives_cons (Nat.sub_pos_of_lt (h p hp)), Nat.sub_sub, Bool.and_comm]
  rw [outcome, hwaiting, held, List.filter_append, List.map_append, List.append_assoc]
  congr 1
  cases a with
  | schedule key g =>
    have hleft : d.now + d.delay - d.now = d.delay := Nat.add_sub_cancel_left ..
    rw [unsuperseded]
    by_cases hsurvives : survives key d.delay as = true
    · simp [Action.starts, Action.duration, next, hleft, hsurvives, deliver]
    · simp [Action.starts, Action.duration, next, hleft, hsurvives]
  | cancel key => rfl
  | cancelAll => rfl
  | elapse ms => rfl

/-- Passes whose time has come survive. -/
theorem ready_append_perm (passes : List Pass) (now : Nat) (as : List Action) :
    (passes.filter (·.due ≤ now) ++
      (passes.filter (now < ·.due)).filter fun p => survives p.key (p.due - now) as).Perm
      (passes.filter fun p => survives p.key (p.due - now) as) := by
  have hready : passes.filter (·.due ≤ now) =
      (passes.filter fun p => survives p.key (p.due - now) as).filter (·.due ≤ now) := by
    rw [List.filter_filter]
    refine List.filter_congr fun p _ => ?_
    by_cases hdue : p.due ≤ now
    · simp [hdue, Nat.sub_eq_zero_of_le hdue, survives_zero]
    · simp [hdue]
  have hlater : (passes.filter (now < ·.due)).filter (fun p => survives p.key (p.due - now) as) =
      (passes.filter fun p => survives p.key (p.due - now) as).filter fun p => !(p.due ≤ now) := by
    rw [List.filter_filter, List.filter_filter]
    refine List.filter_congr fun p _ => ?_
    rw [Bool.and_comm, ← decide_not]
    simp only [Nat.not_le]
  rw [hready, hlater]
  exact List.filter_append_perm _ _

/-- What an action delivers was to be delivered, and the rest remains to be. -/
theorem Sound.after_outcome (h : d.Sound) (hcalm : d.Calm) (a : Action) (as : List Action) :
    ((d.after a).settled ++ (d.after a).outcome as).Perm (d.settled ++ d.outcome (a :: as)) := by
  obtain ⟨started, table, heq⟩ := h.after_eq a
  have hpasses := ready_append_perm (d.held a) (d.now + a.duration) as
  rw [hcalm.outcome_cons, heq, outcome, List.append_assoc, ← List.append_assoc (List.map _ _)]
  refine .append_left _ (.append_right _ ?_)
  exact List.map_append ▸ hpasses.map d.deliver

theorem run_cons (d : Debouncer) (a : Action) (as : List Action) :
    d.run (a :: as) = (d.after a).run as := rfl

/-- A run delivers what is to be delivered at its start. -/
theorem Sound.run_settled (h : d.Sound) (hcalm : d.Calm) (as : List Action) :
    (d.run as).settled.Perm (d.settled ++ d.outcome as) := by
  induction as generalizing d with
  | nil => rw [hcalm.outcome_nil, List.append_nil]; rfl
  | cons a as ih => exact (ih h.after (calm_settle _)).trans (h.after_outcome hcalm a as)

/-! ## The passes that wait after a run -/

/-- A pass stays through an action that does not end it and through what follows, for the rest of
its time. -/
theorem stays_cons_iff :
    Stays key left (a :: as) ↔ a.ends key = false ∧ Stays key (left - a.duration) as := by
  rw [Stays, Stays, List.forall_mem_cons, elapsed_cons, Nat.lt_sub_iff_add_lt']
  exact and_assoc

/-- A pass that stays is not yet due. -/
theorem Stays.pos (h : Stays key left as) : 0 < left := Nat.zero_lt_of_lt h.2

/-- A key waits if its last pass stays through all that follows its schedule. -/
theorem waits_iff : Waits delay key as ↔ ∃ before a later, as = before ++ a :: later ∧
    ∃ g, a = .schedule key g ∧ Stays key delay later := by
  constructor
  · rintro ⟨before, g, later, hplace, hstays⟩
    exact ⟨before, _, later, hplace, g, rfl, hstays⟩
  · rintro ⟨before, _, later, hplace, g, rfl, hstays⟩
    exact ⟨before, g, later, hplace, hstays⟩

/-- A key waits for a pass that is scheduled first, or for a later one. -/
theorem waits_cons_iff : Waits delay key (a :: as) ↔
    (∃ g, a = .schedule key g ∧ Stays key delay as) ∨ Waits delay key as := by
  rw [waits_iff, waits_iff, exists_place_cons_iff]

/-- A pass that waits after an action waited before it or was started by it. -/
theorem Sound.after_stays_iff (h : d.Sound) :
    (∃ p ∈ (d.after a).waiting, p.key = key ∧ Stays key (p.due - (d.after a).now) as) ↔
      (∃ p ∈ d.waiting, p.key = key ∧ Stays key (p.due - d.now) (a :: as)) ∨
        ∃ g, a = .schedule key g ∧ Stays key d.delay as := by
  obtain ⟨started, table, heq⟩ := h.after_eq a
  simp only [heq, held, List.mem_filter, List.mem_append, Bool.not_eq_true', decide_eq_true_eq]
  constructor
  · rintro ⟨p, ⟨⟨hp, hends⟩ | hp, -⟩, rfl, hstays⟩
    · refine .inl ⟨p, hp, rfl, stays_cons_iff.mpr ⟨hends, ?_⟩⟩
      rwa [Nat.sub_sub]
    · obtain ⟨_, g, rfl, rfl⟩ := Action.mem_starts_iff.mp hp
      have hleft : d.now + d.delay - d.now = d.delay := Nat.add_sub_cancel_left ..
      exact .inr ⟨g, rfl, hleft ▸ hstays⟩
  · rintro (⟨p, hp, rfl, hstays⟩ | ⟨g, rfl, hstays⟩)
    · obtain ⟨hends, hstays⟩ := stays_cons_iff.mp hstays
      rw [Nat.sub_sub] at hstays
      exact ⟨p, ⟨.inl ⟨hp, hends⟩, Nat.lt_of_sub_pos hstays.pos⟩, rfl, hstays⟩
    · have hleft : (d.next key g).due - (d.now + (Action.schedule key g).duration) = d.delay :=
        Nat.add_sub_cancel_left ..
      refine ⟨d.next key g, ⟨.inr (List.mem_singleton_self _), ?_⟩, rfl, hleft ▸ hstays⟩
      exact Nat.lt_of_sub_pos (hleft ▸ hstays.pos)

/-- After a run a pass waits for a key if it stayed, or if it was scheduled last and stayed. -/
theorem Sound.run_waiting_iff (h : d.Sound) (hcalm : d.Calm) (as : List Action) :
    (∃ p ∈ (d.run as).waiting, p.key = key) ↔
      (∃ p ∈ d.waiting, p.key = key ∧ Stays key (p.due - d.now) as) ∨ Waits d.delay key as := by
  induction as generalizing d with
  | nil =>
    have hstays : ∀ p ∈ d.waiting, Stays key (p.due - d.now) [] := fun p hp =>
      ⟨by simp, Nat.sub_pos_of_lt (hcalm p hp)⟩
    have hwaits : ¬ Waits d.delay key [] := by simp [Waits]
    rw [or_iff_left hwaits]
    exact exists_congr fun p => and_congr_right fun hp => (and_iff_left (hstays p hp)).symm
  | cons a as ih =>
    obtain ⟨started, table, heq⟩ := h.after_eq a
    have hdelay : (d.after a).delay = d.delay := by rw [heq]
    rw [run_cons, ih h.after (calm_settle _), h.after_stays_iff, waits_cons_iff, hdelay, or_assoc]

/-! ## Receiving and closing in the midst of a run -/

/-- To take the reports out changes nothing of what an action does. -/
theorem perform_receive (d : Debouncer) (a : Action) :
    d.receive.1.perform a = (d.perform a).receive.1 := by
  cases a with
  | schedule key g =>
    simp only [perform, receive, schedule, cancel]
    cases d.table.lookup key <;> rfl
  | cancel key =>
    simp only [perform, receive, cancel]
    cases d.table.lookup key <;> rfl
  | cancelAll => simp only [perform, receive, cancelAll, foldl_stop]
  | elapse ms => rfl

/-- An action delivers nothing before time goes on. -/
theorem perform_settled (d : Debouncer) (a : Action) : (d.perform a).settled = d.settled := by
  cases a with
  | schedule key g =>
    simp only [perform, schedule, cancel]
    cases d.table.lookup key <;> rfl
  | cancel key =>
    simp only [perform, cancel]
    cases d.table.lookup key <;> rfl
  | cancelAll => simp only [perform, cancelAll, foldl_stop]
  | elapse ms => rfl

/-- Reports that are taken out are not delivered again, and no others are lost. -/
theorem after_receive (d : Debouncer) (a : Action) :
    (d.receive.1.after a).receive.1 = (d.after a).receive.1 ∧
      (d.after a).settled = d.settled ++ (d.receive.1.after a).settled := by
  have hafter : d.receive.1.after a = (d.perform a).receive.1.settle := by
    rw [after, perform_receive]
  refine ⟨by rw [hafter]; rfl, ?_⟩
  have hsettled : (d.after a).settled = (d.perform a).settled ++
      (d.perform a).receive.1.settle.settled := rfl
  rw [hsettled, perform_settled, hafter]

/-- What is received in the midst of a run is not delivered again, and nothing else is lost. -/
theorem run_receive (d : Debouncer) (as : List Action) :
    (d.run as).settled = d.settled ++ (d.receive.1.run as).settled := by
  induction as generalizing d with
  | nil => exact (List.append_nil _).symm
  | cons a as ih =>
    obtain ⟨hrest, hsettled⟩ := after_receive d a
    calc (d.run (a :: as)).settled
        = (d.after a).settled ++ ((d.after a).receive.1.run as).settled := ih _
      _ = d.settled ++ ((d.receive.1.after a).settled ++
            ((d.receive.1.after a).receive.1.run as).settled) := by
        rw [hsettled, hrest, List.append_assoc]
      _ = d.settled ++ (d.receive.1.run (a :: as)).settled := by rw [← ih]; rfl

/-- What is known of the passes holds after every run. -/
theorem Sound.run (h : d.Sound) (as : List Action) : (d.run as).Sound := by
  induction as generalizing d with
  | nil => exact h
  | cons a as ih => exact ih h.after

theorem run_append (d : Debouncer) (as later : List Action) :
    d.run (as ++ later) = (d.run as).run later := List.foldl_append

/-- A session that is closed cancels all passes. -/
theorem Sound.close_eq (h : d.Sound) (s : Session) :
    { s with debouncer := some d }.close = some (d.after .cancelAll) := by
  have hcancelled : d.cancelAll.settle = d.cancelAll := by
    rw [h.cancelAll_eq]
    simp [Debouncer.settle, ready]
  exact congrArg some hcancelled.symm

/-- In the end exactly the reports that nothing supersedes are delivered, in some order. -/
theorem run_start_settled (rules : List Rule) (delay : Nat) (as : List Action) :
    ((start rules delay).run as).settled.Perm (unsuperseded rules delay 0 as) :=
  (sound_start rules delay).run_settled (by simp [Calm, start]) as

/-- In the end a pass waits for exactly the keys that wait. -/
theorem run_start_waiting_iff (rules : List Rule) (delay : Nat) (as : List Action) :
    (∃ p ∈ ((start rules delay).run as).waiting, p.key = key) ↔ Waits delay key as := by
  rw [(sound_start rules delay).run_waiting_iff (by simp [Calm, start])]
  simp [start]

/-- The passes delivered by a run are exactly those that nothing ends before their time comes, each
delivered once, for its key, when it is due, with what was found in the graph that it was
scheduled with. Actions on other keys do not matter to a key. At every time the keys of
the passes that wait are counted, which are those whose last pass is neither delivered nor
cancelled. What was delivered is received once, whenever that is, and closing a session is
cancelling all keys. -/
theorem run_delivers_unsuperseded (rules : List Rule) (delay : Nat) (as : List Action) :
    ((start rules delay).run as).settled.Perm (unsuperseded rules delay 0 as) ∧
    (∀ r, r ∈ ((start rules delay).run as).settled ↔
      ∃ before key g later, as = before ++ .schedule key g :: later ∧
        delay ≤ elapsed later ∧
        (¬ ∃ first a rest, later = first ++ a :: rest ∧ a.ends key = true ∧
          elapsed first < delay) ∧
        r = ⟨elapsed before + delay, key, ⟨g.validateBy rules⟩⟩) ∧
    (∀ key, (((start rules delay).run as).settled.filter (·.key == key)).Perm
      (((start rules delay).run (as.filter (·.concerns key))).settled.filter (·.key == key))) ∧
    (∃ keys : List String, keys.Nodup ∧ (∀ key, key ∈ keys ↔ Waits delay key as) ∧
      ((start rules delay).run as).pending.length = keys.length) ∧
    (∀ key, ((start rules delay).run as).waitsFor key = true ↔ Waits delay key as) ∧
    ((start rules delay).run as).receive.2.Perm ((start rules delay).run as).settled ∧
    (∀ later, ((start rules delay).run (as ++ later)).settled =
      ((start rules delay).run as).settled ++
        (((start rules delay).run as).receive.1.run later).settled) ∧
    (∀ s : Session, { s with debouncer := some ((start rules delay).run as) }.close =
      some ((start rules delay).run (as ++ [.cancelAll]))) := by
  have hsound : ((start rules delay).run as).Sound := (sound_start rules delay).run as
  have hsettled := run_start_settled rules delay as
  refine ⟨hsettled, fun r => ?_, fun key => ?_, ?_, fun key => ?_, receive_perm _,
    fun later => ?_, fun s => ?_⟩
  · rw [hsettled.mem_iff, mem_unsuperseded_iff]
    simp only [survives_iff, Nat.zero_add]
    constructor
    · rintro ⟨before, _, later, hplace, key, g, rfl, ⟨htime, hends⟩, hr⟩
      exact ⟨before, key, g, later, hplace, htime, hends, hr⟩
    · rintro ⟨before, key, g, later, hplace, htime, hends, hr⟩
      exact ⟨before, _, later, hplace, key, g, rfl, ⟨htime, hends⟩, hr⟩
  · have hother := run_start_settled rules delay (as.filter (·.concerns key))
    refine (hsettled.filter _).trans (.trans ?_ (hother.filter _).symm)
    rw [unsuperseded_concerning]
  · refine ⟨((start rules delay).run as).pending.map Prod.fst, hsound.pending_keys_nodup,
      fun key => ?_, (List.length_map _).symm⟩
    rw [hsound.mem_pending_keys_iff, run_start_waiting_iff]
  · rw [hsound.waitsFor_iff, run_start_waiting_iff]
  · rw [run_append, run_receive]
  · rw [hsound.close_eq, run_append]
    rfl

end Workflow.Debouncer
