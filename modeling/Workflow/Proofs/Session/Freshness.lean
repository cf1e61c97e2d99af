import Mathlib.Data.List.Induction
import Workflow.Proofs.Session.Following

/-!
# Stale and fresh reports

A report tells what was found in the draft as it was when its pass was scheduled. A later change
under another key leaves the pass alone, so the report may be stale when it is delivered. It is
then stale because of such a change, and a fresh one follows: the pass started last has
validated the draft as it is. Once nothing has been scheduled for as long as the delay, no pass
waits and what was delivered last for a key scheduled last is the verdict on the draft.
-/

namespace Workflow.Session

/-- Whether what a step leaves is judged as what it found. -/
def KeepsVerdict (s : Session) (step : Step) : Prop := (s.after step).validate = s.validate

/-- A report goes back to a change in a run that scheduled its key, and to the draft that this
change left. Nothing has scheduled the key since. -/
structure Stems (s₀ : Session) (delay : Nat) (before : List Step) (m : Mutation) (s₁ : Session)
    (later : List Step) (r : Settled) : Prop where
  /-- The change succeeded. -/
  mutated : (s₀.run before).mutate m = some s₁
  /-- It scheduled the key. -/
  key_mem : r.key ∈ m.keys (s₀.run before).graph
  /-- The pass was due when the delay had passed. -/
  time_eq : r.time = elapsed before + delay
  /-- The draft that the change left was validated. -/
  report_eq : r.report = s₁.validate
  /-- The key was not scheduled again. -/
  unscheduled : Throughout (fun s step => r.key ∉ s.scheduled step) s₁.settle later

variable {s₀ s s₁ s' : Session} {d e : Debouncer} {delay : Nat} {before later steps : List Step}
  {m : Mutation} {step : Step} {r : Settled} {passes : List Pass}

theorem run_mutate (h : (s₀.run before).mutate m = some s₁) (later : List Step) :
    s₀.run (before ++ .mutate m :: later) = s₁.settle.run later := by
  rw [run_append]
  exact congrArg (fun s => (settle s).run later) (perform_mutate h)

theorem Stems.snoc (h : s₀.Stems delay before m s₁ later r)
    (hkey : r.key ∉ (s₀.run (before ++ .mutate m :: later)).scheduled step) :
    s₀.Stems delay before m s₁ (later ++ [step]) r := by
  rw [run_mutate h.mutated] at hkey
  exact { h with unscheduled := throughout_append.mpr ⟨h.unscheduled, hkey, trivial⟩ }

/-- What a pass delivers goes back to a change in a run. -/
def Traced (s₀ : Session) (delay : Nat) (steps : List Step) (r : Settled) : Prop :=
  ∃ before m s₁ later, steps = before ++ .mutate m :: later ∧ s₀.Stems delay before m s₁ later r

/-- What the passes that wait deliver is traced from step to step. -/
theorem Stepped.traced (h : (s₀.run steps).Stepped d step e passes)
    (hnow : d.now = elapsed steps) (hdelay : d.delay = delay)
    (htraced : ∀ p ∈ d.waiting, s₀.Traced delay steps (d.deliver p)) :
    ∀ p ∈ e.waiting, s₀.Traced delay (steps ++ [step]) (e.deliver p) := by
  intro p hp
  rw [h.waiting] at hp
  rcases List.mem_append.mp hp with hp | hp
  · -- The pass waited before, and the step does not schedule its key.
    obtain ⟨hp, hother⟩ := List.mem_filter.mp hp
    have hkey : p.key ∉ (s₀.run steps).scheduled step := by simpa using hother
    obtain ⟨before, m, s₁, later, rfl, hstems⟩ := htraced p hp
    have hsame : e.deliver p = d.deliver p := by rw [Debouncer.deliver, h.rules]; rfl
    rw [hsame]
    exact ⟨before, m, s₁, later ++ [step], by simp, hstems.snoc hkey⟩
  · -- The step is a change that started the pass.
    obtain ⟨-, hdue, hgraph⟩ := h.fresh p hp
    have hkey : p.key ∈ (s₀.run steps).scheduled step := h.keys ▸ List.mem_map_of_mem hp
    obtain ⟨m, s₁, rfl, hmutated, hmem⟩ := mem_scheduled_iff.mp hkey
    have hrules := h.follows.rules
    rw [perform_mutate hmutated] at hgraph hrules
    refine ⟨steps, m, s₁, [], rfl, hmutated, hmem, ?_, ?_, trivial⟩
    · rw [← hnow, ← hdelay]
      exact hdue
    · rw [Debouncer.deliver, validate, hgraph, hrules]

/-- What the passes that wait at any time of a run deliver goes back to a change in the run. -/
theorem Follows.traced (h : ((s.withDebounce delay).run steps).Follows d) :
    ∀ p ∈ d.waiting, (s.withDebounce delay).Traced delay steps (d.deliver p) := by
  induction steps using List.reverseRecOn generalizing d with
  | nil =>
    obtain rfl : d = .start s.rules delay := Option.some.inj h.debouncer.symm
    simp [Debouncer.start]
  | append_singleton steps step ih =>
    obtain ⟨d₀, hfollows, hnow, hdelay⟩ := follows_run s delay steps
    obtain ⟨e, passes, hstepped⟩ := hfollows.stepped step
    rw [run_append] at h
    obtain rfl : d = e.settle :=
      Option.some.inj (h.debouncer.symm.trans hstepped.follows.settle.debouncer)
    intro p hp
    have hwaited : p ∈ e.waiting := (Debouncer.mem_settle_waiting_iff.mp hp).1
    exact hstepped.traced hnow hdelay (ih hfollows) p hwaited

/-- While a pass waits, the one started last is not due earlier and has validated the draft as it
is. -/
theorem Follows.exists_newest (h : s.Follows d) {p : Pass} (hp : p ∈ d.waiting) :
    ∃ q ∈ d.waiting, p.due ≤ q.due ∧ (d.deliver q).report = s.validate := by
  rcases List.eq_nil_or_concat' d.waiting with hnil | ⟨front, q, hlast⟩
  · simp [hnil] at hp
  · have hq : q ∈ d.waiting := by simp [hlast]
    refine ⟨q, hq, ?_, h.newest q (by simp [hlast])⟩
    rw [hlast] at hp
    rcases List.mem_append.mp hp with hfront | hsame
    · exact (List.pairwise_append.mp (hlast ▸ h.ordered)).2.2 p hfront q (List.mem_singleton_self q)
    · exact Nat.le_of_eq (congrArg Pass.due (List.mem_singleton.mp hsame))

/-- What a report is followed by: one for another key that is not delivered earlier and gives the
verdict on the draft as it is. It is delivered together with the report or waits. -/
def Followed (s : Session) (delivered : List Settled) (r : Settled) : Prop :=
  ∃ fresh : Settled, fresh.key ≠ r.key ∧ r.time ≤ fresh.time ∧ fresh.report = s.validate ∧
    (fresh ∈ delivered ∨ ∃ d, s.debouncer = some d ∧ ∃ p ∈ d.waiting, d.deliver p = fresh)

theorem Stepped.delivers (h : s.Stepped d step e passes) (hd : s.debouncer = some d) :
    (s.after step).channel = s.channel ++ e.ready.map e.deliver := by
  have hafter : (s.after step).debouncer = some e.settle := h.follows.settle.debouncer
  rw [channel, channel, hafter, hd]
  exact congrArg (· ++ _) h.settled

/-- Every report that a session delivers goes back to the change that scheduled its pass one delay
earlier and gives the verdict on the draft that this change left. It is stale only if the verdict
has changed since, by changes that did not schedule its key, and then a report for another key
follows that is not. -/
theorem delivered_report (s₀ : Session) (delay : Nat) (steps : List Step) (step : Step) :
    ∃ delivered,
      ((s₀.withDebounce delay).run (steps ++ [step])).channel =
        ((s₀.withDebounce delay).run steps).channel ++ delivered ∧
      ∀ r ∈ delivered, ∃ before m s₁ later, steps ++ [step] = before ++ .mutate m :: later ∧
        (s₀.withDebounce delay).Stems delay before m s₁ later r ∧
        (r.report = ((s₀.withDebounce delay).run (steps ++ [step])).validate ∨
          ¬ Throughout KeepsVerdict s₁.settle later ∧
            ((s₀.withDebounce delay).run (steps ++ [step])).Followed delivered r) := by
  obtain ⟨d, hfollows, hnow, hdelay⟩ := follows_run s₀ delay steps
  obtain ⟨e, passes, hstepped⟩ := hfollows.stepped step
  have hrun : (s₀.withDebounce delay).run (steps ++ [step]) =
      ((s₀.withDebounce delay).run steps).after step := run_append _ _ _
  refine ⟨e.ready.map e.deliver, by rw [hrun, hstepped.delivers hfollows.debouncer], fun r hr => ?_⟩
  obtain ⟨p, hp, rfl⟩ := List.mem_map.mp hr
  obtain ⟨hp, hdue⟩ := List.mem_filter.mp hp
  obtain ⟨before, m, s₁, later, hplace, hstems⟩ := hstepped.traced hnow hdelay hfollows.traced p hp
  refine ⟨before, m, s₁, later, hplace, hstems, or_iff_not_imp_left.mpr fun hstale => ⟨?_, ?_⟩⟩
  · intro hkeeps
    rw [hplace, run_mutate hstems.mutated, hkeeps.validate_run] at hstale
    exact hstale hstems.report_eq
  · obtain ⟨q, hq, hle, hfresh⟩ := hstepped.follows.exists_newest hp
    rw [hrun] at hstale ⊢
    have hne : q.key ≠ p.key := fun hkey =>
      hstale (hstepped.follows.sound.eq_of_key_eq hq hp hkey ▸ hfresh)
    refine ⟨e.deliver q, hne, hle, hfresh, ?_⟩
    by_cases hready : q.due ≤ e.now
    · exact .inl (List.mem_map_of_mem (List.mem_filter.mpr ⟨hq, by simpa using hready⟩))
    · exact .inr ⟨e.settle, hstepped.follows.settle.debouncer, q,
        Debouncer.mem_settle_waiting_iff.mpr ⟨hq, Nat.not_le.mp hready⟩, rfl⟩

/-- A session over two tasks with different labels. -/
def twoTasks : Session :=
  let a := { Node.restore ⟨"a"⟩ .start none (some ⟨"a.out"⟩) with label := "A" }
  let b := { Node.restore ⟨"b"⟩ .start none (some ⟨"b.out"⟩) with label := "B" }
  ofGraph ⟨[a, b], [], []⟩ (.named "draft" "two tasks")

/-- Gives a task of the session another label. -/
def relabel (id label : String) : Mutation :=
  .updateNode ⟨id⟩ { Patch.empty with label := label }

/-- A report of a clash that was mended a quarter of a second ago is delivered, for the mending
changed another node. A quarter of a second later a report for that node follows. -/
theorem stale_report_delivered :
    let s := twoTasks.withDebounce 500
    let steps : List Step := [.mutate (relabel "a" "B"), .elapse 250, .mutate (relabel "b" "C")]
    let report : Report := ⟨[⟨⟨"a"⟩, "label", "Task name already exists"⟩,
      ⟨⟨"b"⟩, "label", "Task name already exists"⟩]⟩
    (s.run steps).channel = [] ∧
    (s.run (steps ++ [.elapse 250])).channel = [⟨500, "label:a", report⟩] ∧
    (s.run (steps ++ [.elapse 250])).validate = ⟨[]⟩ ∧
    (s.run (steps ++ [.elapse 250, .elapse 250])).channel =
      [⟨500, "label:a", report⟩, ⟨750, "label:b", ⟨[]⟩⟩] := by
  decide +kernel

/-! ## Catching up -/

theorem validate_perform (h : s.scheduled step = []) : (s.perform step).validate = s.validate := by
  cases step with
  | elapse ms => rfl
  | mutate m =>
    cases hm : s.mutate m with
    | none => simp [perform, hm]
    | some s' =>
      rw [perform_mutate hm]
      exact validate_of_keys_eq_nil hm (by simpa [scheduled, hm] using h)

/-- Of a run that schedules nothing, only the time counts. -/
theorem Follows.run_quiet (h : s.Follows d)
    (hquiet : Throughout (fun s step => s.scheduled step = []) s.settle later) :
    ∃ e, (s.settle.run later).Follows e ∧ e.now = d.now + elapsed later ∧
      e.waiting = d.waiting.filter (e.now < ·.due) ∧
      e.settled = d.settled ++ (d.waiting.filter (·.due ≤ e.now)).map d.deliver ∧
      (s.settle.run later).validate = s.validate := by
  induction later generalizing s d with
  | nil => exact ⟨d.settle, h.settle, rfl, rfl, rfl, rfl⟩
  | cons step later ih =>
    obtain ⟨hnone, hquiet⟩ := hquiet
    obtain ⟨e, passes, hstepped⟩ := h.settle.stepped step
    obtain ⟨last, hfollows, hnow, hwaiting, hsettled, hvalidate⟩ := ih hstepped.follows hquiet
    have hlast : last.now = d.now + elapsed (step :: later) := by
      have hsame : e.now = d.now + step.duration := hstepped.now
      rw [hnow, hsame, elapsed_cons, Nat.add_assoc]
    have hle : d.now ≤ last.now := hlast ▸ Nat.le_add_right _ _
    have hpasses : passes = [] := List.map_eq_nil_iff.mp (hstepped.keys.trans hnone)
    have hleft : e.waiting = d.waiting.filter (d.now < ·.due) := by
      rw [hstepped.waiting, hpasses, hnone]
      simp [Debouncer.settle]
    refine ⟨last, hfollows, hlast, ?_, ?_, hvalidate.trans (validate_perform hnone)⟩
    · rw [hwaiting, hleft, List.filter_filter]
      refine List.filter_congr fun p _ => ?_
      have himp : last.now < p.due → d.now < p.due := Nat.lt_of_le_of_lt hle
      by_cases hdue : last.now < p.due
      · simp [hdue, himp hdue]
      · simp [hdue]
    · have hdeliver : e.deliver = d.deliver := by
        funext p
        rw [Debouncer.deliver, hstepped.rules]
        rfl
      rw [hsettled, hstepped.settled, hdeliver, hleft, ← filter_due_append h.ordered hle,
        List.map_append, ← List.append_assoc]
      rfl

/-- A change of the verdict starts a pass over the draft. -/
theorem Follows.exists_started (h : s.Follows d) (hm : s.mutate m = some s₁)
    (hverdict : s₁.validate ≠ s.validate) :
    ∃ e p, s₁.debouncer = some e ∧ p ∈ e.waiting ∧ p ∉ d.waiting ∧ p.key ∈ m.keys s.graph ∧
      p.graph = s₁.graph ∧ p.due = d.now + d.delay := by
  obtain ⟨e, passes, hstepped⟩ := h.stepped (.mutate m)
  have hkeys : passes.map Pass.key = m.keys s.graph := by
    rw [hstepped.keys, scheduled, hm]
    rfl
  have hsome : passes ≠ [] := by
    rintro rfl
    exact hverdict (validate_of_keys_eq_nil hm hkeys.symm)
  obtain ⟨p, hp⟩ := List.exists_mem_of_ne_nil passes hsome
  obtain ⟨hnumber, hdue, hgraph⟩ := hstepped.fresh p hp
  rw [perform_mutate hm] at hgraph
  refine ⟨e, p, perform_mutate hm ▸ hstepped.follows.debouncer, ?_, fun hold => ?_,
    hkeys ▸ List.mem_map_of_mem hp, hgraph, hdue⟩
  · rw [hstepped.waiting]
    exact List.mem_append_right _ hp
  · exact absurd (h.sound.number_lt_started hold) (Nat.not_lt.mpr hnumber)

/-- When the delay has passed after a change and nothing has been scheduled since, all passes have
taken place, and that of a key of the change has found what is found now. -/
theorem Follows.caught_up (h : s.Follows d) (hm : s.mutate m = some s₁) {key : String}
    (hkey : key ∈ m.keys s.graph)
    (hquiet : Throughout (fun s step => s.scheduled step = []) s₁.settle later)
    (htime : d.delay ≤ elapsed later) :
    (∃ last, (s₁.settle.run later).debouncer = some last ∧ last.pending = []) ∧
    (s₁.settle.run later).channel.filter (·.key == key) = s.channel.filter (·.key == key) ++
      [⟨d.now + d.delay, key, (s₁.settle.run later).validate⟩] := by
  obtain ⟨e, passes, hstepped⟩ := h.stepped (.mutate m)
  have hfollows : s₁.Follows e := perform_mutate hm ▸ hstepped.follows
  obtain ⟨last, hlast, hnow, hwaiting, hsettled, hvalidate⟩ := hfollows.run_quiet hquiet
  have hdue : ∀ p ∈ e.waiting, p.due ≤ last.now := by
    intro p hp
    refine Nat.le_trans (hfollows.due_le p hp) ?_
    rw [hnow, hstepped.delay]
    exact Nat.add_le_add_left htime _
  have hkeys : key ∈ passes.map Pass.key := by
    rw [hstepped.keys, scheduled, hm]
    exact hkey
  obtain ⟨p, hp, rfl⟩ := List.mem_map.mp hkeys
  obtain ⟨-, hpdue, hpgraph⟩ := hstepped.fresh p hp
  have hmem : p ∈ e.waiting := hstepped.waiting ▸ List.mem_append_right _ hp
  refine ⟨⟨last, hlast.debouncer, Debouncer.pending_eq_nil ?_⟩, ?_⟩
  · rw [hwaiting]
    exact List.filter_eq_nil_iff.mpr fun p hp => by simpa using hdue p hp
  · have hall : e.waiting.filter (·.due ≤ last.now) = e.waiting :=
      List.filter_eq_self.mpr fun p hp => by simpa using hdue p hp
    have hreport : e.deliver p = ⟨d.now + d.delay, p.key, (s₁.settle.run later).validate⟩ := by
      rw [hvalidate, validate, Debouncer.deliver, hpdue, hpgraph, perform_mutate hm, hfollows.rules]
    have hdelivered : (e.waiting.map e.deliver).filter (·.key == p.key) = [e.deliver p] := by
      rw [List.filter_map]
      exact congrArg (List.map e.deliver) (hfollows.sound.filter_key_eq hmem)
    have hbefore : s.channel = d.settled := by rw [channel, h.debouncer]; rfl
    have hafter : (s₁.settle.run later).channel = last.settled := by
      rw [channel, hlast.debouncer]
      rfl
    rw [hafter, hbefore, hsettled, hall, hstepped.settled, List.filter_append, hdelivered, hreport]

/-- Validation catches up with the draft. A change that succeeds and changes the verdict starts a
pass over the draft that it leaves. When the delay has passed after a change without anything
having been scheduled since, no pass waits, and for each key of the change just the verdict on
the draft has been delivered since. -/
theorem validation_catches_up (s₀ : Session) (delay : Nat) :
    (∀ steps m s', ((s₀.withDebounce delay).run steps).mutate m = some s' →
      s'.validate ≠ ((s₀.withDebounce delay).run steps).validate →
      ∃ d e p, ((s₀.withDebounce delay).run steps).debouncer = some d ∧ s'.debouncer = some e ∧
        p ∈ e.waiting ∧ p ∉ d.waiting ∧
        p.key ∈ m.keys ((s₀.withDebounce delay).run steps).graph ∧ p.graph = s'.graph ∧
        p.due = elapsed steps + delay) ∧
    (∀ before m s₁ later key, ((s₀.withDebounce delay).run before).mutate m = some s₁ →
      key ∈ m.keys ((s₀.withDebounce delay).run before).graph →
      Throughout (fun s step => s.scheduled step = []) s₁.settle later → delay ≤ elapsed later →
      (∃ d, ((s₀.withDebounce delay).run (before ++ .mutate m :: later)).debouncer = some d ∧
        d.pending = []) ∧
      ((s₀.withDebounce delay).run (before ++ .mutate m :: later)).channel.filter (·.key == key) =
        ((s₀.withDebounce delay).run before).channel.filter (·.key == key) ++
          [⟨elapsed before + delay, key,
            ((s₀.withDebounce delay).run (before ++ .mutate m :: later)).validate⟩]) := by
  refine ⟨fun steps m s' hm hverdict => ?_, fun before m s₁ later key hm hkey hquiet htime => ?_⟩
  · obtain ⟨d, hfollows, hnow, hdelay⟩ := follows_run s₀ delay steps
    obtain ⟨e, p, he, hp, hnew, hkey, hgraph, hdue⟩ := hfollows.exists_started hm hverdict
    rw [hnow, hdelay] at hdue
    exact ⟨d, e, p, hfollows.debouncer, he, hp, hnew, hkey, hgraph, hdue⟩
  · obtain ⟨d, hfollows, hnow, hdelay⟩ := follows_run s₀ delay before
    have hcaught := hfollows.caught_up hm hkey hquiet (hdelay ▸ htime)
    rw [hnow, hdelay] at hcaught
    rw [run_mutate hm]
    exact hcaught

/-- A clash of labels is mended: a pass over the mended draft is started, and half a second later no
pass waits and just the verdict has been delivered for the mended node. -/
theorem mended_clash_caught_up :
    let s := twoTasks.withDebounce 500
    let before : List Step := [.mutate (relabel "a" "B"), .elapse 250]
    let steps : List Step := before ++ [.mutate (relabel "b" "C"), .elapse 500]
    ∃ s₁, (s.run before).mutate (relabel "b" "C") = some s₁ ∧
      (∃ e p, s₁.debouncer = some e ∧ p ∈ e.waiting ∧ p.graph = s₁.graph ∧ p.due = 750) ∧
      (∃ d, (s.run steps).debouncer = some d ∧ d.pending = []) ∧
      (s.run steps).channel.filter (·.key == "label:b") = [⟨750, "label:b", ⟨[]⟩⟩] := by
  intro s before steps
  obtain ⟨hstarted, hcaught⟩ := validation_catches_up twoTasks 500
  obtain ⟨s₁, hs₁⟩ : ∃ s₁, (s.run before).mutate (relabel "b" "C") = some s₁ :=
    Option.isSome_iff_exists.mp (by decide +kernel)
  have hverdict : s₁.validate ≠ (s.run before).validate := by
    have hchanged : ((s.run before).mutate (relabel "b" "C")).map validate ≠
        some (s.run before).validate := by decide +kernel
    rw [hs₁] at hchanged
    exact fun hsame => hchanged (congrArg some hsame)
  obtain ⟨_, e, p, -, he, hp, -, -, hgraph, hdue⟩ := hstarted before _ s₁ hs₁ hverdict
  obtain ⟨hpending, hchannel⟩ := hcaught before _ s₁ [.elapse 500] "label:b" hs₁
    (by decide +kernel) ⟨rfl, trivial⟩ (by decide)
  have hnothing : (s.run before).channel = [] := by decide +kernel
  have hvalid : (s.run steps).validate = ⟨[]⟩ := by decide +kernel
  refine ⟨s₁, hs₁, ⟨e, p, he, hp, hgraph, hdue⟩, hpending, hchannel.trans ?_⟩
  rw [hnothing]
  exact congrArg (fun report => [(⟨750, "label:b", report⟩ : Settled)]) hvalid

end Workflow.Session
