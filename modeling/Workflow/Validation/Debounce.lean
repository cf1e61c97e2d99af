import Workflow.Validation.Report

/-!
# Debounced validation

While a draft is edited, a validation waits until the edits of its key have paused
for the delay. Scheduling a key again stops the pass that waits for it; other keys
are not affected. A pass validates the graph as it was when the pass was scheduled.

A pass is started once and from then on waits by itself. What is kept of it is its number,
in a table under its key. Stopping a pass takes it out of the table, but a pass that has
taken place stays in the table until the next one is scheduled. Time is counted in
milliseconds and moves only by `elapse`.
-/

namespace Workflow

/-- A validation that has been started and waits for its time. -/
structure Pass where
  /-- Tells it from all others. Passes are numbered as they are started. -/
  number : Nat
  /-- What was edited. -/
  key : String
  /-- When the validation takes place. -/
  due : Nat
  /-- The graph to validate. -/
  graph : Graph
  deriving DecidableEq, Repr

/-- A validation that has taken place. -/
structure Settled where
  /-- When it took place. -/
  time : Nat
  /-- What was edited. -/
  key : String
  /-- What it found. -/
  report : Report
  deriving DecidableEq, Repr

/-- The validations that wait and those that have not been received yet. -/
structure Debouncer where
  /-- The rules to validate with. -/
  rules : List Rule
  /-- How long a validation waits. -/
  delay : Nat
  /-- The time that has passed. -/
  now : Nat
  /-- How many passes have been started. -/
  started : Nat
  /-- The passes that wait, in the order in which they were started. A pass that has taken
  place or was stopped is not among them. -/
  waiting : List Pass
  /-- The number of the pass last scheduled for a key, unless that pass was stopped. -/
  table : List (String × Nat)
  /-- The validations to be received, in the order in which they took place. -/
  settled : List Settled
  deriving DecidableEq, Repr

namespace Debouncer

variable (d : Debouncer)

/-- No validation waits at the start. -/
def start (rules : List Rule) (delay : Nat) : Debouncer := ⟨rules, delay, 0, 0, [], [], []⟩

/-- Whether a pass neither has taken place nor was stopped. -/
def isWaiting (number : Nat) : Bool := d.waiting.any (·.number == number)

/-- Stops a pass, which never takes place if it still waits. -/
def stop (number : Nat) : Debouncer :=
  { d with waiting := d.waiting.filter (·.number != number) }

/-- Starts a pass over a graph. -/
def launch (key : String) (g : Graph) : Debouncer :=
  { d with
    started := d.started + 1
    waiting := d.waiting ++ [⟨d.started, key, d.now + d.delay, g⟩]
    table := d.table.filter (·.1 != key) ++ [(key, d.started)] }

/-- The entries of the passes that neither have taken place nor were stopped. -/
def pending : List (String × Nat) := d.table.filter fun entry => d.isWaiting entry.2

/-- Forgets the passes that have taken place. -/
def prune : Debouncer := { d with table := d.pending }

/-- Whether a validation waits for a key. -/
def waitsFor (key : String) : Bool := (d.table.lookup key).any d.isWaiting

/-- Cancels the validation that waits for a key. -/
def cancel (key : String) : Debouncer :=
  match d.table.lookup key with
  | some number => { d with table := d.table.filter (·.1 != key) }.stop number
  | none => d

/-- Cancels all validations. -/
def cancelAll : Debouncer :=
  (d.table.map Prod.snd).foldl stop { d with table := [] }

/-- Schedules a validation of a graph, in the place of one that waits for the same key. -/
def schedule (key : String) (g : Graph) : Debouncer := (d.cancel key).prune.launch key g

/-- What a pass delivers. -/
def deliver (p : Pass) : Settled := ⟨p.due, p.key, ⟨p.graph.validateBy d.rules⟩⟩

/-- The passes whose time has come. -/
def ready : List Pass := d.waiting.filter (·.due ≤ d.now)

/-- All validations take place whose time has come. -/
def settle : Debouncer :=
  { d with
    waiting := d.waiting.filter (d.now < ·.due)
    settled := d.settled ++ d.ready.map d.deliver }

/-- Lets time pass. -/
def elapse (ms : Nat) : Debouncer := { d with now := d.now + ms }.settle

/-- Received validations are ordered by time and then by key. -/
def inOrder (a b : Settled) : Bool := a.time < b.time || (a.time == b.time && a.key ≤ b.key)

/-- Receives what has settled. -/
def receive : Debouncer × List Settled :=
  ({ d with settled := [] }, d.settled.mergeSort inOrder)

/-- Lets time pass, and receives what has settled. -/
def advance (ms : Nat) : Debouncer × List Settled := (d.elapse ms).receive

end Debouncer

end Workflow
