import Mathlib.Data.List.Nodup
import Workflow.Validation.Debounce

/-!
# Passes that wait

A pass that waits is listed in the table under its key, and no other pass is. So stopping
what is listed under a key stops every pass of that key, and the passes that wait can be
counted by the table although the table remembers passes that have taken place. For each
operation on a debouncer, which passes wait after it; later proofs rest on this.
-/

namespace Workflow.Debouncer

variable {d : Debouncer} {key : String} {g : Graph} {p q : Pass}

/-- What the table says of the passes that wait. -/
structure Sound (d : Debouncer) : Prop where
  /-- A key is listed once. -/
  nodup_keys : (d.table.map Prod.fst).Nodup
  /-- A pass is listed once. -/
  nodup_numbers : (d.table.map Prod.snd).Nodup
  /-- A pass that is listed has been started. -/
  lt_started : ∀ entry ∈ d.table, entry.2 < d.started
  /-- The passes that wait are in the order in which they were started. -/
  ordered : d.waiting.Pairwise fun p q => p.number < q.number
  /-- A pass that waits is listed under its key. -/
  listed : ∀ p ∈ d.waiting, (p.key, p.number) ∈ d.table

/-- A listed pass that waits is listed under its own key. -/
theorem Sound.number_eq_iff (h : d.Sound) (hp : p ∈ d.waiting) {entry : String × Nat}
    (hentry : entry ∈ d.table) : p.number = entry.2 ↔ p.key = entry.1 := by
  have hlisted := h.listed p hp
  constructor
  · intro hnumber
    exact congrArg Prod.fst (List.inj_on_of_nodup_map h.nodup_numbers hlisted hentry hnumber)
  · intro hkey
    exact congrArg Prod.snd (List.inj_on_of_nodup_map h.nodup_keys hlisted hentry hkey)

/-- At most one pass waits for a key. -/
theorem Sound.eq_of_key_eq (h : d.Sound) (hp : p ∈ d.waiting) (hq : q ∈ d.waiting)
    (hkey : p.key = q.key) : p = q := by
  have hnumber : p.number = q.number := (h.number_eq_iff hp (h.listed q hq)).mpr hkey
  have hnodup : (d.waiting.map Pass.number).Nodup :=
    List.pairwise_map.mpr (h.ordered.imp Nat.ne_of_lt)
  exact List.inj_on_of_nodup_map hnodup hp hq hnumber

/-- Only one pass waits for each key. -/
theorem Sound.filter_key_eq (h : d.Sound) (hp : p ∈ d.waiting) :
    d.waiting.filter (·.key == p.key) = [p] := by
  have hnodup : (d.waiting.filter (·.key == p.key)).Nodup :=
    (h.ordered.imp fun hlt heq => absurd (congrArg Pass.number heq) (Nat.ne_of_lt hlt)).filter _
  refine List.perm_singleton.mp ?_
  refine (List.perm_ext_iff_of_nodup hnodup (List.nodup_singleton p)).mpr fun q => ?_
  rw [List.mem_filter, List.mem_singleton, beq_iff_eq]
  constructor
  · rintro ⟨hq, hkey⟩
    exact h.eq_of_key_eq hq hp hkey
  · rintro rfl
    exact ⟨hp, rfl⟩

/-- A pass that waits has been started. -/
theorem Sound.number_lt_started (h : d.Sound) (hp : p ∈ d.waiting) : p.number < d.started :=
  h.lt_started _ (h.listed p hp)

/-- Fewer passes and fewer entries are sound if no pass that still waits lost its entry. -/
theorem Sound.restrict (h : d.Sound) {table : List (String × Nat)} {waiting : List Pass}
    (htable : table.Sublist d.table) (hwaiting : waiting.Sublist d.waiting)
    (hlisted : ∀ p ∈ waiting, (p.key, p.number) ∈ table) :
    Sound { d with table := table, waiting := waiting } where
  nodup_keys := h.nodup_keys.sublist (htable.map _)
  nodup_numbers := h.nodup_numbers.sublist (htable.map _)
  lt_started := fun entry hentry => h.lt_started entry (htable.subset hentry)
  ordered := h.ordered.sublist hwaiting
  listed := hlisted

/-- Where nothing has been started all is sound. -/
theorem sound_start (rules : List Rule) (delay : Nat) : (start rules delay).Sound :=
  ⟨List.nodup_nil, List.nodup_nil, by simp [start], List.Pairwise.nil, by simp [start]⟩

theorem isWaiting_iff {number : Nat} :
    d.isWaiting number = true ↔ ∃ p ∈ d.waiting, p.number = number := by
  simp [isWaiting]

/-- Where nothing waits nothing is pending. -/
theorem pending_eq_nil (h : d.waiting = []) : d.pending = [] := by
  simp [pending, isWaiting, h]

/-- Of the entries, those of the passes that wait are pending. -/
theorem Sound.mem_pending_iff (h : d.Sound) {entry : String × Nat} :
    entry ∈ d.pending ↔ ∃ p ∈ d.waiting, (p.key, p.number) = entry := by
  rw [pending, List.mem_filter, isWaiting_iff]
  constructor
  · rintro ⟨hentry, p, hp, hnumber⟩
    exact ⟨p, hp, Prod.ext ((h.number_eq_iff hp hentry).mp hnumber) hnumber⟩
  · rintro ⟨p, hp, rfl⟩
    exact ⟨h.listed p hp, p, hp, rfl⟩

/-- For each key at most one pass is pending. -/
theorem Sound.pending_keys_nodup (h : d.Sound) : (d.pending.map Prod.fst).Nodup :=
  h.nodup_keys.sublist (List.filter_sublist.map _)

/-- A pass is pending for exactly the keys for which one waits. -/
theorem Sound.mem_pending_keys_iff (h : d.Sound) :
    key ∈ d.pending.map Prod.fst ↔ ∃ p ∈ d.waiting, p.key = key := by
  simp only [List.mem_map, h.mem_pending_iff]
  constructor
  · rintro ⟨_, ⟨p, hp, rfl⟩, rfl⟩
    exact ⟨p, hp, rfl⟩
  · rintro ⟨p, hp, rfl⟩
    exact ⟨_, ⟨p, hp, rfl⟩, rfl⟩

/-! ## Cancelling -/

/-- A pass is found under its key if one waits for it. -/
theorem Sound.waitsFor_iff (h : d.Sound) :
    d.waitsFor key = true ↔ ∃ p ∈ d.waiting, p.key = key := by
  rw [waitsFor]
  cases hfound : d.table.lookup key with
  | none =>
    rw [List.lookup_eq_none_iff] at hfound
    simp only [Option.any_none, Bool.false_eq_true, false_iff, not_exists, not_and]
    intro p hp hkey
    simpa [hkey] using hfound _ (h.listed p hp)
  | some number =>
    obtain ⟨front, back, hsplit, -⟩ := List.lookup_eq_some_iff.mp hfound
    have hentry : (key, number) ∈ d.table := by simp [hsplit]
    rw [Option.any_some, isWaiting_iff]
    exact exists_congr fun p => and_congr_right fun hp => h.number_eq_iff hp hentry

/-- Cancelling takes the entry and the pass of a key away. -/
theorem Sound.cancel_eq (h : d.Sound) : d.cancel key =
    { d with
      table := d.table.filter (·.1 != key)
      waiting := d.waiting.filter (·.key != key) } := by
  rw [cancel]
  cases hfound : d.table.lookup key with
  | none =>
    rw [List.lookup_eq_none_iff] at hfound
    have hother : ∀ entry ∈ d.table, (entry.1 != key) = true := by
      intro entry hentry
      exact bne_iff_ne.mpr (bne_iff_ne.mp (hfound entry hentry)).symm
    rw [List.filter_eq_self.mpr hother,
      List.filter_eq_self.mpr fun p hp => hother _ (h.listed p hp)]
  | some number =>
    obtain ⟨front, back, hsplit, -⟩ := List.lookup_eq_some_iff.mp hfound
    have hentry : (key, number) ∈ d.table := by simp [hsplit]
    have hsame : d.waiting.filter (·.number != number) = d.waiting.filter (·.key != key) := by
      refine List.filter_congr fun p hp => ?_
      exact Bool.eq_iff_iff.mpr (by simpa using not_congr (h.number_eq_iff hp hentry))
    exact congrArg (fun waiting => { d with table := d.table.filter (·.1 != key), waiting }) hsame

/-- To cancel a key keeps what is known of the passes. -/
theorem Sound.cancel (h : d.Sound) : (d.cancel key).Sound := by
  rw [h.cancel_eq]
  refine h.restrict List.filter_sublist List.filter_sublist fun p hp => ?_
  obtain ⟨hp, hkey⟩ := List.mem_filter.mp hp
  exact List.mem_filter.mpr ⟨h.listed p hp, hkey⟩

/-- To stop passes one by one takes exactly them out of the waiting ones. -/
theorem foldl_stop (numbers : List Nat) (d : Debouncer) : numbers.foldl stop d =
    { d with waiting := d.waiting.filter fun p => !numbers.contains p.number } := by
  induction numbers generalizing d with
  | nil => simp
  | cons number rest ih =>
    rw [List.foldl_cons, ih, stop]
    simp only [List.filter_filter, List.contains_cons, Bool.not_or, bne, Bool.and_comm]

/-- Cancelling everything leaves no pass that waits. -/
theorem Sound.cancelAll_eq (h : d.Sound) : d.cancelAll = { d with table := [], waiting := [] } := by
  rw [cancelAll, foldl_stop]
  have hnone : d.waiting.filter (fun p => !(d.table.map Prod.snd).contains p.number) = [] := by
    refine List.filter_eq_nil_iff.mpr fun p hp => ?_
    have hlisted : p.number ∈ d.table.map Prod.snd := List.mem_map.mpr ⟨_, h.listed p hp, rfl⟩
    simpa using hlisted
  exact congrArg (fun waiting => { d with table := [], waiting }) hnone

/-- To cancel all keys keeps what is known of the passes. -/
theorem Sound.cancelAll (h : d.Sound) : d.cancelAll.Sound := by
  rw [h.cancelAll_eq]
  exact h.restrict (List.nil_sublist _) (List.nil_sublist _) (by simp)

/-! ## Scheduling -/

/-- To forget passes that are over keeps what is known of the others. -/
theorem Sound.prune (h : d.Sound) : d.prune.Sound :=
  h.restrict List.filter_sublist (List.Sublist.refl _) fun p hp =>
    h.mem_pending_iff.mpr ⟨p, hp, rfl⟩

/-- The pass that is started next. -/
def next (d : Debouncer) (key : String) (g : Graph) : Pass :=
  ⟨d.started, key, d.now + d.delay, g⟩

/-- Scheduling takes the pass of a key away and starts another one behind all that wait. Only the
table is left open. -/
theorem Sound.schedule_eq (h : d.Sound) (key : String) (g : Graph) : ∃ table,
    d.schedule key g = { d with
      started := d.started + 1
      table := table
      waiting := d.waiting.filter (·.key != key) ++ [d.next key g] } := by
  rw [Debouncer.schedule, h.cancel_eq]
  exact ⟨_, rfl⟩

/-- A pass can be started for a key that no pass waits for. -/
theorem Sound.launch (h : d.Sound) (hnone : ∀ p ∈ d.waiting, p.key ≠ key) :
    (d.launch key g).Sound := by
  have hothers : (d.table.filter (·.1 != key)).Sublist d.table := List.filter_sublist
  refine ⟨?_, ?_, ?_, ?_, ?_⟩
  · rw [Debouncer.launch, List.map_append]
    refine List.nodup_append.mpr ⟨h.nodup_keys.sublist (hothers.map _), List.nodup_singleton _, ?_⟩
    rintro _ hfst _ hkey rfl
    obtain ⟨entry, hentry, rfl⟩ := List.mem_map.mp hfst
    have hne := bne_iff_ne.mp (List.mem_filter.mp hentry).2
    exact hne (List.mem_singleton.mp hkey)
  · rw [Debouncer.launch, List.map_append]
    refine List.nodup_append.mpr
      ⟨h.nodup_numbers.sublist (hothers.map _), List.nodup_singleton _, ?_⟩
    rintro _ hsnd _ hnumber rfl
    obtain ⟨entry, hentry, rfl⟩ := List.mem_map.mp hsnd
    have hlt := h.lt_started entry (hothers.subset hentry)
    exact absurd (List.mem_singleton.mp hnumber) (Nat.ne_of_lt hlt)
  · intro entry hentry
    rcases List.mem_append.mp hentry with hentry | hentry
    · exact Nat.lt_succ_of_lt (h.lt_started entry (hothers.subset hentry))
    · rw [List.mem_singleton.mp hentry]
      exact Nat.lt_succ_self _
  · refine List.pairwise_append.mpr ⟨h.ordered, List.pairwise_singleton _ _, fun p hp q hq => ?_⟩
    rw [List.mem_singleton.mp hq]
    exact h.number_lt_started hp
  · intro p hp
    rcases List.mem_append.mp hp with hp | hp
    · refine List.mem_append_left _ (List.mem_filter.mpr ⟨h.listed p hp, ?_⟩)
      exact bne_iff_ne.mpr (hnone p hp)
    · rw [List.mem_singleton.mp hp]
      exact List.mem_append_right _ (List.mem_singleton_self _)

/-- To schedule a pass ends the one of its key, and keeps what is known of the others. -/
theorem Sound.schedule (h : d.Sound) : (d.schedule key g).Sound := by
  refine h.cancel.prune.launch fun p hp => ?_
  rw [h.cancel_eq] at hp
  exact bne_iff_ne.mp (List.mem_filter.mp hp).2

/-- Schedules a validation of a graph under each of some keys. -/
def scheduleAll (d : Debouncer) (keys : List String) (g : Graph) : Debouncer :=
  keys.foldl (fun d key => d.schedule key g) d

/-- To schedule passes one after the other keeps what is known of them. -/
theorem Sound.scheduleAll (h : d.Sound) (keys : List String) (g : Graph) :
    (d.scheduleAll keys g).Sound := by
  induction keys generalizing d with
  | nil => exact h
  | cons key keys ih => exact ih h.schedule

/-- Scheduling under many keys takes their passes away and starts others behind all that wait. -/
theorem Sound.scheduleAll_eq {keys : List String} (h : d.Sound) (hkeys : keys.Nodup) (g : Graph) :
    ∃ started table passes, d.scheduleAll keys g =
      { d with
        started := started
        table := table
        waiting := (d.waiting.filter fun p => !keys.contains p.key) ++ passes } ∧
      passes.map Pass.key = keys ∧
      ∀ p ∈ passes, d.started ≤ p.number ∧ p.due = d.now + d.delay ∧ p.graph = g := by
  induction keys generalizing d with
  | nil => exact ⟨d.started, d.table, [], by simp [Debouncer.scheduleAll], rfl, by simp⟩
  | cons key keys ih =>
    obtain ⟨hkey, hrest⟩ := List.nodup_cons.mp hkeys
    obtain ⟨table₁, hfirst⟩ := h.schedule_eq key g
    obtain ⟨started, table, passes, hlater, hpasses, hall⟩ :=
      ih (d := d.schedule key g) h.schedule hrest
    refine ⟨started, table, d.next key g :: passes, ?_, congrArg (key :: ·) hpasses, ?_⟩
    · have hnext : [d.next key g].filter (fun p => !keys.contains p.key) = [d.next key g] := by
        simpa [next] using hkey
      rw [Debouncer.scheduleAll, List.foldl_cons]
      refine hlater.trans ?_
      rw [hfirst, List.filter_append, hnext, List.filter_filter, List.append_assoc]
      simp only [List.contains_cons, Bool.not_or, bne, Bool.and_comm, List.singleton_append]
    · rw [hfirst] at hall
      refine List.forall_mem_cons.mpr ⟨⟨Nat.le_refl _, rfl, rfl⟩, fun p hp => ?_⟩
      obtain ⟨hnumber, hdue, hgraph⟩ := hall p hp
      exact ⟨Nat.le_of_succ_le hnumber, hdue, hgraph⟩

/-! ## The passing of time -/

/-- To deliver the passes that are due keeps what is known of the others. -/
theorem Sound.settle (h : d.Sound) : d.settle.Sound := by
  have hfewer := h.restrict (List.Sublist.refl d.table)
    (List.filter_sublist (p := fun p => decide (d.now < p.due)))
    fun p hp => h.listed p (List.mem_filter.mp hp).1
  exact ⟨hfewer.nodup_keys, hfewer.nodup_numbers, hfewer.lt_started, hfewer.ordered, hfewer.listed⟩

/-- To let time go on keeps what is known of the passes. -/
theorem Sound.wait (h : d.Sound) (ms : Nat) : Sound { d with now := d.now + ms } :=
  ⟨h.nodup_keys, h.nodup_numbers, h.lt_started, h.ordered, h.listed⟩

/-- No pass waits whose time has come. -/
def Calm (d : Debouncer) : Prop := ∀ p ∈ d.waiting, d.now < p.due

/-- Behind a delivery exactly those passes wait that are not yet due. -/
theorem mem_settle_waiting_iff : p ∈ d.settle.waiting ↔ p ∈ d.waiting ∧ d.now < p.due := by
  simp [settle]

/-- Behind a delivery no pass is due. -/
theorem calm_settle (d : Debouncer) : d.settle.Calm :=
  fun _ hp => (mem_settle_waiting_iff.mp hp).2

/-- What has settled is received, each once, and nothing else changes. -/
theorem receive_perm (d : Debouncer) : d.receive.2.Perm d.settled := List.mergeSort_perm _ _

end Workflow.Debouncer
