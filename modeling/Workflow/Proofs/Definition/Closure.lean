import Mathlib.Data.List.Forall2
import Workflow.Proofs.Definition.Neighbours
import Workflow.Proofs.Definition.Validity

/-!
# Definitions without loose ends

Names that follow a task and names that come before it are collected apart from each
other, by the output port and by the input port of its node. In a coherent graph whose
labels differ they agree: a task follows another one exactly if that one comes before
it, and both exactly if an edge joins their nodes. Whatever rules a draft is checked by,
a name that a task refers to is the name of a task.
-/

namespace Workflow

namespace Graph

variable {g : Graph}

/-- For different nodes with different labels, the labels are listed one by one. -/
theorem Coherent.labelsOf_map_id (h : g.Coherent) (hlabels : (g.nodes.map Node.label).Nodup)
    {nodes : List Node} (hsub : ∀ n ∈ nodes, n ∈ g.nodes) (hnodes : nodes.Nodup) :
    g.labelsOf (nodes.map Node.id) = nodes.map Node.label := by
  have hall : (nodes.map Node.id).filterMap (fun id => (g.node? id).map Node.label) =
      nodes.map Node.label := by
    rw [List.filterMap_map, ← List.filterMap_eq_map]
    refine List.filterMap_congr fun n hn => ?_
    simp [h.node?_id (hsub n hn)]
  rw [labelsOf, hall, eraseDups_eq_self_of_nodup]
  refine hnodes.map_on fun m hm n hn heq => ?_
  exact List.inj_on_of_nodup_map hlabels (hsub m hm) (hsub n hn) heq

/-- Edges to different nodes: two edges to one node would lead to one port. -/
theorem Coherent.nodup_edge_targets (h : g.Coherent) : (g.edges.map Edge.target).Nodup := by
  refine List.Nodup.map_on (fun e he e' he' heq => ?_) h.nodup_targets.of_map
  obtain ⟨n, hn, hid, hport⟩ := h.target e he
  have hport' := (h.portOn_eq_iff hn he' .input).mpr (heq.symm.trans hid.symm)
  refine List.inj_on_of_nodup_map h.nodup_targets he he' ?_
  exact Option.some.inj (hport.symm.trans hport')

/-- For different ids of nodes with different labels, the labels are listed id by id. -/
theorem Coherent.labelsOf_forall₂ (h : g.Coherent) (hlabels : (g.nodes.map Node.label).Nodup)
    {ids : List NodeId} (hmem : ∀ id ∈ ids, ∃ n ∈ g.nodes, n.id = id) (hids : ids.Nodup) :
    List.Forall₂ (fun name id => ∃ n ∈ g.nodes, n.id = id ∧ n.label = name)
      (g.labelsOf ids) ids := by
  obtain ⟨nodes, hsub, rfl⟩ : ∃ nodes : List Node, (∀ n ∈ nodes, n ∈ g.nodes) ∧
      nodes.map Node.id = ids := by
    clear hids
    induction ids with
    | nil => exact ⟨[], by simp, rfl⟩
    | cons id rest ih =>
      obtain ⟨n, hn, rfl⟩ := hmem id List.mem_cons_self
      obtain ⟨nodes, hsub, rfl⟩ := ih fun a ha => hmem a (List.mem_cons_of_mem _ ha)
      exact ⟨n :: nodes, List.forall_mem_cons.mpr ⟨hn, hsub⟩, rfl⟩
  rw [h.labelsOf_map_id hlabels hsub hids.of_map, List.forall₂_map_left_iff,
    List.forall₂_map_right_iff, List.forall₂_same]
  exact fun n hn => ⟨n, hsub n hn, rfl, rfl⟩

/-- If labels differ, the names behind a node are the labels of the targets of its edges. -/
theorem Coherent.nextNames_forall₂ (h : g.Coherent) (hlabels : (g.nodes.map Node.label).Nodup)
    {n : Node} (hn : n ∈ g.nodes) :
    List.Forall₂ (fun name e => ∃ b ∈ g.nodes, b.id = e.target ∧ b.label = name) (g.nextNames n)
      (g.edges.filter (·.source == n.id)) := by
  rw [← namesOn_output, h.namesOn_eq hn]
  refine List.forall₂_map_right_iff.mp (h.labelsOf_forall₂ hlabels (fun id hid => ?_) ?_)
  · obtain ⟨e, he, rfl⟩ := List.mem_map.mp hid
    obtain ⟨b, hb, hbid, _⟩ := h.target e (List.mem_filter.mp he).1
    exact ⟨b, hb, hbid⟩
  · exact h.nodup_edge_targets.sublist (List.filter_sublist.map _)

/-- At most one name comes before a node. -/
theorem Coherent.length_previousNames_le (h : g.Coherent) {n : Node} (hn : n ∈ g.nodes) :
    (g.previousNames n).length ≤ 1 := by
  have hone := length_filter_le_one_of_nodup h.nodup_edge_targets n.id
  rw [← namesOn_input, h.namesOn_eq hn]
  change (g.labelsOf ((g.edges.filter (·.target == n.id)).map Edge.source)).length ≤ 1
  cases hedges : g.edges.filter (·.target == n.id) with
  | nil => simp [labelsOf]
  | cons e rest =>
    obtain rfl : rest = [] := by simpa [hedges] using hone
    cases hs : g.node? e.source <;> simp [labelsOf, hs, List.eraseDups_cons]

/-- A compiled draft refers to nothing but its own tasks, whatever it was checked by. -/
theorem danglingReferences_compileAfter {violations : List Violation} {m : Metadata}
    {d : Definition} (hd : g.compileAfter violations m = .ok d) : d.danglingReferences = [] := by
  obtain ⟨_, _, rfl⟩ := compileAfter_eq_ok_iff.mp hd
  refine List.filter_eq_nil_iff.mpr fun name hname => ?_
  obtain ⟨t, ht, hname⟩ := List.mem_flatMap.mp hname
  obtain ⟨n, hn, rfl⟩ := List.mem_map.mp ht
  obtain ⟨m, hm, rfl⟩ : ∃ m ∈ g.nodes, m.label = name := by
    rcases List.mem_append.mp hname with hnext | hprevious
    · exact exists_label_of_mem_namesOn .output hnext
    · exact exists_label_of_mem_namesOn .input hprevious
  simp only [Definition.task?, Option.isNone_iff_eq_none, List.find?_eq_none, not_forall]
  exact ⟨g.compileNode m, List.mem_map_of_mem hm, by simp [compileNode]⟩

end Graph

/-- A definition that says the same as the graph it was compiled from, task by task and edge by
edge, and refers only to its own tasks. -/
structure Definition.Closed (d : Definition) (g : Graph) : Prop where
  /-- There is a task for every node, in order, under the id and the label of the node. -/
  tasks : List.Forall₂ (fun t n => t.id = n.id ∧ t.name = n.label ∧ t.type = n.type ∧
    t.params = n.params) d.tasks g.nodes
  /-- No two tasks have the same id. -/
  nodup_ids : (d.tasks.map CompiledTask.id).Nodup
  /-- A name is more than blanks. -/
  named : ∀ t ∈ d.tasks, Text.isBlankText t.name = false
  /-- No two tasks have the same name. -/
  nodup_names : (d.tasks.map CompiledTask.name).Nodup
  /-- The tasks that follow a task are those that an edge leads to. -/
  next_iff : ∀ a ∈ d.tasks, ∀ b ∈ d.tasks,
    b.name ∈ a.next ↔ ∃ e ∈ g.edges, e.source = a.id ∧ e.target = b.id
  /-- The tasks before a task are those that an edge leads from. -/
  previous_iff : ∀ a ∈ d.tasks, ∀ b ∈ d.tasks,
    a.name ∈ b.previous ↔ ∃ e ∈ g.edges, e.source = a.id ∧ e.target = b.id
  /-- A task is listed once among those that follow. -/
  nodup_next : ∀ a ∈ d.tasks, a.next.Nodup
  /-- The tasks that follow are listed in the order of the edges, one for each. -/
  next_order : ∀ a ∈ d.tasks, List.Forall₂
    (fun name e => ∃ b ∈ d.tasks, b.id = e.target ∧ b.name = name) a.next
      (g.edges.filter (·.source == a.id))
  /-- At most one task comes before a task. -/
  length_previous_le : ∀ a ∈ d.tasks, a.previous.length ≤ 1
  /-- Every name that is referred to is the name of a task. -/
  no_dangling : d.danglingReferences = []
  /-- A task that waits lists names, and each is the name of exactly one task, another one. -/
  waits : ∀ t ∈ d.tasks, t.type = .wait → ∃ names, TaskParams.taskNames? t.params = some names ∧
    ∀ name ∈ names, ∃ b ∈ d.tasks, b.name = name ∧ b ≠ t ∧ ∀ c ∈ d.tasks, c.name = name → c = b

namespace Graph

variable {g : Graph}

/-- What compiles a coherent draft by the standard rules is closed. -/
theorem Coherent.closed (h : g.Coherent) {m : Metadata} {d : Definition}
    (hd : g.compile m = .ok d) : d.Closed g := by
  obtain ⟨hvalid, _, htasks⟩ := compileAfter_eq_ok_iff.mp hd
  have hrules := validateBy_eq_nil_iff.mp hvalid
  have hrequired := hrules .labelRequired (by simp [Rule.standard])
  have hlabels : (g.nodes.map Node.label).Nodup :=
    nodup_labels hrequired (hrules .labelUnique (by simp [Rule.standard]))
  replace htasks : d.tasks = g.nodes.map g.compileNode := by rw [htasks]
  have htask {t : CompiledTask} (ht : t ∈ d.tasks) : ∃ n ∈ g.nodes, g.compileNode n = t := by
    rwa [htasks, List.mem_map] at ht
  have hnames : d.tasks.map CompiledTask.name = g.nodes.map Node.label := by
    rw [htasks, List.map_map]
    rfl
  have hnodup : (d.tasks.map CompiledTask.name).Nodup := hnames ▸ hlabels
  refine ⟨?_, ?_, ?_, hnodup, ?_, ?_, ?_, ?_, ?_, danglingReferences_compileAfter hd, ?_⟩
  · rw [htasks, List.forall₂_map_left_iff, List.forall₂_same]
    exact fun n _ => ⟨rfl, rfl, rfl, rfl⟩
  · rw [htasks, List.map_map]
    exact h.nodup_ids
  · intro t ht
    obtain ⟨n, hn, rfl⟩ := htask ht
    exact Rule.labelRequired_eq_nil_iff.mp (hrequired n hn)
  · intro a ha b hb
    obtain ⟨n, hn, rfl⟩ := htask ha
    obtain ⟨k, hk, rfl⟩ := htask hb
    exact h.label_mem_namesOn_iff hlabels hk hn .output
  · intro a ha b hb
    obtain ⟨n, hn, rfl⟩ := htask ha
    obtain ⟨k, hk, rfl⟩ := htask hb
    refine (h.label_mem_namesOn_iff hlabels hn hk .input).trans ?_
    exact exists_congr fun e => and_congr_right' and_comm
  · intro a ha
    obtain ⟨n, hn, rfl⟩ := htask ha
    change (g.namesOn n .output).Nodup
    rw [h.namesOn_eq hn, labelsOf]
    exact nodup_eraseDups _
  · intro a ha
    obtain ⟨n, hn, rfl⟩ := htask ha
    refine (h.nextNames_forall₂ hlabels hn).imp fun name e => ?_
    rintro ⟨b, hb, hid, hname⟩
    exact ⟨g.compileNode b, htasks ▸ List.mem_map_of_mem hb, hid, hname⟩
  · intro a ha
    obtain ⟨n, hn, rfl⟩ := htask ha
    exact h.length_previousNames_le hn
  · intro t ht htype
    obtain ⟨n, hn, rfl⟩ := htask ht
    obtain ⟨names, hlist, hother⟩ := Rule.waitReferences_eq_nil htype
      (hrules .taskParams (by simp [Rule.standard]) n hn)
      (hrules .waitReferences (by simp [Rule.standard]) n hn)
    refine ⟨names, hlist, fun name hname => ?_⟩
    obtain ⟨b, hb, rfl, hne⟩ := hother name hname
    have hbmem : g.compileNode b ∈ d.tasks := htasks ▸ List.mem_map_of_mem hb
    refine ⟨g.compileNode b, hbmem, rfl, fun heq => hne (congrArg CompiledTask.id heq), ?_⟩
    exact fun c hc hcname => List.inj_on_of_nodup_map hnodup hc hbmem hcname

end Graph

end Workflow
