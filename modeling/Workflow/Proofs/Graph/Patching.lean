import Workflow.Proofs.Graph.Coherence
import Workflow.Proofs.Json.Entries

/-!
# Patching a node

The params of a node are a map: no operation puts a key into them twice, as long as inserted
nodes bring maps. A patch replaces the values that it names, drops the keys that it only
removes and keeps all else, and a graph in which a node is patched is the same graph but for
the data of that node.
-/

namespace Workflow

/-! ## Maps of params -/

/-- An operation brings no params with a key that is there twice. -/
def Graph.Operation.BringsMap : Graph.Operation → Prop
  | .insertNode n => n.params.keys.Nodup
  | _ => True

/-- The graphs that runs of operations lead to when the params of inserted nodes are maps. -/
inductive Graph.Drafted : Graph → Prop where
  | empty : Graph.Drafted .empty
  | step {g : Graph} (op : Graph.Operation) : Graph.Drafted g → op.Promised g → op.BringsMap →
      Graph.Drafted (g.after op)

theorem TaskType.nodup_keys_defaultParams (type : TaskType) (key : String) :
    (type.defaultParams key).keys.Nodup := by
  cases type <;> simp [defaultParams, Json.Entries.keys]

theorem Patch.nodup_keys_apply (patch : Patch) {n : Node} (h : n.params.keys.Nodup) :
    (patch.apply n).params.keys.Nodup :=
  Json.Entries.nodup_keys_insertAll _ (Json.Entries.nodup_keys_removeAll h _) _

namespace Graph

variable {g next : Graph} {op : Operation}

/-- The params of every node are a map. -/
def HoldsMaps (g : Graph) : Prop := ∀ n ∈ g.nodes, n.params.keys.Nodup

/-- An operation that brings maps keeps the params of the nodes maps. -/
theorem HoldsMaps.perform (h : g.HoldsMaps) (hop : op.BringsMap) (hnext : g.perform op = .ok next) :
    next.HoldsMaps := by
  cases perform_eq_ok_iff.mp hnext with
  | addNode fresh type =>
    exact List.forall_mem_append.mpr
      ⟨h, List.forall_mem_singleton.mpr (type.nodup_keys_defaultParams _)⟩
  | insertNode _ _ _ => exact List.forall_mem_append.mpr ⟨h, List.forall_mem_singleton.mpr hop⟩
  | insertEdge _ _ | connect _ | disconnect _ => exact h
  | removeNode _ => exact fun n hn => h n (List.mem_of_mem_eraseP hn)
  | updateNode patch _ => exact forall_mem_mapNode h (fun _ => patch.nodup_keys_apply) _

theorem Drafted.reachable (h : g.Drafted) : g.Reachable := by
  induction h with
  | empty => exact .empty
  | step op _ hop _ ih => exact .step op ih hop

theorem Drafted.holdsMaps (h : g.Drafted) : g.HoldsMaps := by
  induction h with
  | empty => exact List.forall_mem_nil _
  | step op _ _ hop ih => exact after_of_perform ih fun _ hnext => ih.perform hop hnext

end Graph

/-! ## What a patch does to a node -/

namespace Patch

variable {patch : Patch} {n : Node}

theorem label_mem_touchedFields : "label" ∈ patch.touchedFields ↔ patch.label ≠ none := by
  cases h : patch.label <;> simp [touchedFields, h]

theorem params_mem_touchedFields :
    "params" ∈ patch.touchedFields ↔ patch.params ≠ [] ∨ patch.removeParams ≠ [] := by
  simp [touchedFields]

theorem exec_mem_touchedFields : "exec" ∈ patch.touchedFields ↔ patch.exec ≠ none := by
  cases h : patch.exec <;> simp [touchedFields, h]

theorem execTs_mem_touchedFields : "execTs" ∈ patch.touchedFields ↔ patch.execTs ≠ none := by
  cases h : patch.execTs <;> simp [touchedFields, h]

/-- The second node is the first one with what the patch says, and nothing else. -/
structure Merges (patch : Patch) (n m : Node) : Prop where
  /-- Under every key stands what the patch puts there, nothing if the patch only removes the key,
  and what stood there otherwise. -/
  params : ∀ key, m.params.get? key =
    match patch.params.get? key with
    | some value => some value
    | none => if key ∈ patch.removeParams then none else n.params.get? key
  /-- The params are still a map. -/
  keys : m.params.keys.Nodup
  /-- The label is the one of the patch, if it has one. -/
  label : m.label = patch.label.getD n.label
  /-- The script is the one of the patch, if it has one. -/
  exec : m.exec = patch.exec.or n.exec
  /-- The source of the script is the one of the patch, if it has one. -/
  execTs : m.execTs = patch.execTs.or n.execTs
  /-- The place is the one of the patch, if it has one. -/
  position : m.position = patch.position.getD n.position
  /-- The identity of the node stays. -/
  identity : m.id = n.id ∧ m.type = n.type ∧ m.input = n.input ∧ m.output = n.output
  /-- What the editor keeps stays. -/
  extra : m.uiExtra = n.uiExtra ∧ m.dataExtra = n.dataExtra
  /-- Where the params differ, the patch says that it touches them. -/
  touches_params : ∀ key, m.params.get? key ≠ n.params.get? key → "params" ∈ patch.touchedFields
  /-- Where the label differs, the patch says that it touches it. -/
  touches_label : m.label ≠ n.label → "label" ∈ patch.touchedFields
  /-- Where the script differs, the patch says that it touches it. -/
  touches_exec : m.exec ≠ n.exec → "exec" ∈ patch.touchedFields
  /-- Where the source of the script differs, the patch says that it touches it. -/
  touches_execTs : m.execTs ≠ n.execTs → "execTs" ∈ patch.touchedFields

/-- A patch that sets a key finds its own value there, whether or not it also removes the key,
since values are put after keys are removed. -/
theorem get?_params_apply (hn : n.params.keys.Nodup) (hpatch : patch.params.keys.Nodup)
    (key : String) :
    (patch.apply n).params.get? key =
      match patch.params.get? key with
      | some value => some value
      | none => if key ∈ patch.removeParams then none else n.params.get? key := by
  change ((n.params.removeAll patch.removeParams).insertAll patch.params).get? key = _
  rw [Json.Entries.get?_insertAll _ hpatch, Json.Entries.get?_removeAll hn]
  cases patch.params.get? key <;> rfl

/-- A patch merges into a node whose params are a map. -/
theorem merges_apply (hn : n.params.keys.Nodup) (hpatch : patch.params.keys.Nodup) :
    patch.Merges n (patch.apply n) where
  params := get?_params_apply hn hpatch
  keys := patch.nodup_keys_apply hn
  label := rfl
  exec := Option.orElse_eq_or
  execTs := Option.orElse_eq_or
  position := rfl
  identity := ⟨rfl, rfl, rfl, rfl⟩
  extra := ⟨rfl, rfl⟩
  touches_params key hkey := by
    refine params_mem_touchedFields.mpr ?_
    by_contra! hnone
    rw [get?_params_apply hn hpatch, hnone.1, hnone.2] at hkey
    exact hkey rfl
  touches_label h := label_mem_touchedFields.mpr fun hnone => h (by simp [apply, hnone])
  touches_exec h := exec_mem_touchedFields.mpr fun hnone => h (by simp [apply, hnone])
  touches_execTs h := execTs_mem_touchedFields.mpr fun hnone => h (by simp [apply, hnone])

end Patch

/-! ## What a patch does to a graph -/

namespace Graph

variable {g : Graph} {id : NodeId} {patch : Patch}

/-- Changing the first node with an id leaves the nodes around it. -/
theorem mapNode_append_cons {f : Node → Node} {before behind : List Node} {n : Node}
    (hbefore : ∀ m ∈ before, m.id ≠ n.id) :
    mapNode n.id f (before ++ n :: behind) = before ++ f n :: behind := by
  induction before with
  | nil => simp [mapNode]
  | cons m before ih =>
    obtain ⟨hm, hbefore⟩ := List.forall_mem_cons.mp hbefore
    rw [List.cons_append, mapNode, if_neg hm, ih hbefore, List.cons_append]

/-- Patching fails exactly if no node has the id. -/
theorem updateNode_eq_error_iff {e : GraphError} :
    g.updateNode id patch = .error e ↔ e = .unknownNode id ∧ ∀ n ∈ g.nodes, n.id ≠ id := by
  rw [← node?_eq_none_iff, updateNode]
  cases g.node? id with
  | none => simp [eq_comm]
  | some n => simp

/-- In a coherent graph, patching puts the patched node where the node was. -/
theorem Coherent.updateNode_of_append (h : g.Coherent) {before behind : List Node} {n : Node}
    (hnodes : g.nodes = before ++ n :: behind) :
    g.updateNode n.id patch =
      .ok ({ g with nodes := before ++ patch.apply n :: behind }, patch.apply n) := by
  have hbefore : ∀ m ∈ before, m.id ≠ n.id := by
    have hids := h.nodup_ids
    rw [hnodes, List.map_append, List.map_cons] at hids
    exact fun m hm heq => (List.nodup_append.mp hids).2.2 m.id (List.mem_map_of_mem hm) n.id
      List.mem_cons_self heq
  have hnode : g.node? n.id = some n :=
    h.node?_id (hnodes ▸ List.mem_append_right before List.mem_cons_self)
  rw [updateNode, hnode, hnodes, mapNode_append_cons hbefore]

/-- Patching a node of a draft fails only for want of the node, and then changes nothing; else
the patch merges into the node, and all around the node stays. -/
theorem updateNode_merges (hg : g.Drafted) (id : NodeId) (hpatch : patch.params.keys.Nodup) :
    (∀ e, g.updateNode id patch = .error e ↔ e = .unknownNode id ∧ ∀ n ∈ g.nodes, n.id ≠ id) ∧
    ((∀ n ∈ g.nodes, n.id ≠ id) → g.after (.updateNode id patch) = g) ∧
    ∀ before n behind, g.nodes = before ++ n :: behind → n.id = id →
      ∃ m, g.updateNode id patch = .ok ({ g with nodes := before ++ m :: behind }, m) ∧
        patch.Merges n m := by
  refine ⟨fun e => updateNode_eq_error_iff, fun habsent => ?_, ?_⟩
  · have hfails : g.updateNode id patch = .error (.unknownNode id) :=
      updateNode_eq_error_iff.mpr ⟨rfl, habsent⟩
    rw [after, perform, hfails, Except.map]
  · rintro before n behind hnodes rfl
    have hn : n ∈ g.nodes := hnodes ▸ List.mem_append_right before List.mem_cons_self
    exact ⟨patch.apply n, hg.reachable.coherent.updateNode_of_append hnodes,
      Patch.merges_apply (hg.holdsMaps n hn) hpatch⟩

/-- A patch removes a key that it also sets, one that it names twice and one that is not there. -/
theorem updateNode_merges_overlap :
    let first := Node.create ⟨"s", "i", "o", "k", "l"⟩ .start
    let params : Json.Entries := [("a", .null), ("b", .null), ("c", .bool true)]
    let n := { Node.restore ⟨"n"⟩ .function none none with params := params }
    let patch := { Patch.empty with
      params := [("a", .bool false), ("d", .null)], removeParams := ["a", "b", "b", "x"] }
    let g := (empty.after (.addNode ⟨"s", "i", "o", "k", "l"⟩ .start)).after (.insertNode n)
    g.Drafted ∧ patch.params.keys.Nodup ∧ (∀ m ∈ g.nodes, m.id ≠ ⟨"x"⟩) ∧
      g.after (.updateNode ⟨"x"⟩ patch) = g ∧
      ∃ m, g.updateNode ⟨"n"⟩ patch = .ok ({ g with nodes := [first, m] }, m) ∧
        patch.Merges n m ∧ m.params.get? "a" = some (.bool false) ∧ m.params.get? "b" = none ∧
        m.params.get? "c" = some (.bool true) := by
  intro first params n patch g
  have hg : g.Drafted := by
    refine .step _ (.step _ .empty ⟨?_, ?_, ?_⟩ trivial) trivial ?_
    · exact List.forall_mem_nil _
    · exact List.forall_mem_nil _
    · decide +kernel
    · change params.keys.Nodup
      decide +kernel
  have hpatch : patch.params.keys.Nodup := by decide +kernel
  have hnodes : g.nodes = [first] ++ n :: [] := by decide +kernel
  have habsent : ∀ m ∈ g.nodes, m.id ≠ ⟨"x"⟩ := by rw [hnodes]; decide +kernel
  obtain ⟨-, hkept, -⟩ := updateNode_merges hg ⟨"x"⟩ hpatch
  obtain ⟨-, -, hmerges⟩ := updateNode_merges hg ⟨"n"⟩ hpatch
  obtain ⟨m, hupdate, hm⟩ := hmerges [first] n [] hnodes rfl
  refine ⟨hg, hpatch, habsent, hkept habsent, m, hupdate, hm, ?_, ?_, ?_⟩
  all_goals
    rw [hm.params]
    decide +kernel

end Graph

end Workflow
