import Workflow.Proofs.Graph.Coherence
import Workflow.Proofs.Session.Following

/-!
# The script of a node through a session

The source of a node, the script that is executed and the reason why the source cannot be
executed are kept in two places, the draft and the session. What they are at any time of a session
is read off what has happened to the node: the source is the one it was edited with last, the
script is the one of the last source that could be executed, and the reason is that of the last
source.
-/

namespace Workflow

/-! ## Looking up what has changed -/

namespace Graph

variable {nodes : List Node} {id changed : NodeId} {n : Node}

/-- A node with a new id is found by that id, and all others are found as before. -/
theorem find?_concat_node (h : ∀ m ∈ nodes, m.id ≠ n.id) (id : NodeId) :
    (nodes ++ [n]).find? (·.id == id) = if n.id = id then some n else nodes.find? (·.id == id) := by
  rw [List.find?_append]
  split
  · rename_i hid
    have hnone : nodes.find? (·.id == id) = none := by
      refine List.find?_eq_none.mpr fun m hm => ?_
      simpa [← hid] using h m hm
    simp [hnone, hid]
  · rename_i hid
    simp [hid]

/-- A node that is removed is not found any more, and all others are found as before. -/
theorem find?_eraseP_node (h : (nodes.map Node.id).Nodup) :
    (nodes.eraseP (·.id == changed)).find? (·.id == id) =
      if changed = id then none else nodes.find? (·.id == id) := by
  rw [eraseP_eq_filter_of_nodup h changed, List.find?_filter]
  split
  · rename_i hid
    refine List.find?_eq_none.mpr fun m _ => ?_
    simp [hid]
  · rename_i hid
    refine congrArg (List.find? · nodes) (funext fun m => ?_)
    by_cases hm : m.id = id
    · simp [hm, Ne.symm hid]
    · simp [hm]

/-- To patch a node keeps the ids of all. -/
theorem map_id_mapNode (patch : Patch) :
    (mapNode changed patch.apply nodes).map Node.id = nodes.map Node.id := by
  have hid (n : Node) : (patch.apply n).id = n.id := rfl
  exact map_mapNode hid changed nodes

/-- Only the patched node is found with its patch. -/
theorem find?_mapNode (patch : Patch) :
    (mapNode changed patch.apply nodes).find? (·.id == id) =
      if changed = id then (nodes.find? (·.id == id)).map patch.apply
      else nodes.find? (·.id == id) := by
  have hid (m : Node) : (patch.apply m).id = m.id := rfl
  induction nodes with
  | nil => simp [mapNode]
  | cons m rest ih =>
    rw [mapNode]
    by_cases hm : m.id = id
    · by_cases hchanged : changed = id
      · simp [hm, hchanged, hid]
      · simp [hm, hchanged, Ne.symm hchanged]
    · by_cases hchanged : m.id = changed
      · have hne : changed ≠ id := fun h => hm (hchanged.trans h)
        simp [hchanged, hid, hne]
      · simp only [hchanged, hm, if_false, List.find?_cons, beq_eq_false_iff_ne.mpr, ne_eq,
          not_false_eq_true, ih]

/-- A node has a script to edit exactly if it is there and its type has one. -/
theorem scriptable_eq_ok_iff {g : Graph} :
    g.scriptable id = .ok n ↔ g.node? id = some n ∧ n.type.isScriptable := by
  rw [Graph.scriptable]
  cases g.node? id with
  | none => simp
  | some m =>
    by_cases hm : m.type.isScriptable
    · simp only [hm, if_true, Except.ok.injEq, Option.some.injEq]
      exact ⟨fun h => ⟨h, h ▸ hm⟩, And.left⟩
    · simp only [hm, Bool.false_eq_true, if_false, reduceCtorEq, Option.some.injEq, false_iff,
        not_and]
      rintro rfl
      exact hm

/-- Where no node of the id may have a script, none is written. -/
theorem exists_error_of_not_scriptable {g : Graph}
    (h : ∀ n, g.node? id = some n → ¬n.type.isScriptable) : ∃ e, g.scriptable id = .error e := by
  cases he : g.scriptable id with
  | error e => exact ⟨e, rfl⟩
  | ok n =>
    obtain ⟨hn, hscript⟩ := scriptable_eq_ok_iff.mp he
    exact absurd hscript (h n hn)

end Graph

/-- What is noted of other nodes is found as before. -/
theorem lookup_filter_ne {β : Type} (entries : List (NodeId × β)) (removed id : NodeId) :
    (entries.filter (·.1 != removed)).lookup id =
      if removed = id then none else entries.lookup id := by
  induction entries with
  | nil => simp
  | cons e rest ih =>
    obtain ⟨key, value⟩ := e
    by_cases hkey : key = removed
    · subst hkey
      rw [List.filter_cons_of_neg (by simp), ih]
      split
      · rfl
      · rename_i hid
        rw [List.lookup_cons, beq_eq_false_iff_ne.mpr (Ne.symm hid)]
    · rw [List.filter_cons_of_pos (by simpa using hkey), List.lookup_cons, List.lookup_cons, ih]
      by_cases hid : id = key
      · have hne : removed ≠ id := fun h => hkey (hid.symm.trans h.symm)
        simp only [beq_iff_eq.mpr hid, if_neg hne]
      · rw [beq_eq_false_iff_ne.mpr hid]

/-! ## What has happened to a script -/

/-- What has happened to the script of a node. -/
structure ScriptHistory where
  /-- The node as it came into the draft. -/
  node : Node
  /-- The sources that it has been edited with since, in order. -/
  sources : List String
  deriving DecidableEq, Repr

namespace ScriptHistory

variable (h : ScriptHistory)

/-- The source of the last edit, or the one that the node came with. -/
def source : Option String := h.sources.getLast? <|> h.node.execTs

/-- The script of the last source that can be executed, or the one that the node came with. -/
def exec : Option String :=
  (h.sources.filterMap fun source => (Script.eraseTypes source).toOption).getLast? <|> h.node.exec

/-- Why the source of the last edit cannot be executed. -/
def rejection : Option Script.Rejection :=
  h.sources.getLast?.bind fun source => (Graph.scriptPatch source).2

/-- The history after an edit. Only tasks that carry a script are edited. -/
def edit (source : String) : ScriptHistory :=
  if h.node.type.isScriptable then { h with sources := h.sources ++ [source] } else h

variable {h} {source : String}

/-- The last source of a script is the one it is edited to. -/
theorem source_edit (hscript : h.node.type.isScriptable) :
    (h.edit source).source = some source := by
  simp [edit, hscript, ScriptHistory.source]

/-- A source that is accepted is what is executed, and any other leaves that as it was. -/
theorem exec_edit (hscript : h.node.type.isScriptable) :
    (h.edit source).exec = ((Script.eraseTypes source).toOption <|> h.exec) := by
  rw [edit, if_pos hscript, exec, exec, List.filterMap_append]
  cases hsource : Script.eraseTypes source with
  | error r => simp [hsource, Except.toOption]
  | ok script => simp [hsource, Except.toOption]

/-- A script is rejected if its last source is. -/
theorem rejection_eq_some_iff {r : Script.Rejection} : h.rejection = some r ↔
    ∃ source, h.sources.getLast? = some source ∧ Script.eraseTypes source = .error r := by
  rw [rejection, Option.bind_eq_some_iff]
  refine exists_congr fun source => and_congr_right fun _ => ?_
  rw [Graph.scriptPatch]
  cases Script.eraseTypes source <;> simp

/-- An edit is rejected or accepted for the source alone. -/
theorem rejection_edit (hscript : h.node.type.isScriptable) :
    (h.edit source).rejection = (Graph.scriptPatch source).2 := by
  simp [edit, hscript, rejection]

/-- An edit changes nothing of the node that the history is about. -/
theorem node_edit : (h.edit source).node = h.node := by
  rw [edit]
  split <;> rfl

/-- What a step makes of the history of a node. -/
def after (id : NodeId) (history : Option ScriptHistory) : Session.Step → Option ScriptHistory
  | .mutate (.addNode fresh type) =>
    if ⟨fresh.node⟩ = id then some ⟨.create fresh type, []⟩ else history
  | .mutate (.removeNode removed) => if removed = id then none else history
  | .mutate (.editScript edited source) =>
    if edited = id then history.map (·.edit source) else history
  | .mutate (.connect ..) | .mutate (.disconnect _) | .mutate (.updateNode ..)
  | .mutate (.replaceParams ..) | .elapse _ => history

end ScriptHistory

namespace Session

/-- What has happened to the script of a node that is in a draft after some steps. -/
def scriptHistory (g : Graph) (steps : List Step) (id : NodeId) : Option ScriptHistory :=
  steps.foldl (ScriptHistory.after id) ((g.node? id).map fun n => ⟨n, []⟩)

/-- What a caller promises of a change: the id of a new node is not in use, and scripts are
changed by edits only. -/
def Mutation.Promised (g : Graph) : Mutation → Prop
  | .addNode fresh _ => ∀ n ∈ g.nodes, n.id ≠ ⟨fresh.node⟩
  | .updateNode _ patch => patch.exec = none ∧ patch.execTs = none
  | _ => True

/-- What a caller promises of a step. -/
def Step.Promised (s : Session) : Step → Prop
  | .mutate m => m.Promised s.graph
  | .elapse _ => True

variable {s s' : Session} {m : Mutation} {id : NodeId}

/-! ## One step -/

/-- All that a change that succeeds does to the nodes of a draft and to the reasons why sources
cannot be executed. -/
inductive Changes (s : Session) : Mutation → List Node → List (NodeId × Script.Rejection) → Prop
  | addNode (fresh : FreshIds) (type : TaskType) :
      Changes s (.addNode fresh type) (s.graph.nodes ++ [.create fresh type]) s.rejections
  | removeNode (id : NodeId) :
      Changes s (.removeNode id) (s.graph.nodes.eraseP (·.id == id)) (s.rejectionsWithout id)
  | connect (sourcePort targetPort : PortId) :
      Changes s (.connect sourcePort targetPort) s.graph.nodes s.rejections
  | disconnect (id : EdgeId) : Changes s (.disconnect id) s.graph.nodes s.rejections
  | updateNode (id : NodeId) (patch : Patch) :
      Changes s (.updateNode id patch) (Graph.mapNode id patch.apply s.graph.nodes) s.rejections
  | replaceParams (id : NodeId) (n : Node) (params : Json.Entries) :
      Changes s (.replaceParams id params)
        (Graph.mapNode id (replacement n params).apply s.graph.nodes) s.rejections
  | editScript {id : NodeId} {n : Node} (source : String) :
      s.graph.node? id = some n → n.type.isScriptable →
      Changes s (.editScript id source)
        (Graph.mapNode id (Graph.scriptPatch source).1.apply s.graph.nodes)
        (s.rejectionsWithout id ++ (Graph.scriptPatch source).2.toList.map (id, ·))

/-- To schedule a check changes no rejection. -/
theorem rejections_scheduleFields (s : Session) (id : NodeId) (fields : List String) :
    (s.scheduleFields id fields).rejections = s.rejections := by
  induction fields generalizing s with
  | nil => rfl
  | cons field fields ih => exact ih (s.schedule _)

/-- To patch a node changes that node only, and no rejection. -/
theorem nodes_of_updateNode {patch : Patch} (h : s.updateNode id patch = .ok s') :
    s'.graph.nodes = Graph.mapNode id patch.apply s.graph.nodes ∧ s'.rejections = s.rejections := by
  obtain ⟨⟨g, _⟩, hupdate, hs'⟩ := exists_of_bind_eq_ok h
  obtain rfl := Except.ok.inj hs'
  obtain ⟨_, -, -, rfl⟩ := Graph.updateNode_eq_ok_iff.mp hupdate
  rw [graph_scheduleFields, rejections_scheduleFields]
  exact ⟨rfl, rfl⟩

/-- The rejection of a script is replaced by that of its last source. -/
theorem rejections_of_editScript {source : String} {rejection : Option Script.Rejection}
    (h : s.editScript id source = .ok (s', rejection)) :
    s'.rejections = s.rejectionsWithout id ++ (Graph.scriptPatch source).2.toList.map (id, ·) := by
  obtain ⟨⟨g, found⟩, hedit, h⟩ := exists_of_bind_eq_ok h
  obtain ⟨_, -, rfl⟩ := Graph.exists_of_editScript hedit
  cases hfound : (Graph.scriptPatch source).2 with
  | some r =>
    rw [hfound] at h
    obtain ⟨rfl, -⟩ := Prod.mk.inj (Except.ok.inj h)
    exact rejections_scheduleFields ..
  | none =>
    rw [hfound] at h
    obtain ⟨rfl, -⟩ := Prod.mk.inj (Except.ok.inj h)
    rw [rejections_scheduleFields]
    simp

/-- Each mutation changes nodes and rejections as the history says. -/
theorem changes_of_mutate (h : s.mutate m = some s') :
    s.Changes m s'.graph.nodes s'.rejections := by
  cases m with
  | addNode fresh type =>
    obtain rfl := Option.some.inj h
    exact .addNode fresh type
  | removeNode id =>
    obtain ⟨_, h⟩ := exists_of_map_fst_eq_some h
    obtain ⟨⟨g, n⟩, hremove, h⟩ := exists_of_bind_eq_ok h
    obtain ⟨rfl, -⟩ := Prod.mk.inj (Except.ok.inj h)
    obtain ⟨-, rfl⟩ := Graph.removeNode_eq_ok_iff.mp hremove
    exact .removeNode id
  | connect sourcePort targetPort =>
    obtain ⟨_, h⟩ := exists_of_map_fst_eq_some h
    obtain ⟨⟨g, e⟩, hconnect, h⟩ := exists_of_bind_eq_ok h
    obtain ⟨rfl, -⟩ := Prod.mk.inj (Except.ok.inj h)
    obtain ⟨_, _, -, -, rfl⟩ := Graph.connect_eq_ok_iff.mp hconnect
    exact .connect sourcePort targetPort
  | disconnect id =>
    obtain ⟨⟨g, e⟩, hdisconnect, h⟩ := exists_of_bind_eq_ok (toOption_eq_some_iff.mp h)
    obtain rfl := Except.ok.inj h
    obtain ⟨-, rfl⟩ := Graph.disconnect_eq_ok_iff.mp hdisconnect
    exact .disconnect id
  | updateNode id patch =>
    obtain ⟨hnodes, hrejections⟩ := nodes_of_updateNode (toOption_eq_some_iff.mp h)
    rw [hnodes, hrejections]
    exact .updateNode id patch
  | replaceParams id params =>
    obtain ⟨n, -, h⟩ := exists_of_replaceParams (toOption_eq_some_iff.mp h)
    obtain ⟨hnodes, hrejections⟩ := nodes_of_updateNode h
    rw [hnodes, hrejections]
    exact .replaceParams id n params
  | editScript id source =>
    obtain ⟨rejection, h⟩ := exists_of_map_fst_eq_some h
    obtain ⟨_, hupdate, -⟩ := exists_of_editScript h
    obtain ⟨⟨g, found⟩, hedit, -⟩ := exists_of_bind_eq_ok h
    obtain ⟨n, hscriptable, -⟩ := exists_of_bind_eq_ok hedit
    obtain ⟨hn, hscript⟩ := Graph.scriptable_eq_ok_iff.mp hscriptable
    obtain ⟨_, -, -, hgraph⟩ := Graph.updateNode_eq_ok_iff.mp hupdate
    rw [rejections_of_editScript h, hgraph]
    exact .editScript source hn hscript

/-- What is kept for a node is what its history says. -/
structure Records (nodes : List Node) (rejections : List (NodeId × Script.Rejection)) (id : NodeId)
    (history : Option ScriptHistory) : Prop where
  /-- The node is there as long as it has a history, with the source and the script that its
  history leads to. -/
  node : (nodes.find? (·.id == id)).map (fun n => (n.type, n.execTs, n.exec)) =
    history.map fun h => (h.node.type, h.source, h.exec)
  /-- The reason why its source cannot be executed is that of the last edit. -/
  rejection : rejections.lookup id = history.bind ScriptHistory.rejection

variable {nodes : List Node} {rejections : List (NodeId × Script.Rejection)}
  {history : Option ScriptHistory}

/-- No change brings an id into a draft for the second time. -/
theorem Changes.nodup_ids (h : s.Changes m nodes rejections) (hm : m.Promised s.graph)
    (hids : (s.graph.nodes.map Node.id).Nodup) : (nodes.map Node.id).Nodup := by
  cases h with
  | addNode fresh type =>
    rw [List.map_append, List.nodup_append]
    refine ⟨hids, List.nodup_singleton _, ?_⟩
    rintro _ hn _ hnew rfl
    obtain ⟨n, hn, hid⟩ := List.mem_map.mp hn
    exact hm n hn (hid.trans (List.mem_singleton.mp hnew))
  | removeNode id => exact hids.sublist (List.eraseP_sublist.map _)
  | connect | disconnect => exact hids
  | updateNode | replaceParams | editScript =>
    rw [Graph.map_id_mapNode]
    exact hids

/-- A change of the other data of a node keeps what is kept for its script. -/
theorem Records.mapNode (h : Records nodes rejections id history) {patch : Patch}
    (hexec : patch.exec = none) (hsource : patch.execTs = none) (changed : NodeId) :
    Records (Graph.mapNode changed patch.apply nodes) rejections id history where
  node := by
    rw [Graph.find?_mapNode, ← h.node]
    split
    · rw [Option.map_map]
      refine congrArg (Option.map · _) (funext fun n => ?_)
      simp [Patch.apply, hexec, hsource]
    · rfl
  rejection := h.rejection

/-- A node that is there has a history, which tells its script. -/
theorem Records.exists_history (h : Records nodes rejections id history) {n : Node}
    (hn : nodes.find? (·.id == id) = some n) : ∃ before, history = some before ∧
      n.type = before.node.type ∧ n.execTs = before.source ∧ n.exec = before.exec := by
  have hnode := h.node
  rw [hn] at hnode
  obtain ⟨before, hbefore, heq⟩ := Option.map_eq_some_iff.mp hnode.symm
  simp only [Prod.mk.injEq] at heq
  exact ⟨before, hbefore, heq.1.symm, heq.2.1.symm, heq.2.2.symm⟩

/-- A history is that of a node that is there. -/
theorem Records.exists_node (h : Records nodes rejections id history) {before : ScriptHistory}
    (hbefore : history = some before) :
    ∃ n, nodes.find? (·.id == id) = some n ∧ n.type = before.node.type := by
  obtain ⟨n, hn, heq⟩ := Option.map_eq_some_iff.mp (hbefore ▸ h.node)
  exact ⟨n, hn, congrArg Prod.fst heq⟩

/-- A node that is not there has no history. -/
theorem Records.history_eq_none (h : Records nodes rejections id history)
    (hn : nodes.find? (·.id == id) = none) : history = none := by
  have hnode := h.node
  rw [hn] at hnode
  exact Option.map_eq_none_iff.mp hnode.symm

/-- An edit stores the source, and the script if the source can be executed. -/
theorem Records.editScript {n : Node} {source : String} {changed : NodeId}
    (h : Records s.graph.nodes s.rejections id history) (hn : s.graph.node? changed = some n)
    (hscript : n.type.isScriptable) :
    Records (Graph.mapNode changed (Graph.scriptPatch source).1.apply s.graph.nodes)
      (s.rejectionsWithout changed ++ (Graph.scriptPatch source).2.toList.map (changed, ·)) id
      (ScriptHistory.after id history (.mutate (.editScript changed source))) := by
  rw [ScriptHistory.after]
  refine ⟨?_, ?_⟩
  · rw [Graph.find?_mapNode]
    split
    · rename_i hid
      subst hid
      obtain ⟨before, rfl, htype, hsource, hexec⟩ := h.exists_history hn
      have hfound : s.graph.nodes.find? (·.id == changed) = some n := hn
      rw [hfound, Option.map_some, Option.map_some, Option.map_some, Option.map_some,
        ScriptHistory.source_edit (htype ▸ hscript), ScriptHistory.exec_edit (htype ▸ hscript),
        ScriptHistory.node_edit, ← htype, ← hexec]
      rw [Graph.scriptPatch]
      cases Script.eraseTypes source <;> rfl
    · exact h.node
  · rw [List.lookup_append, rejectionsWithout, lookup_filter_ne]
    split
    · rename_i hid
      subst hid
      obtain ⟨before, rfl, htype, -⟩ := h.exists_history hn
      rw [Option.map_some, Option.bind_some, ScriptHistory.rejection_edit (htype ▸ hscript)]
      cases (Graph.scriptPatch source).2 <;> simp
    · rename_i hid
      have hne : (id == changed) = false := beq_eq_false_iff_ne.mpr (Ne.symm hid)
      cases (Graph.scriptPatch source).2 <;> simp [hne, List.lookup_cons, h.rejection]

/-- What is kept for a node goes on to be what its history says. -/
theorem Records.changes (h : Records s.graph.nodes s.rejections id history)
    (hc : s.Changes m nodes rejections) (hm : m.Promised s.graph)
    (hids : (s.graph.nodes.map Node.id).Nodup) :
    Records nodes rejections id (ScriptHistory.after id history (.mutate m)) := by
  cases hc with
  | addNode fresh type =>
    rw [ScriptHistory.after]
    refine ⟨?_, ?_⟩
    · have hnew : ∀ n ∈ s.graph.nodes, n.id ≠ (Node.create fresh type).id := hm
      rw [Graph.find?_concat_node hnew, apply_ite (Option.map _), apply_ite (Option.map _), h.node]
      rfl
    · rw [h.rejection]
      split
      · rename_i hid
        -- A node that was not in the draft has no history, and so no reason was kept for it.
        have hnone : s.graph.node? id = none := Graph.node?_eq_none_iff.mpr (hid ▸ hm)
        rw [h.history_eq_none hnone]
        rfl
      · rfl
  | removeNode removed =>
    rw [ScriptHistory.after]
    refine ⟨?_, ?_⟩
    · rw [Graph.find?_eraseP_node hids]
      split
      · rfl
      · exact h.node
    · rw [rejectionsWithout, lookup_filter_ne]
      split
      · rfl
      · exact h.rejection
  | connect | disconnect => exact h
  | updateNode changed patch => exact h.mapNode hm.1 hm.2 changed
  | replaceParams changed n params => exact h.mapNode rfl rfl changed
  | editScript source hn hscript => exact h.editScript hn hscript

/-- An edit of a task that carries a script succeeds. -/
theorem editScript_of_scriptable {n : Node} (h : s.graph.scriptable id = .ok n) (source : String) :
    ∃ next, s.editScript id source = .ok next := by
  obtain ⟨hn, -⟩ := Graph.scriptable_eq_ok_iff.mp h
  obtain ⟨g, m, hupdate⟩ : ∃ g m,
      s.graph.updateNode id (Graph.scriptPatch source).1 = .ok (g, m) :=
    ⟨_, _, Graph.updateNode_eq_ok_iff.mpr ⟨n, hn, rfl, rfl⟩⟩
  have hedit : s.graph.editScript id source = .ok (g, (Graph.scriptPatch source).2) := by
    simp only [Graph.editScript, h, bind, Except.bind, hupdate, Except.mapError, pure, Except.pure]
  rw [editScript, hedit]
  cases (Graph.scriptPatch source).2 with
  | some r => exact ⟨_, rfl⟩
  | none => exact ⟨_, rfl⟩

/-- An edit that the graph refuses leaves the session as it is. -/
theorem editScript_of_error {e : ScriptError} (h : s.graph.scriptable id = .error e)
    (source : String) : s.editScript id source = .error e := by
  rw [editScript, Graph.editScript, h]
  rfl

/-- A change that fails has no place in a history. -/
theorem Records.failed (h : Records s.graph.nodes s.rejections id history)
    (hm : s.mutate m = none) : ScriptHistory.after id history (.mutate m) = history := by
  cases m with
  | addNode => cases hm
  | connect | disconnect | updateNode | replaceParams => rfl
  | removeNode removed =>
    rw [ScriptHistory.after]
    split
    · rename_i hid
      subst hid
      have hnone : s.graph.node? removed = none := by
        cases hn : s.graph.node? removed with
        | none => rfl
        | some n =>
          simp [mutate, removeNode, Graph.removeNode, hn, bind, Except.bind, pure, Except.pure,
            Except.toOption] at hm
      exact (h.history_eq_none hnone).symm
    · rfl
  | editScript edited source =>
    rw [ScriptHistory.after]
    split
    · rename_i hid
      subst hid
      cases hhistory : history with
      | none => rfl
      | some before =>
        obtain ⟨n, hn, htype⟩ := h.exists_node hhistory
        -- A task that carries a script would have been edited.
        have hscript : ¬ before.node.type.isScriptable := by
          intro hscript
          obtain ⟨next, hnext⟩ := editScript_of_scriptable
            (Graph.scriptable_eq_ok_iff.mpr ⟨hn, htype ▸ hscript⟩) source
          simp [mutate, hnext, Except.toOption] at hm
        rw [Option.map_some, ScriptHistory.edit, if_neg hscript]
    · rfl

/-! ## Runs -/

variable {steps : List Step}

/-- A step keeps ids apart, and what is kept for a node goes on to be what its history says. -/
theorem Records.advance (h : Records s.graph.nodes s.rejections id history)
    (hids : (s.graph.nodes.map Node.id).Nodup) {step : Step} (hstep : step.Promised s) :
    ((s.after step).graph.nodes.map Node.id).Nodup ∧
      Records (s.after step).graph.nodes (s.after step).rejections id
        (ScriptHistory.after id history step) := by
  cases step with
  | elapse ms => exact ⟨hids, h⟩
  | mutate m =>
    rw [after, perform]
    cases hm : s.mutate m with
    | none =>
      rw [h.failed hm]
      exact ⟨hids, h⟩
    | some s' =>
      have hchanges := changes_of_mutate hm
      exact ⟨hchanges.nodup_ids hstep hids, h.changes hchanges hstep hids⟩

/-- After any steps the history tells the scripts of all nodes. -/
theorem Records.run (h : Records s.graph.nodes s.rejections id history)
    (hids : (s.graph.nodes.map Node.id).Nodup)
    (hsteps : Throughout (fun s step => step.Promised s) s steps) :
    Records (s.run steps).graph.nodes (s.run steps).rejections id
      (steps.foldl (ScriptHistory.after id) history) := by
  induction steps generalizing s history with
  | nil => exact h
  | cons step steps ih =>
    obtain ⟨hstep, hsteps⟩ := hsteps
    obtain ⟨hids, h⟩ := h.advance hids hstep
    exact ih h hids hsteps

/-- At the start of a session no node has been edited. -/
theorem records_start (hstart : s.rejections = []) (id : NodeId) :
    Records s.graph.nodes s.rejections id ((s.graph.node? id).map fun n => ⟨n, []⟩) where
  node := by
    rw [Option.map_map]
    refine congrArg (Option.map · _) (funext fun n => ?_)
    simp [ScriptHistory.source, ScriptHistory.exec]
  rejection := by
    rw [hstart]
    cases s.graph.node? id <;> rfl

/-- Scripts follow their edits. In a session over any draft, a node has the source that it was
edited with last and the script of the last source that could be executed, each as the node came
with it if there is none. A reason is kept why its source cannot be executed exactly as long as the
node is there and the source of the last edit has this reason. An edit of a node that is not there
or carries no script fails, and changes neither the draft nor any reason. -/
theorem scripts_follow_edits (s : Session) (steps : List Step) (hstart : s.rejections = [])
    (hids : (s.graph.nodes.map Node.id).Nodup)
    (hsteps : Throughout (fun s step => step.Promised s) s steps) (id : NodeId) :
    (∀ n, (s.run steps).graph.node? id = some n → ∃ h, scriptHistory s.graph steps id = some h ∧
      n.type = h.node.type ∧ n.execTs = h.source ∧ n.exec = h.exec) ∧
    (∀ r, (s.run steps).rejection? id = some r ↔
      ∃ n h source, (s.run steps).graph.node? id = some n ∧
        scriptHistory s.graph steps id = some h ∧ h.sources.getLast? = some source ∧
        Script.eraseTypes source = .error r) ∧
    ∀ source, (∀ n, (s.run steps).graph.node? id = some n → ¬n.type.isScriptable) →
      (∃ e, (s.run steps).editScript id source = .error e) ∧
      (s.run (steps ++ [.mutate (.editScript id source)])).graph = (s.run steps).graph ∧
      (s.run (steps ++ [.mutate (.editScript id source)])).rejections =
        (s.run steps).rejections := by
  have h := (records_start hstart id).run hids hsteps
  refine ⟨fun n hn => h.exists_history hn, fun r => ?_, fun source hsource => ?_⟩
  · rw [rejection?, h.rejection, Option.bind_eq_some_iff]
    constructor
    · rintro ⟨before, hbefore, hr⟩
      obtain ⟨source, hlast, herror⟩ := ScriptHistory.rejection_eq_some_iff.mp hr
      obtain ⟨n, hn, -⟩ := h.exists_node hbefore
      exact ⟨n, before, source, hn, hbefore, hlast, herror⟩
    · rintro ⟨_, before, source, -, hbefore, hlast, herror⟩
      exact ⟨before, hbefore, ScriptHistory.rejection_eq_some_iff.mpr ⟨source, hlast, herror⟩⟩
  · obtain ⟨e, he⟩ := Graph.exists_error_of_not_scriptable hsource
    have hedit := editScript_of_error he source
    have hafter : (s.run steps).perform (.mutate (.editScript id source)) = s.run steps := by
      simp [perform, mutate, hedit, Except.toOption]
    have hrun : s.run (steps ++ [.mutate (.editScript id source)]) = (s.run steps).settle := by
      rw [run_append]
      exact congrArg settle hafter
    rw [hrun]
    exact ⟨⟨e, hedit⟩, rfl, rfl⟩

/-- A task is edited, renamed and edited again, now with a string that is never closed: the source
is the last one, the script is that of the first one, and the reason is kept. There is no other task
to edit. -/
theorem scripts_follow_edits_unclosed_string :
    let f : Node := .restore ⟨"f"⟩ .function (some ⟨"f.in"⟩) (some ⟨"f.out"⟩)
    let s := ofGraph ⟨[f], [], []⟩ (.named "draft" "one task")
    let steps : List Step := [.mutate (.editScript ⟨"f"⟩ "let x: number = 1;"),
      .mutate (.updateNode ⟨"f"⟩ { Patch.empty with label := "F" }),
      .mutate (.editScript ⟨"f"⟩ "let x = 'a")]
    scriptHistory s.graph steps ⟨"f"⟩ = some ⟨f, ["let x: number = 1;", "let x = 'a"]⟩ ∧
    (∃ n, (s.run steps).graph.node? ⟨"f"⟩ = some n ∧ n.execTs = some "let x = 'a" ∧
      n.exec = some "let x = 1;") ∧
    (s.run steps).rejection? ⟨"f"⟩ = some ⟨.unterminatedString, ⟨1, 9⟩⟩ ∧
    (s.run (steps ++ [.mutate (.editScript ⟨"g"⟩ "")])).graph = (s.run steps).graph := by
  intro f s steps
  have hpromised : Throughout (fun s step => step.Promised s) s steps :=
    ⟨trivial, ⟨rfl, rfl⟩, trivial, trivial⟩
  have hids : (s.graph.nodes.map Node.id).Nodup := List.nodup_singleton _
  have hhistory : scriptHistory s.graph steps ⟨"f"⟩ =
      some ⟨f, ["let x: number = 1;", "let x = 'a"]⟩ := by decide +kernel
  obtain ⟨hscript, hreason, -⟩ := scripts_follow_edits s steps rfl hids hpromised ⟨"f"⟩
  obtain ⟨-, -, hmissing⟩ := scripts_follow_edits s steps rfl hids hpromised ⟨"g"⟩
  obtain ⟨n, hn⟩ : ∃ n, (s.run steps).graph.node? ⟨"f"⟩ = some n :=
    Option.isSome_iff_exists.mp (by decide +kernel)
  have hnone : (s.run steps).graph.node? ⟨"g"⟩ = none := by decide +kernel
  obtain ⟨h, hh, -, hsource, hexec⟩ := hscript n hn
  obtain rfl : h = ⟨f, ["let x: number = 1;", "let x = 'a"]⟩ :=
    Option.some.inj (hh.symm.trans hhistory)
  refine ⟨hhistory, ⟨n, hn, hsource, hexec.trans ?_⟩, (hreason _).mpr ?_, ?_⟩
  · decide +kernel
  · exact ⟨n, _, "let x = 'a", hn, hhistory, rfl, by decide +kernel⟩
  · refine (hmissing "" fun n hn => ?_).2.1
    rw [hnone] at hn
    cases hn

end Session

end Workflow
