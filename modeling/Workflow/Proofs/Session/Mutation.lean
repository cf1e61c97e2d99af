import Workflow.Proofs.Graph.Outcome
import Workflow.Proofs.Validation.Passes
import Workflow.Session.Basic

/-!
# Changes of a draft

The seven changes of a draft that a session offers are collected in one type. A change that
succeeds schedules a validation of the draft that it leaves under each of its keys, and only a
change that no rule looks at has no key. So what validation finds never changes unnoticed.
-/

namespace Workflow

/-! ## What validation looks at -/

/-- A node without what no rule looks at. -/
def Node.content (n : Node) : Node :=
  { n with
    input := none
    output := none
    position := .initial
    uiExtra := []
    dataExtra := [] }

/-- A graph without what no rule looks at. -/
def Graph.content (g : Graph) : Graph := ⟨g.nodes.map Node.content, [], []⟩

/-- Whether another node has a label is known from the contents of the nodes. -/
theorem Rule.namesOther_content (g : Graph) (n : Node) (label : String) :
    namesOther g.content n.content label = namesOther g n label := by
  rw [namesOther, namesOther, Graph.content, List.any_map]
  rfl

/-- What a rule finds at a node is known from the contents of the nodes. -/
theorem Rule.checkNode_content (rule : Rule) (g : Graph) (n : Node) :
    rule.checkNode g.content n.content = rule.checkNode g n := by
  cases rule with
  | labelUnique =>
    have hlabels : g.content.nodes.map Node.label = g.nodes.map Node.label := List.map_map
    simp only [checkNode, hlabels]
    rfl
  | waitReferences =>
    have hnames : unknownNames g.content n.content = unknownNames g n := by
      simp only [unknownNames, namesOther_content]
      rfl
    simp only [checkNode, hnames]
    rfl
  | labelRequired | paramKeys | taskParams | scriptRequired => rfl

/-- Validation finds the same in graphs that agree in what the rules look at. -/
theorem Graph.validateBy_content (g : Graph) (rules : List Rule) :
    g.content.validateBy rules = g.validateBy rules := by
  refine List.flatMap_congr fun rule _ => ?_
  rw [Rule.check, Graph.content, List.flatMap_map]
  exact List.flatMap_congr fun n _ => rule.checkNode_content g n

namespace Patch

variable {p : Patch}

/-- A patch touches no field exactly if it changes none. -/
theorem touchedFields_eq_nil_iff : p.touchedFields = [] ↔
    p.label = none ∧ p.params = [] ∧ p.removeParams = [] ∧ p.exec = none ∧ p.execTs = none := by
  simp only [touchedFields, List.append_eq_nil_iff, ite_eq_right_iff, List.cons_ne_nil, imp_false,
    Bool.not_eq_true, Option.isSome_eq_false_iff, Option.isNone_iff_eq_none, Bool.or_eq_false_iff,
    Bool.not_eq_false', List.isEmpty_iff, and_assoc]

/-- A patch that touches no field at most moves a node. -/
theorem content_apply (h : p.touchedFields = []) (n : Node) : (p.apply n).content = n.content := by
  obtain ⟨hlabel, hparams, hremove, hexec, hsource⟩ := touchedFields_eq_nil_iff.mp h
  rw [apply, hlabel, hparams, hremove, hexec, hsource]
  rfl

/-- A patch touches each field once. -/
theorem nodup_touchedFields (p : Patch) : p.touchedFields.Nodup := by
  unfold touchedFields
  split_ifs <;> decide

end Patch

/-- To edit a script is to patch its node, with the outcome of the erasure. -/
theorem Graph.exists_of_editScript {g next : Graph} {id : NodeId} {source : String}
    {rejection : Option Script.Rejection} (h : g.editScript id source = .ok (next, rejection)) :
    ∃ n, g.updateNode id (scriptPatch source).1 = .ok (next, n) ∧
      rejection = (scriptPatch source).2 := by
  obtain ⟨_, -, h⟩ := exists_of_bind_eq_ok h
  obtain ⟨⟨g', n⟩, hupdate, h⟩ := exists_of_bind_eq_ok h
  obtain ⟨rfl, rfl⟩ := Prod.mk.inj (Except.ok.inj h)
  exact ⟨n, mapError_eq_ok_iff.mp hupdate, rfl⟩

namespace Session

/-- A change of a draft with all that it is called with. -/
inductive Mutation where
  | addNode (fresh : FreshIds) (type : TaskType)
  | removeNode (id : NodeId)
  | connect (sourcePort targetPort : PortId)
  | disconnect (id : EdgeId)
  | updateNode (id : NodeId) (patch : Patch)
  | replaceParams (id : NodeId) (params : Json.Entries)
  | editScript (id : NodeId) (source : String)
  deriving DecidableEq, Repr

/-- The session that a change leaves if it succeeds. -/
def mutate (s : Session) : Mutation → Option Session
  | .addNode fresh type => some (s.addNode fresh type).1
  | .removeNode id => (s.removeNode id).toOption.map Prod.fst
  | .connect sourcePort targetPort => (s.connect sourcePort targetPort).toOption.map Prod.fst
  | .disconnect id => (s.disconnect id).toOption
  | .updateNode id patch => (s.updateNode id patch).toOption
  | .replaceParams id params => (s.replaceParams id params).toOption
  | .editScript id source => (s.editScript id source).toOption.map Prod.fst

/-- What a change does to a draft. -/
def Mutation.operation (g : Graph) : Mutation → Graph.Operation
  | .addNode fresh type => .addNode fresh type
  | .removeNode id => .removeNode id
  | .connect sourcePort targetPort => .connect sourcePort targetPort
  | .disconnect id => .disconnect id
  | .updateNode id patch => .updateNode id patch
  | .replaceParams id params =>
    .updateNode id ((g.node? id).elim .empty fun n => replacement n params)
  | .editScript id source => .updateNode id (Graph.scriptPatch source).1

/-- The keys of the fields of a node that a patch may change. -/
def patchKeys (id : NodeId) (patch : Patch) : List String :=
  patch.touchedFields.map (fieldKey · id)

/-- The keys of a change that succeeds on a draft. -/
def Mutation.keys (g : Graph) : Mutation → List String
  | .addNode .. | .removeNode _ | .connect .. | .disconnect _ => [graphKey]
  | .updateNode id patch => patchKeys id patch
  | .replaceParams id params => (g.node? id).toList.flatMap fun n =>
      patchKeys id (replacement n params)
  | .editScript id source => patchKeys id (Graph.scriptPatch source).1

/-! ## What a change schedules -/

/-- A session schedules a validation of its draft under each of some keys. -/
structure Schedules (s : Session) (keys : List String) (s' : Session) : Prop where
  /-- The rules stay. -/
  rules : s'.rules = s.rules
  /-- The keys are scheduled, and nothing else is. -/
  debouncer : s'.debouncer = s.debouncer.map (·.scheduleAll keys s'.graph)

variable {s s' : Session} {id : NodeId} {patch : Patch}

/-- A change of the structure schedules a check of the whole graph. -/
theorem schedules_restructured (s : Session) (g : Graph) :
    s.Schedules [graphKey] (s.restructured g) := ⟨rfl, rfl⟩

/-- To schedule a check changes nothing of the graph. -/
theorem graph_scheduleFields (s : Session) (id : NodeId) (fields : List String) :
    (s.scheduleFields id fields).graph = s.graph := by
  induction fields generalizing s with
  | nil => rfl
  | cons field fields ih => exact ih (s.schedule _)

/-- For each touched field a check of that field is scheduled. -/
theorem schedules_scheduleFields (s : Session) (id : NodeId) (fields : List String) :
    s.Schedules (fields.map (fieldKey · id)) (s.scheduleFields id fields) := by
  induction fields generalizing s with
  | nil => exact ⟨rfl, by simp [scheduleFields, Debouncer.scheduleAll]⟩
  | cons field fields ih =>
    obtain ⟨hrules, hdebouncer⟩ := ih (s.schedule (fieldKey field id))
    refine ⟨hrules, hdebouncer.trans ?_⟩
    rw [graph_scheduleFields, graph_scheduleFields]
    exact Option.map_map ..

/-- To patch a node schedules a check of each touched field. -/
theorem exists_of_updateNode (h : s.updateNode id patch = .ok s') :
    ∃ n, s.graph.updateNode id patch = .ok (s'.graph, n) ∧ s.Schedules (patchKeys id patch) s' := by
  obtain ⟨⟨g, n⟩, hupdate, hs'⟩ := exists_of_bind_eq_ok h
  obtain rfl := Except.ok.inj hs'
  refine ⟨n, by rw [graph_scheduleFields]; exact hupdate, ?_⟩
  obtain ⟨hrules, hdebouncer⟩ :=
    schedules_scheduleFields { s with graph := g } id patch.touchedFields
  exact ⟨hrules, hdebouncer⟩

/-- The fields that an edited source touches are scheduled. -/
theorem touchedFields_scriptPatch (source : String) :
    (Graph.scriptPatch source).1.touchedFields =
      if (Graph.scriptPatch source).2.isSome then ["execTs"] else ["exec", "execTs"] := by
  rw [Graph.scriptPatch]
  cases Script.eraseTypes source <;> rfl

/-- To edit a script schedules a check of each field that it touches. -/
theorem exists_of_editScript {source : String} {rejection : Option Script.Rejection}
    (h : s.editScript id source = .ok (s', rejection)) :
    ∃ n, s.graph.updateNode id (Graph.scriptPatch source).1 = .ok (s'.graph, n) ∧
      s.Schedules (patchKeys id (Graph.scriptPatch source).1) s' := by
  obtain ⟨⟨g, found⟩, hedit, h⟩ := exists_of_bind_eq_ok h
  obtain ⟨n, hupdate, hfound⟩ := Graph.exists_of_editScript hedit
  rw [patchKeys, touchedFields_scriptPatch, ← hfound]
  cases found with
  | some r =>
    obtain ⟨rfl, -⟩ := Prod.mk.inj (Except.ok.inj h)
    refine ⟨n, by rw [graph_scheduleFields]; exact hupdate, ?_⟩
    obtain ⟨hrules, hdebouncer⟩ := schedules_scheduleFields
      { s with graph := g, rejections := s.rejectionsWithout id ++ [(id, r)] } id ["execTs"]
    exact ⟨hrules, hdebouncer⟩
  | none =>
    obtain ⟨rfl, -⟩ := Prod.mk.inj (Except.ok.inj h)
    refine ⟨n, by rw [graph_scheduleFields]; exact hupdate, ?_⟩
    obtain ⟨hrules, hdebouncer⟩ := schedules_scheduleFields
      { s with graph := g, rejections := s.rejectionsWithout id } id ["exec", "execTs"]
    exact ⟨hrules, hdebouncer⟩

/-- Replacing the params of a node is a patch. -/
theorem exists_of_replaceParams {params : Json.Entries} (h : s.replaceParams id params = .ok s') :
    ∃ n, s.graph.node? id = some n ∧ s.updateNode id (replacement n params) = .ok s' := by
  rw [replaceParams] at h
  cases hn : s.graph.node? id with
  | none => simp [hn] at h
  | some n => exact ⟨n, rfl, by simpa [hn] using h⟩

/-- A change that succeeds does one operation to the draft and schedules its keys. -/
theorem operates_of_mutate {m : Mutation} (h : s.mutate m = some s') :
    s.graph.perform (m.operation s.graph) = .ok s'.graph ∧ s.Schedules (m.keys s.graph) s' := by
  cases m with
  | addNode fresh type =>
    obtain rfl := Option.some.inj h
    exact ⟨rfl, schedules_restructured s _⟩
  | removeNode id =>
    obtain ⟨n, h⟩ := exists_of_map_fst_eq_some h
    obtain ⟨⟨g, _⟩, hremove, hs'⟩ := exists_of_bind_eq_ok h
    obtain ⟨rfl, -⟩ := Prod.mk.inj (Except.ok.inj hs')
    exact ⟨congrArg (Except.map Prod.fst) hremove, rfl, rfl⟩
  | connect sourcePort targetPort =>
    obtain ⟨e, h⟩ := exists_of_map_fst_eq_some h
    obtain ⟨⟨g, _⟩, hconnect, hs'⟩ := exists_of_bind_eq_ok h
    obtain ⟨rfl, -⟩ := Prod.mk.inj (Except.ok.inj hs')
    exact ⟨congrArg (Except.map Prod.fst) hconnect, schedules_restructured s g⟩
  | disconnect id =>
    obtain ⟨⟨g, _⟩, hdisconnect, hs'⟩ := exists_of_bind_eq_ok (toOption_eq_some_iff.mp h)
    obtain rfl := Except.ok.inj hs'
    exact ⟨congrArg (Except.map Prod.fst) hdisconnect, schedules_restructured s g⟩
  | updateNode id patch =>
    obtain ⟨n, hupdate, hschedules⟩ := exists_of_updateNode (toOption_eq_some_iff.mp h)
    exact ⟨congrArg (Except.map Prod.fst) hupdate, hschedules⟩
  | replaceParams id params =>
    obtain ⟨n, hn, h⟩ := exists_of_replaceParams (toOption_eq_some_iff.mp h)
    obtain ⟨_, hupdate, hschedules⟩ := exists_of_updateNode h
    rw [Mutation.operation, Mutation.keys, hn, Option.toList_some, List.flatMap_singleton]
    exact ⟨congrArg (Except.map Prod.fst) hupdate, hschedules⟩
  | editScript id source =>
    obtain ⟨rejection, h⟩ := exists_of_map_fst_eq_some h
    obtain ⟨n, hupdate, hschedules⟩ := exists_of_editScript h
    exact ⟨congrArg (Except.map Prod.fst) hupdate, hschedules⟩

/-- The keys of a patch are distinct. -/
theorem nodup_patchKeys : (patchKeys id patch).Nodup := by
  refine patch.nodup_touchedFields.map fun field field' hkey => ?_
  exact (String.append_left_inj _).mp ((String.append_left_inj _).mp hkey)

/-- A mutation schedules each key once. -/
theorem Mutation.nodup_keys (m : Mutation) (g : Graph) : (m.keys g).Nodup := by
  cases m with
  | addNode | removeNode | connect | disconnect => exact List.nodup_singleton _
  | updateNode | editScript => exact nodup_patchKeys
  | replaceParams id params =>
    rw [keys]
    cases g.node? id with
    | none => exact List.nodup_nil
    | some n => simpa using nodup_patchKeys

/-- A change without a key is a patch that touches no field. -/
theorem Mutation.operation_of_keys_eq_nil {m : Mutation} {g : Graph} (hkeys : m.keys g = []) :
    ∃ id patch, m.operation g = .updateNode id patch ∧ patch.touchedFields = [] := by
  cases m with
  | addNode | removeNode | connect | disconnect => cases hkeys
  | updateNode id patch => exact ⟨id, patch, rfl, List.map_eq_nil_iff.mp hkeys⟩
  | editScript id source => exact ⟨id, _, rfl, List.map_eq_nil_iff.mp hkeys⟩
  | replaceParams id params =>
    refine ⟨id, _, rfl, ?_⟩
    rw [keys] at hkeys
    cases hn : g.node? id with
    | none => rfl
    | some n => simpa [hn, patchKeys] using hkeys

/-- A change without a key does not change what validation finds. -/
theorem validate_of_keys_eq_nil {m : Mutation} (h : s.mutate m = some s')
    (hkeys : m.keys s.graph = []) : s'.validate = s.validate := by
  obtain ⟨hperform, hschedules⟩ := operates_of_mutate h
  obtain ⟨id, patch, hop, hpatch⟩ := Mutation.operation_of_keys_eq_nil hkeys
  rw [hop] at hperform
  obtain ⟨n, hupdate⟩ := exists_of_map_fst_eq_ok hperform
  obtain ⟨_, -, -, hgraph⟩ := Graph.updateNode_eq_ok_iff.mp hupdate
  have hcontent : s'.graph.content = s.graph.content := by
    rw [hgraph, Graph.content, Graph.content, Graph.map_mapNode (Patch.content_apply hpatch)]
  rw [validate, validate, hschedules.rules, ← Graph.validateBy_content, hcontent,
    Graph.validateBy_content]

end Session

end Workflow
