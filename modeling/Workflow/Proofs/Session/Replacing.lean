import Workflow.Proofs.Graph.Patching
import Workflow.Proofs.Session.Following
import Workflow.Proofs.Snapshot.Import
import Workflow.Session.Submit

/-!
# Replacing params

The draft of a session is what a run of operations leaves of the empty graph: importing a snapshot
inserts nodes and edges one after the other, and a change of the draft is an operation on it. So
the params of every node are a map, and no two nodes have the same id. The patch that replaces
the params of a node removes what is not among the new ones before it puts these, and leaves a map
in which the same is found under every key.
-/

namespace Workflow

/-! ## Imported drafts -/

/-- The params of every record are a map. -/
def UiSnapshot.HoldsMaps (s : UiSnapshot) : Prop := ∀ r ∈ s.nodes, r.data.params.keys.Nodup

namespace Graph

variable {g next : Graph} {op : Operation}

/-- An operation that succeeds goes on with a draft. -/
theorem Drafted.perform (h : g.Drafted) (hop : op.Promised g) (hmap : op.BringsMap)
    (hnext : g.perform op = .ok next) : next.Drafted := by
  have hafter : g.after op = next := by rw [after, hnext]
  exact hafter ▸ .step op h hop hmap

theorem Drafted.insertUiNodes {records : List UiNode} (h : g.Drafted)
    (hmaps : ∀ r ∈ records, r.data.params.keys.Nodup)
    (hnext : records.foldlM insertUiNode g = .ok next) : next.Drafted := by
  induction records generalizing g with
  | nil => exact Except.ok.inj hnext ▸ h
  | cons r records ih =>
    obtain ⟨hr, hmaps⟩ := List.forall_mem_cons.mp hmaps
    obtain ⟨g', hinsert, hnext⟩ := exists_of_bind_eq_ok hnext
    obtain ⟨n, ⟨hdescribes, -⟩, hinsert⟩ := insertUiNode_eq_ok_iff.mp hinsert
    have hmap : n.params.keys.Nodup := hdescribes.params ▸ hr
    have hpromised : (Operation.insertNode n).Promised g := trivial
    exact ih (h.perform hpromised hmap hinsert) hmaps hnext

theorem Drafted.insertUiEdges {records : List UiEdge} (h : g.Drafted)
    (hnext : records.foldlM insertUiEdge g = .ok next) : next.Drafted := by
  induction records generalizing g with
  | nil => exact Except.ok.inj hnext ▸ h
  | cons r records ih =>
    obtain ⟨g', hinsert, hnext⟩ := exists_of_bind_eq_ok hnext
    have hpromised : (Operation.insertEdge r.toEdge).Promised g := trivial
    exact ih (h.perform hpromised trivial (insertUiEdge_eq_ok_iff.mp hinsert)) hnext

/-- Importing a snapshot is a run of operations. -/
theorem drafted_of_toGraph {s : UiSnapshot} (hmaps : s.HoldsMaps) (h : s.toGraph = .ok g) :
    g.Drafted := by
  obtain ⟨inserted, hnodes, hedges⟩ := exists_of_bind_eq_ok h
  exact (Drafted.empty.insertUiNodes hmaps hnodes).insertUiEdges hedges

end Graph

namespace Session

/-! ## Drafts of sessions -/

/-- The sessions that an editor can come to. The ids of new nodes are not in use. -/
inductive Reachable : Session → Prop where
  | ofGraph {g : Graph} (m : Metadata) : g.Drafted → Reachable (.ofGraph g m)
  | reopen {d : StoredDefinition} {s : Session} : (∀ x ∈ d.snapshot, x.HoldsMaps) →
      Session.reopen d = .ok s → Reachable s
  | withRules {s : Session} (rules : List Rule) : Reachable s → Reachable (s.withRules rules)
  | withDebounce {s : Session} (delay : Nat) : Reachable s → Reachable (s.withDebounce delay)
  | setMetadata {s : Session} (m : Metadata) : Reachable s → Reachable (s.setMetadata m)
  | mutate {s s' : Session} {m : Mutation} : Reachable s →
      (m.operation s.graph).Promised s.graph → s.mutate m = some s' → Reachable s'
  | settle {s : Session} : Reachable s → Reachable s.settle
  | elapse {s : Session} (ms : Nat) : Reachable s → Reachable (s.elapse ms)
  | receive {s : Session} : Reachable s → Reachable s.receive.1
  | beginSubmission {s s' : Session} {x : Submission} : Reachable s →
      s.beginSubmission = .ok (s', x) → Reachable s'
  | endSubmission {s : Session} : Reachable s → Reachable s.endSubmission

variable {s s' : Session} {m : Mutation} {id : NodeId} {n : Node} {params : Json.Entries}

theorem Mutation.bringsMap_operation (m : Mutation) (g : Graph) : (m.operation g).BringsMap := by
  cases m <;> trivial

theorem exists_updateNode {g : Graph} {patch : Patch}
    (h : s.graph.updateNode id patch = .ok (g, n)) :
    ∃ s', s.updateNode id patch = .ok s' ∧ s'.graph = g := by
  rw [updateNode, h]
  exact ⟨_, rfl, graph_scheduleFields ..⟩

theorem graph_receive (s : Session) : s.receive.1.graph = s.graph := by
  rw [receive]
  cases s.debouncer <;> rfl

theorem graph_of_beginSubmission {x : Submission} (h : s.beginSubmission = .ok (s', x)) :
    s'.graph = s.graph := by
  rw [beginSubmission] at h
  split at h
  · cases h
  · split at h
    · cases h
    · cases h
      rfl

/-- The draft of a session is what a run of operations leaves. -/
theorem Reachable.drafted (h : s.Reachable) : s.graph.Drafted := by
  induction h with
  | ofGraph m hg => exact hg
  | @reopen d s hmaps hs =>
    obtain ⟨g, hg, hs⟩ := exists_of_bind_eq_ok hs
    obtain rfl := Except.ok.inj hs
    cases hx : d.snapshot with
    | none =>
      rw [hx] at hg
      exact Except.ok.inj hg ▸ .empty
    | some x =>
      rw [hx] at hg
      exact Graph.drafted_of_toGraph (hmaps x hx) hg
  | mutate _ hop hm ih =>
    exact ih.perform hop (Mutation.bringsMap_operation _ _) (operates_of_mutate hm).1
  | receive _ ih =>
    rw [graph_receive]
    exact ih
  | beginSubmission _ hbegin ih => exact graph_of_beginSubmission hbegin ▸ ih
  | withRules _ _ ih | withDebounce _ _ ih | setMetadata _ _ ih | settle _ ih | elapse _ _ ih
  | endSubmission _ ih => exact ih

/-! ## The new params -/

/-- The patch that replaces params leaves the same as the new ones under every key. -/
theorem get?_params_replacement (hn : n.params.keys.Nodup) (hparams : params.keys.Nodup)
    (key : String) : ((replacement n params).apply n).params.get? key = params.get? key := by
  rw [Patch.get?_params_apply hn hparams]
  cases hnew : params.get? key with
  | some value =>
    have hset : (replacement n params).params.get? key = some value := hnew
    rw [hset]
  | none =>
    -- A key of the node that is not among the new ones is removed.
    have hset : (replacement n params).params.get? key = none := hnew
    have hhas : params.has key = false := by rw [Json.Entries.has_eq_isSome_get?, hnew]; rfl
    have hremoved : key ∈ (replacement n params).removeParams ↔ key ∈ n.params.keys := by
      simp [replacement, hhas]
    rw [hset]
    simp only [hremoved, ite_eq_left_iff]
    exact Json.Entries.get?_eq_none_iff.mpr

theorem params_replacement_perm (hn : n.params.keys.Nodup) (hparams : params.keys.Nodup) :
    ((replacement n params).apply n).params.Perm params :=
  Json.Entries.perm_of_get?_eq (Patch.nodup_keys_apply _ hn) hparams
    (get?_params_replacement hn hparams)

/-- Replacing the params of a node that is there succeeds and leaves exactly the new ones, and all
else of the draft as it was. For a node that is not there it fails and does nothing. -/
theorem replaceParams_leaves (hs : s.Reachable) (id : NodeId) (hparams : params.keys.Nodup) :
    (∀ n ∈ s.graph.nodes, n.id = id → ∃ before behind m s',
      s.graph.nodes = before ++ n :: behind ∧ s.replaceParams id params = .ok s' ∧
        s'.graph = { s.graph with nodes := before ++ m :: behind } ∧
        m = { n with params := m.params } ∧ m.params.Perm params ∧
        ∀ key, m.params.get? key = params.get? key) ∧
    ((∀ n ∈ s.graph.nodes, n.id ≠ id) →
      s.replaceParams id params = .error (.unknownNode id) ∧
      s.perform (.mutate (.replaceParams id params)) = s ∧
      s.scheduled (.mutate (.replaceParams id params)) = []) := by
  have hdraft := hs.drafted
  refine ⟨?_, fun habsent => ?_⟩
  · rintro n hn rfl
    have hmap := hdraft.holdsMaps n hn
    obtain ⟨before, behind, hnodes⟩ := List.append_of_mem hn
    have hcoherent := hdraft.reachable.coherent
    obtain ⟨s', hs', hgraph⟩ : ∃ s', s.replaceParams n.id params = .ok s' ∧
        s'.graph = { s.graph with nodes := before ++ (replacement n params).apply n :: behind } := by
      rw [replaceParams, hcoherent.node?_id hn]
      exact exists_updateNode (hcoherent.updateNode_of_append hnodes)
    exact ⟨before, behind, (replacement n params).apply n, s', hnodes, hs', hgraph, rfl,
      params_replacement_perm hmap hparams, get?_params_replacement hmap hparams⟩
  · have hfails : s.replaceParams id params = .error (.unknownNode id) := by
      rw [replaceParams, Graph.node?_eq_none_iff.mpr habsent]
    have hnone : s.mutate (.replaceParams id params) = none := by rw [mutate, hfails]; rfl
    exact ⟨hfails, by rw [perform, hnone]; rfl, by rw [scheduled, hnone]; rfl⟩

/-- Params of which one key stays and gets another value, one is new and one goes, for a node
that is there and for one that is not, in a session whose validation follows edits. -/
theorem replaceParams_leaves_overlap :
    let n := { Node.restore ⟨"n"⟩ .start none (some ⟨"o"⟩) with
      params := [("a", .null), ("b", .null), ("c", .null)] }
    let params : Json.Entries := [("c", .null), ("d", .null), ("a", .bool true)]
    let s := (ofGraph (Graph.empty.after (.insertNode n)) (.named "w" "d")).withDebounce 300
    let absent := Mutation.replaceParams ⟨"x"⟩ params
    s.Reachable ∧ params.keys.Nodup ∧ s.graph.nodes = [n] ∧ (∀ m ∈ s.graph.nodes, m.id ≠ ⟨"x"⟩) ∧
      (∃ m s', s.replaceParams ⟨"n"⟩ params = .ok s' ∧ s'.graph.nodes = [m] ∧
        m.params.Perm params ∧ m.params.get? "a" = some (.bool true) ∧ m.params.get? "b" = none) ∧
      s.replaceParams ⟨"x"⟩ params = .error (.unknownNode ⟨"x"⟩) ∧
      s.perform (.mutate absent) = s ∧ s.scheduled (.mutate absent) = [] := by
  intro n params s absent
  have hparams : params.keys.Nodup := by decide +kernel
  have hn : n.params.keys.Nodup := by decide +kernel
  have hs : s.Reachable := .withDebounce 300 (.ofGraph _ (.step _ .empty trivial hn))
  have hnodes : s.graph.nodes = [n] := by decide +kernel
  have hmem : n ∈ s.graph.nodes := hnodes ▸ List.mem_singleton_self n
  have hnone : ∀ m ∈ s.graph.nodes, m.id ≠ ⟨"x"⟩ := by rw [hnodes]; decide +kernel
  obtain ⟨hleaves, -⟩ := replaceParams_leaves hs ⟨"n"⟩ hparams
  obtain ⟨-, hfails⟩ := replaceParams_leaves hs ⟨"x"⟩ hparams
  obtain ⟨before, behind, m, s', hsplit, hs', hgraph, -, hperm, hget⟩ := hleaves n hmem rfl
  have hleft : s'.graph.nodes = [m] := by
    rw [hnodes] at hsplit
    obtain ⟨rfl, rfl⟩ : before = [] ∧ behind = [] := by
      cases before <;> simp_all
    rw [hgraph, List.nil_append]
  refine ⟨hs, hparams, hnodes, hnone, ⟨m, s', hs', hleft, hperm, ?_, ?_⟩, hfails hnone⟩
  all_goals
    rw [hget]
    decide +kernel

end Session

end Workflow
