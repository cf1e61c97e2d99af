import Workflow.Proofs.Snapshot.NormalForm

/-!
# Drafts that can be reopened

A draft is a graph that was imported from a snapshot and edited since. Edits keep it
coherent and complete, so exporting it and importing the snapshot gives the same graph,
provided that no two edges have the same id. Inserting an edge checks this, but drawing one
does not: it puts the id together from those of the nodes and ports, and different ends can
give the same text.
-/

namespace Workflow

/-- A new node has the ports of its type. -/
theorem Node.complete_create (fresh : FreshIds) (type : TaskType) :
    (Node.create fresh type).Complete := by
  rintro (_ | _) <;> cases type <;> rfl

namespace Graph

/-- The operation is one of an editor, and the ids that it brings from a generator are unused. -/
def Operation.IsEdit (g : Graph) : Operation → Prop
  | .insertNode _ | .insertEdge _ => False
  | op => op.Promised g

/-- The operation draws no edge whose id is in use. -/
def Operation.DrawsUnused (g : Graph) : Operation → Prop
  | .connect sourcePort targetPort =>
    ∀ drawn ∈ (g.connect sourcePort targetPort).toOption, g.edge? drawn.2.id = none
  | _ => True

/-- Exporting the graph and importing the snapshot gives the graph again. -/
def Reopens (g : Graph) : Prop := (UiSnapshot.ofGraph g).toGraph = .ok g

/-- The graph after operations one after the other. -/
def afterAll (g : Graph) (ops : List Operation) : Graph := ops.foldl after g

/-- Every operation is allowed on the graph that it is performed on. -/
def Throughout (allowed : Graph → Operation → Prop) : Graph → List Operation → Prop
  | _, [] => True
  | g, op :: ops => allowed g op ∧ Throughout allowed (g.after op) ops

variable {g next : Graph} {op : Operation} {ops front : List Operation}

/-- An edit leaves every node the ports of its type. -/
theorem Complete.perform (h : g.Complete) (hop : op.IsEdit g) (hnext : g.perform op = .ok next) :
    next.Complete := by
  have hpromised : op.Promised g := by
    cases op <;> first | exact hop | trivial
  refine ⟨h.toCoherent.perform hpromised hnext, ?_⟩
  cases perform_eq_ok_iff.mp hnext with
  | insertNode | insertEdge => exact hop.elim
  | addNode fresh type =>
    intro n hn
    rcases List.mem_append.mp hn with hn | hn
    · exact h.nodes_complete n hn
    · rw [List.mem_singleton.mp hn]
      exact Node.complete_create fresh type
  | connect | disconnect => exact h.nodes_complete
  | removeNode => exact fun m hm => h.nodes_complete m (List.eraseP_sublist.subset hm)
  | @updateNode id _ patch =>
    refine forall_mem_mapNode h.nodes_complete ?_ id
    exact fun _ hn => hn

theorem Complete.after (h : g.Complete) (hop : op.IsEdit g) : (g.after op).Complete :=
  after_of_perform h fun _ hnext => h.perform hop hnext

/-- Every graph along a run of edits is complete. -/
theorem Complete.afterAll (h : g.Complete) (hops : g.Throughout Operation.IsEdit ops)
    (hfront : front <+: ops) : (g.afterAll front).Complete := by
  induction front generalizing g ops with
  | nil => exact h
  | cons op front ih =>
    obtain ⟨rest, rfl⟩ := hfront
    exact ih (h.after hops.1) hops.2 (List.prefix_append front rest)

/-- A complete graph is reopened exactly if no two edges have the same id. -/
theorem Complete.reopens_iff (h : g.Complete) : g.Reopens ↔ (g.edges.map Edge.id).Nodup := by
  rw [Reopens, UiSnapshot.toGraph_ofGraph_iff]
  exact ⟨fun hstorable => hstorable.nodup_edges, fun hedges => ⟨h, hedges⟩⟩

/-- Drawing an edge leaves all ids distinct exactly if its id was not in use. -/
theorem nodup_pushEdge_iff (hedges : (g.edges.map Edge.id).Nodup) {e : Edge} :
    ((g.pushEdge e).edges.map Edge.id).Nodup ↔ g.edge? e.id = none := by
  simp [pushEdge, edge?, List.nodup_append, hedges]

/-- An edit leaves the ids of edges distinct exactly if it draws no edge whose id is in use. -/
theorem nodup_edges_after_iff (hedges : (g.edges.map Edge.id).Nodup) (hop : op.IsEdit g) :
    ((g.after op).edges.map Edge.id).Nodup ↔ op.DrawsUnused g := by
  have hfewer (hsub : ∀ next, g.Performs op next → next.edges.Sublist g.edges) :
      ((g.after op).edges.map Edge.id).Nodup := by
    have hafter : (g.after op).edges.Sublist g.edges :=
      after_of_perform (List.Sublist.refl g.edges) fun next hnext =>
        hsub next (perform_eq_ok_iff.mp hnext)
    exact hedges.sublist (hafter.map Edge.id)
  cases op with
  | insertNode | insertEdge => exact hop.elim
  | connect sourcePort targetPort =>
    rw [after, perform, Operation.DrawsUnused]
    cases hconnect : g.connect sourcePort targetPort with
    | error => simpa [Except.map, Except.toOption] using hedges
    | ok drawn =>
      obtain ⟨next, e⟩ := drawn
      obtain ⟨_, _, _, _, rfl⟩ := connect_eq_ok_iff.mp hconnect
      simpa [Except.map, Except.toOption] using nodup_pushEdge_iff hedges
  | addNode | updateNode =>
    refine iff_of_true (hfewer fun next hnext => ?_) trivial
    cases hnext
    exact List.Sublist.refl _
  | disconnect =>
    refine iff_of_true (hfewer fun next hnext => ?_) trivial
    cases hnext
    exact List.eraseP_sublist
  | removeNode =>
    refine iff_of_true (hfewer fun next hnext => ?_) trivial
    cases hnext
    exact List.filter_sublist

/-- Along a run of edits the ids of edges stay distinct exactly if no edge is drawn whose id is
in use. -/
theorem nodup_edges_throughout_iff (hedges : (g.edges.map Edge.id).Nodup)
    (hops : g.Throughout Operation.IsEdit ops) :
    (∀ front, front <+: ops → ((g.afterAll front).edges.map Edge.id).Nodup) ↔
      g.Throughout Operation.DrawsUnused ops := by
  induction ops generalizing g with
  | nil => simpa [Throughout, afterAll] using hedges
  | cons op ops ih =>
    have hstep := nodup_edges_after_iff hedges hops.1
    constructor
    · intro h
      have hafter : ((g.after op).edges.map Edge.id).Nodup := h [op] ⟨ops, rfl⟩
      refine ⟨hstep.mp hafter, (ih hafter hops.2).mp fun front hfront => ?_⟩
      exact h (op :: front) (List.cons_prefix_cons.mpr ⟨rfl, hfront⟩)
    · rintro ⟨hop, hrest⟩ front hfront
      rcases List.prefix_cons_iff.mp hfront with rfl | ⟨tail, rfl, htail⟩
      · exact hedges
      · exact (ih (hstep.mpr hop) hops.2).mpr hrest tail htail

/-- Removing the drawn edge by its id gives the graph from before exactly if the id was not in
use. -/
theorem disconnect_connect_iff {sourcePort targetPort : PortId} {e : Edge}
    (h : g.connect sourcePort targetPort = .ok (next, e)) :
    (next.disconnect e.id).map Prod.fst = .ok g ↔ g.edge? e.id = none := by
  obtain ⟨source, target, hends, he, rfl⟩ := connect_eq_ok_iff.mp h
  obtain ⟨-, -, hfree⟩ := connectable_eq_ok_iff.mp hends
  have hnew : e ∉ g.edges := by
    intro hmem
    have htarget := List.find?_eq_none.mp hfree e hmem
    simp [he, Edge.drawn] at htarget
  constructor
  · intro hback
    obtain ⟨_, hdisconnect⟩ := exists_of_map_fst_eq_ok hback
    have hedges : g.edges = (g.edges ++ [e]).eraseP (·.id == e.id) :=
      congrArg edges (disconnect_eq_ok_iff.mp hdisconnect).2
    by_contra hused
    obtain ⟨a, ha⟩ := Option.ne_none_iff_exists'.mp hused
    have hid : a.id = e.id := by simpa using List.find?_some ha
    have hfirst : (g.edges ++ [e]).eraseP (·.id == e.id) = g.edges.eraseP (·.id == e.id) ++ [e] :=
      List.eraseP_append_left (by simpa using hid) _ (List.mem_of_find?_eq_some ha)
    have hmem : e ∈ g.edges.eraseP (·.id == e.id) ++ [e] := by simp
    exact hnew (hedges ▸ hfirst ▸ hmem)
  · intro hunused
    have hothers : ∀ a ∈ g.edges, ¬(a.id == e.id) = true := List.find?_eq_none.mp hunused
    have hfound : (g.pushEdge e).edge? e.id = some e := by
      rw [edge?, pushEdge, List.find?_append, List.find?_eq_none.mpr hothers]
      simp
    have hrest : (g.edges ++ [e]).eraseP (·.id == e.id) = g.edges := by
      rw [List.eraseP_append_right _ hothers]
      simp
    rw [disconnect_eq_ok_iff.mpr ⟨hfound, rfl⟩]
    simp [Except.map, pushEdge, hrest]

/-- Along a run of edits of an imported snapshot the draft can be reopened at every time exactly
if no edge is drawn whose id is in use. At any time the draft can be reopened exactly if no two
edges have the same id, and disconnecting an edge that has just been drawn gives the graph from
before exactly if its id was not in use. -/
theorem reopens_throughout_iff {s : UiSnapshot} (hs : s.toGraph = .ok g)
    (hops : g.Throughout Operation.IsEdit ops) :
    ((∀ front, front <+: ops → (g.afterAll front).Reopens) ↔
      g.Throughout Operation.DrawsUnused ops) ∧
    ∀ front, front <+: ops →
      ((g.afterAll front).Reopens ↔ ((g.afterAll front).edges.map Edge.id).Nodup) ∧
      ∀ sourcePort targetPort next e,
        (g.afterAll front).connect sourcePort targetPort = .ok (next, e) →
          ((next.disconnect e.id).map Prod.fst = .ok (g.afterAll front) ↔
            (g.afterAll front).edge? e.id = none) := by
  obtain ⟨-, -, hstorable⟩ := UiSnapshot.toGraph_eq_ok_iff.mp hs
  have hreopens (front : List Operation) (hfront : front <+: ops) :
      (g.afterAll front).Reopens ↔ ((g.afterAll front).edges.map Edge.id).Nodup :=
    (hstorable.toComplete.afterAll hops hfront).reopens_iff
  refine ⟨?_, fun front hfront => ⟨hreopens front hfront, fun _ _ _ _ => disconnect_connect_iff⟩⟩
  rw [← nodup_edges_throughout_iff hstorable.nodup_edges hops]
  exact forall₂_congr hreopens

/-- A function added behind an imported start node, the connection drawn, removed and drawn
again, and then the start node removed. -/
theorem reopens_redrawn_edge :
    let s : UiSnapshot := ⟨[.bare "s" "start" none (some "s.out")], []⟩
    let drawn : Operation := .connect ⟨"s.out"⟩ ⟨"f.in"⟩
    let ops := [.addNode ⟨"f", "f.in", "f.out", "1", "key"⟩ .function, drawn,
      .disconnect ⟨"reactflow__edge-ss.out-ff.in"⟩, drawn, .removeNode ⟨"s"⟩]
    ∃ g, s.toGraph = .ok g ∧ g.Throughout Operation.IsEdit ops ∧
      g.Throughout Operation.DrawsUnused ops ∧ ∀ front, front <+: ops → (g.afterAll front).Reopens := by
  intro s drawn ops
  let g := ofParts [(UiNode.bare "s" "start" none (some "s.out")).asNode .start] []
  have hs : s.toGraph = .ok g := by decide +kernel
  have hops : g.Throughout Operation.IsEdit ops :=
    ⟨⟨by decide, by decide, by decide⟩, trivial, trivial, trivial, trivial, trivial⟩
  have hdraws : g.Throughout Operation.DrawsUnused ops := by
    refine ⟨trivial, ?_, trivial, ?_, trivial, trivial⟩
    · unfold drawn Operation.DrawsUnused
      decide +kernel
    · unfold drawn Operation.DrawsUnused
      decide +kernel
  exact ⟨g, hs, hops, hdraws, (reopens_throughout_iff hs hops).1.mpr hdraws⟩

/-- Two connections between different nodes get the same id, for only the texts put together
are the same. The draft cannot be reopened, and disconnecting the second one by the id that it
got removes the first. -/
theorem exists_draft_not_reopened :
    let s : UiSnapshot := ⟨[.bare "s" "start" none (some "1o"), .bare "s1" "start" none (some "o"),
      .bare "f" "function" (some "1i") (some "a"), .bare "f1" "function" (some "i") (some "b")], []⟩
    let first : Operation := .connect ⟨"1o"⟩ ⟨"1i"⟩
    let second : Operation := .connect ⟨"o"⟩ ⟨"i"⟩
    let id : EdgeId := ⟨"reactflow__edge-s1o-f1i"⟩
    ∃ g, s.toGraph = .ok g ∧ g.Throughout Operation.IsEdit [first, second] ∧
      ((g.after first).connect ⟨"o"⟩ ⟨"i"⟩).map (fun drawn => drawn.2.id) = .ok id ∧
      ((g.afterAll [first, second]).disconnect id).map Prod.fst ≠ .ok (g.after first) ∧
      (UiSnapshot.ofGraph (g.afterAll [first, second])).toGraph =
        .error (.structural (.duplicateEdge id)) := by
  intro s first second id
  let g := ofParts [(UiNode.bare "s" "start" none (some "1o")).asNode .start,
    (UiNode.bare "s1" "start" none (some "o")).asNode .start,
    (UiNode.bare "f" "function" (some "1i") (some "a")).asNode .function,
    (UiNode.bare "f1" "function" (some "i") (some "b")).asNode .function] []
  exact ⟨g, by decide +kernel, ⟨trivial, trivial, trivial⟩, by decide +kernel, by decide +kernel,
    by decide +kernel⟩

end Graph

end Workflow
