import Mathlib.Data.Set.Function
import Workflow.Proofs.Corresponding
import Workflow.Proofs.Definition.Neighbours
import Workflow.Proofs.Session.Mutation

/-!
# What a definition does not show

Ports hold a graph together, but a definition names tasks by their labels. Two graphs that
differ in nothing but the names of their ports, the ids of their edges and what the editor
keeps about nodes and edges compile to the same definition, or break the same rules. Ports
are looked up by name in both directions, so a renaming must keep different ports apart.
-/

namespace Workflow

/-- A node with its ports renamed, in any place and with any attributes of the editor. -/
def Node.Renamed (ρ : PortId → PortId) (n m : Node) : Prop :=
  ∃ position uiExtra dataExtra, m =
    { n with
      input := n.input.map ρ
      output := n.output.map ρ
      position := position
      uiExtra := uiExtra
      dataExtra := dataExtra }

/-- An edge with its ports renamed, under any id and with any attributes of the editor. -/
def Edge.Renamed (ρ : PortId → PortId) (e f : Edge) : Prop :=
  ∃ id uiExtra, f =
    { e with
      id := id
      sourcePort := ρ e.sourcePort
      targetPort := ρ e.targetPort
      uiExtra := uiExtra }

theorem Node.Renamed.portOn_eq {ρ : PortId → PortId} {n m : Node} (h : n.Renamed ρ m)
    (side : PortSide) : m.portOn side = (n.portOn side).map ρ := by
  obtain ⟨_, _, _, rfl⟩ := h
  cases side <;> rfl

theorem Edge.Renamed.portOn_eq {ρ : PortId → PortId} {e f : Edge} (h : e.Renamed ρ f)
    (side : PortSide) : f.portOn side = ρ (e.portOn side) := by
  obtain ⟨_, _, rfl⟩ := h
  cases side <;> rfl

theorem Edge.Renamed.nodeOn_eq {ρ : PortId → PortId} {e f : Edge} (h : e.Renamed ρ f)
    (side : PortSide) : f.nodeOn side = e.nodeOn side := by
  obtain ⟨_, _, rfl⟩ := h
  cases side <;> rfl

namespace Graph

/-- A graph with its ports renamed everywhere: at nodes, at edges and in the table. -/
structure Renamed (ρ : PortId → PortId) (g h : Graph) : Prop where
  /-- The nodes correspond in order. -/
  nodes : List.Forall₂ (Node.Renamed ρ) g.nodes h.nodes
  /-- The edges correspond in order. -/
  edges : List.Forall₂ (Edge.Renamed ρ) g.edges h.edges
  /-- The table lists the new names with the old bindings. -/
  ports : h.ports = g.ports.map fun entry => (ρ entry.1, entry.2)

/-- The ports that the table of a graph lists. -/
def portIds (g : Graph) : Set PortId := {p | (g.port? p).isSome}

variable {ρ : PortId → PortId} {g h : Graph}

theorem Intact.mem_portIds (hg : g.Intact) {n : Node} (hn : n ∈ g.nodes) (side : PortSide)
    {p : PortId} (hp : n.portOn side = some p) : p ∈ g.portIds :=
  Option.isSome_of_eq_some ((hg.port?_eq_some_iff p ⟨n.id, side⟩).mpr ⟨n, hn, rfl, hp⟩)

theorem Intact.portOn_mem_portIds (hg : g.Intact) {e : Edge} (he : e ∈ g.edges) (side : PortSide) :
    e.portOn side ∈ g.portIds := by
  cases side with
  | input => exact Option.isSome_of_eq_some (hg.target e he).1
  | output => exact Option.isSome_of_eq_some (hg.source e he).1

/-- A renamed graph breaks the same rules, since no rule looks at what is renamed. -/
theorem Renamed.validateBy_eq (hr : g.Renamed ρ h) (rules : List Rule) :
    h.validateBy rules = g.validateBy rules := by
  have hnodes : g.nodes.map Node.content = h.nodes.map Node.content := by
    refine map_eq_map_of_forall₂ hr.nodes ?_
    rintro n _ ⟨_, _, _, rfl⟩
    rfl
  rw [← validateBy_content h, ← validateBy_content g, content, content, hnodes]

/-- Under an id there is a node of the same label. -/
theorem Renamed.label_node? (hr : g.Renamed ρ h) (id : NodeId) :
    (g.node? id).map Node.label = (h.node? id).map Node.label := by
  refine map_find?_of_forall₂ hr.nodes ?_ ?_
  · rintro n _ ⟨_, _, _, rfl⟩
    rfl
  · rintro n _ ⟨_, _, _, rfl⟩
    rfl

theorem Renamed.labelsOf_eq (hr : g.Renamed ρ h) (ids : List NodeId) :
    h.labelsOf ids = g.labelsOf ids := by
  simp only [labelsOf, hr.label_node?]

/-- A renamed port is met at the same edges, if no other port has got its name. -/
theorem beq_renamed {p q : PortId} (hinj : ρ q = ρ p → q = p) : (q == p) = (ρ q == ρ p) := by
  rw [Bool.eq_iff_iff, beq_iff_eq, beq_iff_eq]
  exact ⟨congrArg ρ, hinj⟩

/-- The names next to a node stay the same, on each side. -/
theorem Renamed.namesOn_eq (hr : g.Renamed ρ h) (hg : g.Intact) (hρ : g.portIds.InjOn ρ)
    {n m : Node} (hn : n ∈ g.nodes) (hm : n.Renamed ρ m) (side : PortSide) :
    h.namesOn m side = g.namesOn n side := by
  cases hport : n.portOn side with
  | none => simp only [namesOn, hm.portOn_eq, hport, Option.map_none, Option.elim_none]
  | some p =>
    have hnodes : (g.edges.filter (·.portOn side == p)).map (·.nodeOn side.across) =
        (h.edges.filter (·.portOn side == ρ p)).map (·.nodeOn side.across) := by
      refine map_filter_of_forall₂ (forall₂_with_mem hr.edges) ?_ ?_
      · rintro e f ⟨he, hf⟩
        rw [hf.portOn_eq]
        exact beq_renamed fun heq =>
          hρ (hg.portOn_mem_portIds he side) (hg.mem_portIds hn side hport) heq
      · rintro e f ⟨_, hf⟩
        exact (hf.nodeOn_eq side.across).symm
    simp only [namesOn, hm.portOn_eq, hport, Option.map_some, Option.elim_some, hr.labelsOf_eq,
      hnodes]

theorem Renamed.compileNode_eq (hr : g.Renamed ρ h) (hg : g.Intact) (hρ : g.portIds.InjOn ρ)
    {n m : Node} (hn : n ∈ g.nodes) (hm : n.Renamed ρ m) : g.compileNode n = h.compileNode m := by
  have hnames (side : PortSide) : h.namesOn m side = g.namesOn n side :=
    hr.namesOn_eq hg hρ hn hm side
  obtain ⟨_, _, _, rfl⟩ := hm
  simp only [compileNode, ← namesOn_output, ← namesOn_input, hnames]

/-- What a draft compiles to, or the rules that it breaks, does not depend on how its ports and
edges are called, on where its nodes stand, and on what else the editor keeps. -/
theorem compileBy_eq_of_renamed (hg : g.Reachable) (hρ : g.portIds.InjOn ρ) (hr : g.Renamed ρ h)
    (rules : List Rule) (m : Metadata) : h.compileBy rules m = g.compileBy rules m := by
  have htasks : g.nodes.map g.compileNode = h.nodes.map h.compileNode :=
    map_eq_map_of_forall₂ (forall₂_with_mem hr.nodes) fun hn =>
      hr.compileNode_eq hg.coherent.intact hρ hn.1 hn.2
  simp only [compileBy, compileAfter, hr.validateBy_eq, htasks]

/-- A start node in front of a task that waits for it, and the same pair with the two ports of
one edge swapped, moved, and its edge under another id. -/
theorem compileBy_swapped_ports :
    let a := { Node.restore ⟨"a"⟩ .start none (some ⟨"p"⟩) with label := "A" }
    let b := { Node.restore ⟨"b"⟩ .wait (some ⟨"q"⟩) (some ⟨"r"⟩) with
      label := "B", params := [("taskNames", .array [.string "A"])] }
    let g := ((empty.after (.insertNode a)).after (.insertNode b)).after (.connect ⟨"p"⟩ ⟨"q"⟩)
    let ρ : PortId → PortId := fun p => if p = ⟨"p"⟩ then ⟨"q"⟩ else if p = ⟨"q"⟩ then ⟨"p"⟩ else p
    let moved := { b with input := some ⟨"p"⟩, position := ⟨.zero false, .zero true⟩ }
    let h : Graph := ⟨[{ a with output := some ⟨"q"⟩ }, moved],
      [⟨⟨"e"⟩, ⟨"a"⟩, ⟨"q"⟩, ⟨"b"⟩, ⟨"p"⟩, [("animated", .bool true)]⟩],
      [(⟨"q"⟩, ⟨⟨"a"⟩, .output⟩), (⟨"p"⟩, ⟨⟨"b"⟩, .input⟩), (⟨"r"⟩, ⟨⟨"b"⟩, .output⟩)]⟩
    g.Reachable ∧ g.portIds.InjOn ρ ∧ g.Renamed ρ h ∧
      h.compileBy Rule.standard (.named "N" "D") = g.compileBy Rule.standard (.named "N" "D") ∧
      ∃ d, h.compileBy Rule.standard (.named "N" "D") = .ok d ∧
        d.tasks.map (fun t => (t.name, t.next)) = [("A", ["B"]), ("B", [])] := by
  intro a b g ρ moved h
  have hg : g.Reachable := .step _ (.step _ (.step _ .empty trivial) trivial) trivial
  have hρ : Function.Injective ρ := by
    intro p q hpq
    simp only [ρ] at hpq
    grind
  have hr : g.Renamed ρ h := by
    refine ⟨.cons ?_ (.cons ?_ .nil), .cons ?_ .nil, by decide⟩
    · exact ⟨a.position, [], [], rfl⟩
    · exact ⟨moved.position, [], [], rfl⟩
    · exact ⟨⟨"e"⟩, [("animated", .bool true)], rfl⟩
  have hsame := compileBy_eq_of_renamed hg hρ.injOn hr Rule.standard (.named "N" "D")
  have hcompile : g.compileBy Rule.standard (.named "N" "D") =
      .ok ⟨"N", "D", .active, [], g.nodes.map g.compileNode⟩ := by decide
  exact ⟨hg, hρ.injOn, hr, hsame, _, hsame.trans hcompile, by decide⟩

end Graph

end Workflow
