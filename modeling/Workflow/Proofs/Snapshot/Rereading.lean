import Workflow.Proofs.Json.WrittenRecord
import Workflow.Snapshot.Basic

/-!
# Drafts are read as they were written

Every record of a draft is written with its fields in order, and with whatever stood under other
keys on its own level.
-/

namespace Workflow

open Json (Raw Record Reread Rereads present)

namespace Position

/-- The fields as they are written. -/
def fields (p : Position) : List (String × Option Json) :=
  [("x", some (.number (.double p.x))), ("y", some (.number (.double p.y)))]

theorem toJson_eq (p : Position) : p.toJson = .object (present p.fields ++ []) := rfl

theorem reread {n : Nat} (hn : 0 < n) (p : Position) : Reread n read? toJson p := by
  obtain ⟨n, rfl⟩ := Nat.exists_eq_add_one.mpr hn
  refine Json.reread_record ["x", "y"] (toJson_eq p) rfl (by decide) ?_ (Json.Extra.nil _ n) ?_
  · simp [fields, (Json.reread_double n p.x).fits, (Json.reread_double n p.y).fits]
  · intro es r hr hparts _
    simp only [fields, List.forall_mem_cons] at hparts
    obtain ⟨hx, hy, -⟩ := hparts
    simp only [read?, Record.read?_ofJson_object, hr, Option.bind_eq_bind, Option.bind_some,
      Option.pure_def, Record.required_of_part? hx, Record.required_of_part? hy,
      (Json.reread_double n p.x).read, (Json.reread_double n p.y).read]

end Position

namespace UiNodeData

/-- The fields as they are written. -/
def fields (d : UiNodeData) : List (String × Option Json) :=
  [("label", some (.string d.label)), ("inputBoundId", d.inputBoundId.map .string),
    ("outputBoundId", d.outputBoundId.map .string), ("params", some (.object d.params)),
    ("exec", d.exec.map .string), ("execTs", d.execTs.map .string)]

theorem toJson_eq (d : UiNodeData) : d.toJson = .object (present d.fields ++ d.extra) := by
  simp [toJson, fields, present, Json.entryIfSome]

theorem rereads {n : Nat} (hn : 2 ≤ n) : Rereads n read? toJson := by
  intro part d hp h
  simp only [read?, Option.bind_eq_bind, Option.bind_eq_some_iff, Option.pure_def,
    Option.some.injEq] at h
  obtain ⟨r, hr, label, -, input, -, output, -, params, hparams, exec, -, execTs, -, extra,
    hextra, rfl⟩ := h
  obtain ⟨n, rfl, hfits⟩ := Record.exists_fits_of_ofObject? hp hr
  have hparams := Json.rereads_object.withDefault hfits (Json.reread_emptyObject (by omega)) hparams
  refine Json.reread_record names (toJson_eq _) rfl (by decide) ?_ (hfits.rest hextra) ?_
  · simp [fields, hparams.fits]
  · intro es r hr hparts hrest
    simp only [fields, List.forall_mem_cons] at hparts
    obtain ⟨hlabel, hinput, houtput, hparams', hexec, hexecTs, -⟩ := hparts
    simp only [read?, hr, hrest, Option.bind_eq_bind, Option.bind_some, Option.pure_def,
      Record.withDefault_of_part? hlabel, Record.optional_text_of_part? hinput,
      Record.optional_text_of_part? houtput, Record.withDefault_of_part? hparams',
      Record.optional_text_of_part? hexec, Record.optional_text_of_part? hexecTs,
      hparams.read, (Json.reread_text 0 label).read]

end UiNodeData

namespace UiNode

/-- The fields as they are written. -/
def fields (node : UiNode) : List (String × Option Json) :=
  [("id", some (.string node.id)), ("type", some (.string node.type)),
    ("position", some node.position.toJson), ("data", some node.data.toJson)]

theorem toJson_eq (node : UiNode) : node.toJson = .object (present node.fields ++ node.extra) := by
  simp [toJson, fields, present, Json.entryIfSome]

theorem rereads {n : Nat} (hn : 3 ≤ n) : Rereads n read? toJson := by
  intro part node hp h
  simp only [read?, Option.bind_eq_bind, Option.bind_eq_some_iff, Option.pure_def,
    Option.some.injEq] at h
  obtain ⟨r, hr, id, -, type, -, position, -, data, hdata, extra, hextra, rfl⟩ := h
  obtain ⟨n, rfl, hfits⟩ := Record.exists_fits_of_ofObject? hp hr
  have hposition := Position.reread (n := n) (by omega) position
  have hdata := (UiNodeData.rereads (n := n) (by omega)).required hfits hdata
  refine Json.reread_record names (toJson_eq _) rfl (by decide) ?_ (hfits.rest hextra) ?_
  · simp [fields, hposition.fits, hdata.fits]
  · intro es r hr hparts hrest
    simp only [fields, List.forall_mem_cons] at hparts
    obtain ⟨hid, htype, hposition', hdata', -⟩ := hparts
    simp only [read?, hr, hrest, Option.bind_eq_bind, Option.bind_some, Option.pure_def,
      Record.required_of_part? hid, Record.required_of_part? htype,
      Record.withDefault_of_part? hposition', Record.required_of_part? hdata',
      (Json.reread_text n id).read, (Json.reread_text n type).read, hposition.read, hdata.read]

end UiNode

namespace UiEdge

/-- The fields as they are written. -/
def fields (e : UiEdge) : List (String × Option Json) :=
  [("id", e.id.map .string), ("source", some (.string e.source)),
    ("sourceHandle", some (.string e.sourceHandle)), ("target", some (.string e.target)),
    ("targetHandle", some (.string e.targetHandle))]

theorem toJson_eq (e : UiEdge) : e.toJson = .object (present e.fields ++ e.extra) := by
  simp [toJson, fields, present, Json.entryIfSome]

theorem rereads {n : Nat} : Rereads n read? toJson := by
  intro part e hp h
  simp only [read?, Option.bind_eq_bind, Option.bind_eq_some_iff, Option.pure_def,
    Option.some.injEq] at h
  obtain ⟨r, hr, id, -, source, -, sourceHandle, -, target, -, targetHandle, -, extra, hextra,
    rfl⟩ := h
  obtain ⟨n, rfl, hfits⟩ := Record.exists_fits_of_ofObject? hp hr
  refine Json.reread_record names (toJson_eq _) rfl (by decide) ?_ (hfits.rest hextra) ?_
  · simp [fields]
  · intro es r hr hparts hrest
    simp only [fields, List.forall_mem_cons] at hparts
    obtain ⟨hid, hsource, hsourceHandle, htarget, htargetHandle, -⟩ := hparts
    simp only [read?, hr, hrest, Option.bind_eq_bind, Option.bind_some, Option.pure_def,
      Record.optional_text_of_part? hid, Record.required_of_part? hsource,
      Record.required_of_part? hsourceHandle, Record.required_of_part? htarget,
      Record.required_of_part? htargetHandle, (Json.reread_text n _).read]

end UiEdge

namespace UiSnapshot

/-- The fields as they are written. -/
def fields (s : UiSnapshot) : List (String × Option Json) :=
  [("nodes", some (.array (s.nodes.map UiNode.toJson))),
    ("edges", some (.array (s.edges.map UiEdge.toJson)))]

theorem toJson_eq (s : UiSnapshot) : s.toJson = .object (present s.fields ++ []) := rfl

/-- A draft that was read can be read again from what is written for it. -/
theorem rereads {n : Nat} (hn : 5 ≤ n) : Rereads n read? toJson := by
  intro part s hp h
  simp only [read?, Option.bind_eq_bind, Option.bind_eq_some_iff, Option.pure_def,
    Option.some.injEq] at h
  obtain ⟨r, hr, nodes, hnodes, edges, hedges, rfl⟩ := h
  obtain ⟨n, rfl, hfits⟩ := Record.exists_fits_of_read? hp hr
  obtain ⟨n, rfl⟩ := Nat.exists_eq_add_one.mpr (show 0 < n by omega)
  have hnodes := (UiNode.rereads (n := n) (by omega)).list.withDefault hfits
    (Json.reread_emptyList (by omega) _ _) hnodes
  have hedges := (UiEdge.rereads (n := n)).list.withDefault hfits
    (Json.reread_emptyList (by omega) _ _) hedges
  refine Json.reread_record ["nodes", "edges"] (toJson_eq _) rfl (by decide) ?_
    (Json.Extra.nil _ _) ?_
  · simp [fields, hnodes.fits, hedges.fits]
  · intro es r hr hparts _
    simp only [fields, List.forall_mem_cons] at hparts
    obtain ⟨hnodes', hedges', -⟩ := hparts
    simp only [read?, Record.read?_ofJson_object, hr, Option.bind_eq_bind, Option.bind_some,
      Option.pure_def, Record.withDefault_of_part? hnodes', Record.withDefault_of_part? hedges',
      hnodes.read, hedges.read]

end UiSnapshot

end Workflow
