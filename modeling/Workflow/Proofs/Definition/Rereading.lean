import Workflow.Definition.Basic
import Workflow.Proofs.Snapshot.Rereading

/-!
# Definitions are read as they were written

A task leaves out the script that it does not have, and writes everything else in order. With
the drafts of the editor these are all wire formats, and each is read back from either form of
JSON that can be written for it.
-/

namespace Workflow

open Json (Raw Record Reread Rereads present)

/-- A type of task is written as its name. -/
theorem TaskType.reread (n : Nat) (t : TaskType) : Reread n read? toJson t := by
  refine ⟨.string t.name, ?_⟩
  cases t <;> rfl

/-- A status is written as its word. -/
theorem WorkflowStatus.reread (n : Nat) (s : WorkflowStatus) : Reread n read? toJson s := by
  refine ⟨.string s.name, ?_⟩
  cases s <;> rfl

theorem Json.rereads_texts {n : Nat} : Rereads (n + 1) (Raw.listOf? Raw.text?) Json.ofTexts :=
  Rereads.list fun _ s _ _ => Json.reread_text n s

namespace CompiledTask

/-- The keys that have a meaning. -/
def names : List String :=
  ["id", "name", "type", "params", "next", "previous", "exec", "execTs"]

/-- The fields as they are written. -/
def fields (t : CompiledTask) : List (String × Option Json) :=
  [("id", some (.string t.id.text)), ("name", some (.string t.name)), ("type", some t.type.toJson),
    ("params", some (.object t.params)), ("next", some (Json.ofTexts t.next)),
    ("previous", some (Json.ofTexts t.previous)), ("exec", t.exec.map .string),
    ("execTs", t.execTs.map .string)]

theorem toJson_eq (t : CompiledTask) : t.toJson = .object (present t.fields ++ []) := by
  simp [toJson, fields, present, Json.entryIfSome]

theorem rereads {n : Nat} (hn : 2 ≤ n) : Rereads n read? toJson := by
  intro part t hp h
  simp only [read?, Option.bind_eq_bind, Option.bind_eq_some_iff, Option.pure_def,
    Option.some.injEq] at h
  obtain ⟨r, hr, id, -, name, -, type, -, params, hparams, next, hnext, previous, hprevious, exec,
    -, execTs, -, rfl⟩ := h
  obtain ⟨n, rfl, hfits⟩ := Record.exists_fits_of_read? hp hr
  obtain ⟨n, rfl⟩ := Nat.exists_eq_add_one.mpr (show 0 < n by omega)
  have hparams := Json.rereads_object.withDefault hfits (Json.reread_emptyObject (by omega)) hparams
  have hnext := Json.rereads_texts.withDefault hfits (Json.reread_emptyList (by omega) _ _) hnext
  have hprevious :=
    Json.rereads_texts.withDefault hfits (Json.reread_emptyList (by omega) _ _) hprevious
  refine Json.reread_record names (toJson_eq _) rfl (by decide) ?_ (Json.Extra.nil _ _) ?_
  · simp [fields, hparams.fits, hnext.fits, hprevious.fits, (TaskType.reread (n + 1) type).fits]
  · intro es r hr hparts _
    simp only [fields, List.forall_mem_cons] at hparts
    obtain ⟨hid, hname, htype, hparams', hnext', hprevious', hexec, hexecTs, -⟩ := hparts
    rw [names] at hr
    simp only [read?, Record.read?_ofJson_object, hr, Option.bind_eq_bind, Option.bind_some,
      Option.pure_def, Record.required_of_part? hid, Record.required_of_part? hname,
      Record.required_of_part? htype, Record.withDefault_of_part? hparams',
      Record.withDefault_of_part? hnext', Record.withDefault_of_part? hprevious',
      Record.optional_text_of_part? hexec, Record.optional_text_of_part? hexecTs,
      (Json.reread_text n _).read, (TaskType.reread n type).read, hparams.read, hnext.read,
      hprevious.read]

end CompiledTask

namespace Definition

/-- The keys that have a meaning. -/
def names : List String := ["name", "description", "status", "global", "tasks"]

/-- The fields as they are written. -/
def fields (d : Definition) : List (String × Option Json) :=
  [("name", some (.string d.name)), ("description", some (.string d.description)),
    ("status", some d.status.toJson), ("global", some (.object d.globals)),
    ("tasks", some (.array (d.tasks.map CompiledTask.toJson)))]

theorem toJson_eq (d : Definition) : d.toJson = .object (present d.fields ++ []) := rfl

/-- A definition that was read can be read again from what is written for it. -/
theorem rereads {n : Nat} (hn : 4 ≤ n) : Rereads n read? toJson := by
  intro part d hp h
  simp only [read?, Option.bind_eq_bind, Option.bind_eq_some_iff, Option.pure_def,
    Option.some.injEq] at h
  obtain ⟨r, hr, name, -, description, -, status, -, globals, hglobals, tasks, htasks, rfl⟩ := h
  obtain ⟨n, rfl, hfits⟩ := Record.exists_fits_of_read? hp hr
  obtain ⟨n, rfl⟩ := Nat.exists_eq_add_one.mpr (show 0 < n by omega)
  have hglobals :=
    Json.rereads_object.withDefault hfits (Json.reread_emptyObject (by omega)) hglobals
  have htasks := (CompiledTask.rereads (n := n) (by omega)).list.required hfits htasks
  refine Json.reread_record names (toJson_eq _) rfl (by decide) ?_ (Json.Extra.nil _ _) ?_
  · simp [fields, hglobals.fits, htasks.fits, (WorkflowStatus.reread (n + 1) status).fits]
  · intro es r hr hparts _
    simp only [fields, List.forall_mem_cons] at hparts
    obtain ⟨hname, hdescription, hstatus, hglobals', htasks', -⟩ := hparts
    rw [names] at hr
    simp only [read?, Record.read?_ofJson_object, hr, Option.bind_eq_bind, Option.bind_some,
      Option.pure_def, Record.required_of_part? hname, Record.required_of_part? hdescription,
      Record.required_of_part? hstatus, Record.withDefault_of_part? hglobals',
      Record.required_of_part? htasks', (Json.reread_text n _).read,
      (WorkflowStatus.reread n status).read, hglobals.read, htasks.read]

end Definition

/-- Wire formats read back what they write: a draft or a definition that was read from a text is
read again, with everything in it, from both forms of JSON that can be written for it, if its
doubles are read back. -/
theorem read_of_mem_writings (text : String) :
    (∀ s : UiSnapshot, (Raw.read? text).bind UiSnapshot.read? = some s →
      (∀ d ∈ s.toJson.doubles, d.ReadsBack) →
      ∀ written ∈ s.toJson.writings, (Raw.read? written).bind UiSnapshot.read? = some s) ∧
    ∀ d : Definition, (Raw.read? text).bind Definition.read? = some d →
      (∀ x ∈ d.toJson.doubles, x.ReadsBack) →
      ∀ written ∈ d.toJson.writings, (Raw.read? written).bind Definition.read? = some d := by
  constructor
  · intro s h hdoubles
    obtain ⟨part, hpart, hread⟩ := Option.bind_eq_some_iff.mp h
    have hreread := UiSnapshot.rereads (by decide) part s (Json.fits_of_read? hpart) hread
    exact hreread.bind_read?_eq hdoubles
  · intro d h hdoubles
    obtain ⟨part, hpart, hread⟩ := Option.bind_eq_some_iff.mp h
    have hreread := Definition.rereads (by decide) part d (Json.fits_of_read? hpart) hread
    exact hreread.bind_read?_eq hdoubles

/-- A draft as somebody may have written it, with keys of their own on every level. -/
def Json.annotatedDraft : Json :=
  .object [("version", .number (.integer 1)), ("nodes", .array [.object [("id", .string "n"),
    ("selected", .bool true), ("type", .string "start"),
    ("position", .object [("x", .number (.double .threeHalves)),
      ("y", .number (.double .threeHalves))]),
    ("data", .object [("color", .string "red"), ("label", .string "A")])]])]

/-- The same draft as it is read. -/
def UiSnapshot.annotated : UiSnapshot where
  nodes := [{
    id := "n", type := "start", position := ⟨.threeHalves, .threeHalves⟩
    data := ⟨"A", none, none, [], none, none, [("color", .string "red")]⟩
    extra := [("selected", .bool true)] }]
  edges := []

/-- A definition as somebody may have written it, without the keys that may be left out. -/
def Json.briefDefinition : Json :=
  .object [("tasks", .array [.object [("type", .string "START"), ("name", .string "A"),
      ("id", .string "n"), ("exec", .null)]]),
    ("name", .string "w"), ("description", .string "d"), ("status", .string "active"),
    ("global", .object [("k", .number (.double .threeHalves))])]

/-- The same definition as it is read. -/
def Definition.brief : Definition where
  name := "w"
  description := "d"
  status := .active
  globals := [("k", .number (.double .threeHalves))]
  tasks := [⟨⟨"n"⟩, "A", .start, [], [], [], none, none⟩]

/-- Keys that stood elsewhere or not at all are in their place when the text is written, and the
draft and the definition are the same as before. -/
theorem read_of_mem_writings_annotated :
    (Raw.read? UiSnapshot.annotated.toJson.compact).bind UiSnapshot.read? =
        some .annotated ∧
      (Raw.read? Definition.brief.toJson.pretty).bind Definition.read? = some .brief := by
  have hread : ∀ v : Json, v.Fits Json.nestingLimit → (∀ d ∈ v.doubles, d = .threeHalves) →
      Raw.read? v.compact = some (.ofJson v) := by
    intro v hfits hdoubles
    refine Json.read?_of_mem_writings hfits (fun d hd => ?_) _ List.mem_cons_self
    exact hdoubles d hd ▸ Double.readsBack_threeHalves
  constructor
  · have hdraft := hread .annotatedDraft (by
      simp [Json.annotatedDraft, Json.nestingLimit, Json.Number.InRange, Json.Entries.keys])
      (by decide)
    have hdoubles : ∀ d ∈ UiSnapshot.annotated.toJson.doubles, d = .threeHalves := by decide
    refine (read_of_mem_writings (Json.compact .annotatedDraft)).1 .annotated ?_ ?_ _
      List.mem_cons_self
    · rw [hdraft]
      rfl
    · exact fun d hd => hdoubles d hd ▸ Double.readsBack_threeHalves
  · have hdefinition := hread .briefDefinition (by
      simp [Json.briefDefinition, Json.nestingLimit, Json.Number.InRange, Json.Entries.keys])
      (by decide)
    have hdoubles : ∀ d ∈ Definition.brief.toJson.doubles, d = .threeHalves := by decide
    refine (read_of_mem_writings (Json.compact .briefDefinition)).2 .brief ?_ ?_ _
      (List.mem_cons_of_mem _ List.mem_cons_self)
    · rw [hdefinition]
      rfl
    · exact fun d hd => hdoubles d hd ▸ Double.readsBack_threeHalves

end Workflow
