import Workflow.Proofs.Inference.Builtins
import Workflow.Script.Contract

/-!
# Contracts only declare types

The declarations that the author of a script sees are the interfaces for the global map, those for
the params and the built-ins, with an empty line between two of them. Each is read as a whole, so
erasing the types of a contract leaves nothing but its line feeds.
-/

namespace Workflow.Script

/-! ## What is declared -/

/-- What an interface declares. -/
def Interface.declared (i : Interface) : TypeDeclaration :=
  .interface i.name (i.fields.map fun f => renderKey f.key)

/-- What is declared for a value. -/
def Declarations.declared (d : Declarations) : List TypeDeclaration :=
  (d.aliased.map fun _ => .typeAlias d.root).toList ++ d.interfaces.map Interface.declared

/-- What the built-ins declare. -/
def builtinsDeclared : List TypeDeclaration := [
  .typeAlias "HttpMethod",
  .interface "HttpRequest" ["url", "payload", "headers", "method", "queryParams"],
  .typeAlias "HttpResult",
  .ambient "getWorkflowGlobal", .ambient "getWorkflowParams", .ambient "getWorkflowResults",
  .ambient "logger", .ambient "httpClient", .ambient "getHttpClient"]

/-- What the contract for a global map and the params of a task declares. -/
def Contract.declared (globals params : Json.Entries) : List TypeDeclaration :=
  (Declarations.infer globalMapName (.object globals)).declared ++
    (Declarations.infer paramMapName (.object params)).declared ++ builtinsDeclared

/-- The interface for an object comes first. -/
theorem Declarations.exists_written_infer (root : String) (entries : Json.Entries) :
    ∃ fields ws, (Declarations.infer root (.object entries)).written =
      writtenInterface root fields :: ws := by
  rw [infer]
  exact ⟨_, _, rfl⟩

theorem Declarations.map_declared_written (d : Declarations) :
    d.written.map WrittenDeclaration.declared = d.declared := by
  have hinterfaces : (d.interfaces.map Interface.written).map WrittenDeclaration.declared =
      d.interfaces.map Interface.declared := by
    rw [List.map_map]
    refine List.map_congr_left fun i _ => ?_
    simp only [Function.comp_apply, Interface.written, writtenInterface, Interface.declared,
      List.map_map]
    rfl
  rw [written, List.map_append, hinterfaces, declared]
  cases d.aliased <;> rfl

/-! ## The whole text -/

/-- Declarations with an empty line in front of each. -/
def spaced (ws : List WrittenDeclaration) : List (String × WrittenDeclaration) :=
  ws.map fun w => ("\n\n", w)

variable {ws vs : List WrittenDeclaration} {w v : WrittenDeclaration}

theorem map_declared_spaced :
    (spaced ws).map (fun w => w.2.declared) = ws.map WrittenDeclaration.declared :=
  List.map_map

theorem reads_spaced (h : ∀ w ∈ ws, w.Reads) : ∀ w ∈ spaced ws, Trivia w.1.toList ∧ w.2.Reads := by
  have hempty : Trivia "\n\n".toList := .blank (by decide) (.blank (by decide) .none)
  exact List.forall_mem_map.mpr fun w hw => ⟨hempty, h w hw⟩

theorem writtenDeclarations_cons (lead : String) (w : WrittenDeclaration)
    (ws : List (String × WrittenDeclaration)) :
    writtenDeclarations ((lead, w) :: ws) = lead ++ w.text ++ writtenDeclarations ws := by
  rw [writtenDeclarations, List.map_cons, String.join_cons]
  rfl

theorem writtenDeclarations_append (ws vs : List (String × WrittenDeclaration)) :
    writtenDeclarations (ws ++ vs) = writtenDeclarations ws ++ writtenDeclarations vs := by
  rw [writtenDeclarations, List.map_append, String.join_append]
  rfl

/-- The line feeds between two declarations stand in front of the second. -/
theorem following_written (ws : List WrittenDeclaration) :
    "\n" ++ following "\n" (ws.map fun w => w.text ++ "\n") =
      writtenDeclarations (spaced ws) ++ "\n" := by
  induction ws with
  | nil => rfl
  | cons w ws ih =>
    have hempty : "\n\n" = "\n" ++ "\n" := rfl
    calc
      "\n" ++ following "\n" ((w :: ws).map fun w => w.text ++ "\n") =
          "\n\n" ++ w.text ++ ("\n" ++ following "\n" (ws.map fun w => w.text ++ "\n")) := by
        rw [List.map_cons, following, hempty]
        simp only [String.append_assoc]
      _ = writtenDeclarations (spaced (w :: ws)) ++ "\n" := by
        rw [ih, ← String.append_assoc, spaced, spaced, List.map_cons, writtenDeclarations_cons]

theorem Declarations.render_of_written {d : Declarations} (h : d.written = w :: ws) :
    d.render = writtenDeclarations (("", w) :: spaced ws) ++ "\n" := by
  rw [render_eq, h, List.map_cons, intercalate_cons, String.append_assoc, following_written,
    writtenDeclarations_cons, String.empty_append, String.append_assoc]

/-- The declarations of a contract, one behind the other. -/
theorem Contract.declarations_of_written {globals params : Json.Entries}
    (hglobal : (Declarations.infer globalMapName (.object globals)).written = w :: ws)
    (hparam : (Declarations.infer paramMapName (.object params)).written = v :: vs) :
    (Contract.generate globals params).declarations =
      writtenDeclarations (("", w) :: (spaced (ws ++ v :: vs) ++ writtenBuiltins)) ++ "\n" := by
  have hspaced : spaced (ws ++ v :: vs) = spaced ws ++ ("\n\n", v) :: spaced vs := List.map_append
  have hempty : "\n\n" = "\n" ++ "\n" := rfl
  have htext : (Contract.generate globals params).declarations =
      (Declarations.infer globalMapName (.object globals)).render ++ "\n" ++
        (Declarations.infer paramMapName (.object params)).render ++ "\n" ++
          builtinDeclarations := rfl
  calc
    (Contract.generate globals params).declarations =
        w.text ++ writtenDeclarations (spaced ws) ++ ("\n\n" ++ v.text) ++
          writtenDeclarations (spaced vs) ++ ("\n\n" ++ builtinDeclarations) := by
      rw [htext, Declarations.render_of_written hglobal, Declarations.render_of_written hparam,
        writtenDeclarations_cons, writtenDeclarations_cons, hempty]
      simp only [String.append_assoc, String.empty_append]
    _ = writtenDeclarations (("", w) :: (spaced (ws ++ v :: vs) ++ writtenBuiltins)) ++ "\n" := by
      rw [builtinDeclarations_eq, writtenDeclarations_cons, writtenDeclarations_append, hspaced,
        writtenDeclarations_append, writtenDeclarations_cons]
      simp only [String.append_assoc, String.empty_append]

/-- What stands in front of the last line feed is read as the declarations. -/
theorem Contract.exists_text (globals params : Json.Entries) : ∃ text,
    (Contract.generate globals params).declarations = text ++ "\n" ∧
      LexesLines text (fun _ => True) (DeclarationsTokens (Contract.declared globals params)) ∧
      ¬ ['#', '!'] <+: (text ++ "\n").toList := by
  obtain ⟨fields, ws, hglobal⟩ := Declarations.exists_written_infer globalMapName globals
  obtain ⟨fields', vs, hparam⟩ := Declarations.exists_written_infer paramMapName params
  have hglobalName : IsTypeName globalMapName :=
    ⟨'G', _, rfl, .inl (by decide), List.all_eq_true.mp (by decide)⟩
  have hparamName : IsTypeName paramMapName :=
    ⟨'P', _, rfl, .inl (by decide), List.all_eq_true.mp (by decide)⟩
  have hglobals := Declarations.reads_infer hglobalName (.object globals)
  have hparams := Declarations.reads_infer hparamName (.object params)
  rw [hglobal] at hglobals
  rw [hparam] at hparams
  obtain ⟨hfirst, hrest⟩ := List.forall_mem_cons.mp hglobals
  have hdeclared : Contract.declared globals params =
      (("", writtenInterface globalMapName fields) ::
        (spaced (ws ++ writtenInterface paramMapName fields' :: vs) ++ writtenBuiltins)).map
          fun w => w.2.declared := by
    have hbuiltins : writtenBuiltins.map (fun w => w.2.declared) = builtinsDeclared := rfl
    rw [Contract.declared, ← Declarations.map_declared_written, ← Declarations.map_declared_written,
      hglobal, hparam, List.map_cons (l := spaced _ ++ _), List.map_append, map_declared_spaced,
      hbuiltins, List.map_append]
    rfl
  have hreads : ∀ w ∈ ("", writtenInterface globalMapName fields) ::
      (spaced (ws ++ writtenInterface paramMapName fields' :: vs) ++ writtenBuiltins),
      Trivia w.1.toList ∧ w.2.Reads := by
    refine List.forall_mem_cons.mpr ⟨⟨.none, hfirst⟩, List.forall_mem_append.mpr ⟨?_, ?_⟩⟩
    · exact reads_spaced (List.forall_mem_append.mpr ⟨hrest, hparams⟩)
    · exact reads_writtenBuiltins
  refine ⟨_, Contract.declarations_of_written hglobal hparam, ?_, ?_⟩
  · rw [hdeclared]
    exact lexesLines_declarations hreads
  · rw [writtenDeclarations_cons, writtenInterface]
    simp

/-- For every global map and all params, the declarations that the author of a script sees are
read as the interfaces for both and the built-ins. Each key is one token in front of its colon, and
every bracket is closed where it was opened. Erasing the types leaves the line feeds. -/
theorem Contract.erases_declarations (globals params : Json.Entries) :
    let text := (Contract.generate globals params).declarations
    (∃ table ts last, tokenize text = .ok table ∧ table.tokens.toList = ts ++ [last] ∧
        last.kind = .finish ∧ Balanced ts ∧
        DeclarationsTokens (Contract.declared globals params) ts) ∧
      eraseTypes text = .ok (String.ofList (List.replicate (text.toList.count '\n') '\n')) := by
  obtain ⟨text, htext, hlexes, hmark⟩ := Contract.exists_text globals params
  rw [htext]
  obtain ⟨⟨table, ts, last, htable, htokens, hlast, hts⟩, herased⟩ :=
    eraseTypes_declarations hlexes hmark trivial
  exact ⟨⟨table, ts, last, htable, htokens, hlast, hts.balanced, hts⟩, herased⟩

end Workflow.Script
