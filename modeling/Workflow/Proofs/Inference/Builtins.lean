import Workflow.Proofs.Inference.Rendering
import Workflow.Script.Builtin

/-!
# The text of the built-ins

The fixed text that declares the built-ins is that of two aliases, an interface and six ambient
functions, each of which is read as a whole.
-/

namespace Workflow.Script

variable {name key text front back params result : String}

/-! ## Types of built-ins -/

/-- A plain name is written as a type. -/
theorem isType_plainName (name : String) (h : isPlainName name = true) : IsType name :=
  .of_plainName (exists_plainName h)

/-- Type arguments behind a type make up a type with it. -/
theorem IsType.applied {first : String} {others : List String} (h : IsType text)
    (hfirst : IsType first) (hothers : ∀ other ∈ others, IsType other) :
    IsType (text ++ "<" ++ ", ".intercalate (first :: others) ++ ">") := by
  obtain ⟨T, rfl⟩ := h
  obtain ⟨U, rfl⟩ := hfirst
  have htexts : ∃ Us, Ty.texts Us = others := by
    induction others with
    | nil => exact ⟨[], rfl⟩
    | cons other others ih =>
      obtain ⟨V, rfl⟩ := hothers other List.mem_cons_self
      obtain ⟨Us, rfl⟩ := ih fun u hu => hothers u (List.mem_cons_of_mem _ hu)
      exact ⟨V :: Us, rfl⟩
  obtain ⟨Us, rfl⟩ := htexts
  exact ⟨.applied T U Us, rfl⟩

/-- A method in quotes is the type of its spelling. -/
theorem isType_quoteMethod (h : ∀ c ∈ name.toList, c ≠ '\'' ∧ c ≠ '\\' ∧ c ≠ '\n') :
    IsType (quoteMethod name) := by
  refine ⟨.string ⟨'\'', name.toList.map .plain, .inr rfl, List.forall_mem_map.mpr h⟩, ?_⟩
  have hplain : (name.toList.map StringPiece.plain).flatMap StringPiece.characters =
      name.toList := by
    rw [List.flatMap_map]
    exact List.flatMap_singleton' _
  rw [Ty.text, StringLiteral.text, hplain, quoteMethod, ← String.toList_inj]
  simp

/-- The methods of a request are a type. -/
theorem isType_methodUnion : IsType methodUnion := by
  have hletters : ∀ m ∈ RequestMethod.all,
      (m.name.toList ++ m.upperName.toList).all Char.isAlpha = true := by
    decide +kernel
  have hplain : ∀ c : Char, c.isAlpha = true → c ≠ '\'' ∧ c ≠ '\\' ∧ c ≠ '\n' := by
    intro c hc
    refine ⟨?_, ?_, ?_⟩ <;> rintro rfl <;> cases hc
  refine .union (fun text hmem => ?_) (by simp [RequestMethod.all])
  obtain ⟨m, hm, htext⟩ := List.mem_flatMap.mp hmem
  have hall := List.all_eq_true.mp (hletters m hm)
  simp only [List.mem_cons, List.not_mem_nil, or_false] at htext
  rcases htext with rfl | rfl
  · exact isType_quoteMethod fun c hc => hplain c (hall c (List.mem_append_left _ hc))
  · exact isType_quoteMethod fun c hc => hplain c (hall c (List.mem_append_right _ hc))

/-- A record of values of a type is a type. -/
theorem isType_record {type : String} (h : IsType type) :
    IsType ("Record<string, " ++ type ++ ">") := by
  have hrecord := (isType_plainName "Record" (by decide +kernel)).applied
    (isType_plainName "string" (by decide +kernel))
    (List.forall_mem_singleton.mpr h)
  rwa [String.intercalate_cons_cons, String.intercalate_singleton, ← String.append_assoc,
    ← String.append_assoc] at hrecord

/-- A name with its type, as it stands among fields or parameters. -/
theorem phrase_typedName (name : String) {type : String} (hname : isPlainName name = true)
    (htype : IsType type) : Phrase (name ++ ": " ++ type) Delimits Balanced := by
  obtain ⟨x, rfl⟩ := exists_plainName hname
  obtain ⟨T, rfl⟩ := htype
  refine phrase_balanced_fieldTexts (fun p hp => ?_) _ (show _ ∈ Ty.fieldTexts [(x, T)] from
    List.mem_cons_self)
  rw [List.mem_singleton.mp hp]
  exact T.phrase_readAs

/-- Two fields in braces with spaces on their inside. -/
theorem phrase_spacedFields (hfront : Phrase front Delimits Balanced)
    (hback : Phrase back Delimits Balanced) :
    Phrase ("\x7b" ++ (" " ++ front ++ (";" ++ (" " ++ back ++ " "))) ++ "\x7d") (fun _ => True)
      (TypeTokens false) := by
  have hclose : Lexes (" " ++ back ++ (" " ++ "\x7d")) (fun _ => True)
      (IsClosed Balanced "\x7d") := by
    refine hback.spaced.join (phrase_bracket "\x7d" (by decide)).spaced
      (by simp [Delimits, delimiters]) ?_
    rintro us _ hus ⟨last, rfl, hlast, -⟩
    exact ⟨us, last, rfl, hus, hlast⟩
  have hsecond : Lexes (";" ++ (" " ++ back ++ (" " ++ "\x7d"))) (fun _ => True)
      (IsClosed Balanced "\x7d") := by
    refine (phrase_bracket ";" (by decide)).plain.join hclose (by simp) ?_
    rintro _ _ ⟨semicolon, rfl, hsemicolon, -⟩ ⟨inner, last, rfl, hinner, hlast⟩
    exact ⟨semicolon :: inner, last, rfl, .of_mark hsemicolon (by decide) hinner, hlast⟩
  have hinside : Lexes (" " ++ front ++ (";" ++ (" " ++ back ++ " ")) ++ "\x7d") (fun _ => True)
      (IsClosed Balanced "\x7d") := by
    simp only [String.append_assoc] at hsecond ⊢
    rw [← String.append_assoc]
    refine hfront.spaced.join hsecond (by simp [Delimits, delimiters]) ?_
    rintro us _ hus ⟨inner, last, rfl, hinner, hlast⟩
    exact ⟨us ++ inner, last, by simp, hus.append hinner, hlast⟩
  refine (phrase_between "\x7b" "\x7d" (by decide) hinside).mono (fun _ => id) ?_
  rintro _ ⟨first, inner, last, rfl, hfirst, -, hinner, hlast⟩
  exact .bracketed .curly hfirst hlast hinner

/-- A type may be the result of a declared function. -/
theorem phrase_result {type : String} (h : IsType type) : Phrase type Delimits ResultTokens := by
  obtain ⟨T, rfl⟩ := h
  exact T.phrase.mono (fun _ => id) fun _ hts => .type hts

/-- Nothing may be the result of a declared function. -/
theorem phrase_void : Phrase "void" Delimits ResultTokens := by
  have hword (lead : String) (hlead : lead = "" ∨ lead = " ") :
      Lexes (lead ++ "void") (fun c => isNamePart c = false) (IsToken .word "void") :=
    lexes_word hlead rfl (by decide) (List.all_eq_true.mp (by decide))
  refine Phrase.mono hword (fun _ hc => delimits_name (.inl hc)) ?_
  rintro _ ⟨t, rfl, hkind, htext, -⟩
  exact .void ⟨hkind, htext⟩

/-! ## Built-ins -/

/-- The built-ins, each with the line feeds in front of it. -/
def writtenBuiltins : List (String × WrittenDeclaration) := [
  ("\n\n", writtenAlias "HttpMethod" methodUnion),
  ("\n\n", writtenInterface "HttpRequest" [
    ⟨"url", false, "string"⟩, ⟨"payload", true, "any"⟩,
    ⟨"headers", false, "Record<string, string>"⟩, ⟨"method", false, "HttpMethod"⟩,
    ⟨"queryParams", true, "Record<string, any>"⟩]),
  ("\n\n", writtenAlias "HttpResult"
    "\x7b success: true; data: any \x7d | \x7b success: false; error: any \x7d"),
  ("\n\n", writtenAmbient "getWorkflowGlobal" "" globalMapName),
  ("\n", writtenAmbient "getWorkflowParams" "" paramMapName),
  ("\n", writtenAmbient "getWorkflowResults" "" "Record<string, any>"),
  ("\n", writtenAmbient "logger" "...args: any[]" "void"),
  ("\n", writtenAmbient "httpClient" "params: HttpRequest" "Promise<HttpResult>"),
  ("\n", writtenAmbient "getHttpClient" "" "typeof httpClient")]

/-- The declarations that are built in are the written ones. -/
theorem builtinDeclarations_eq :
    "\n\n" ++ builtinDeclarations = writtenDeclarations writtenBuiltins ++ "\n" := by
  decide +kernel

/-- A declared function is read if its parameters and its result are. -/
theorem reads_ambient (hname : isPlainName name = true)
    (hparams : Lexes (params ++ ")") (fun _ => True) (IsClosed Balanced ")"))
    (hresult : Phrase result Delimits ResultTokens) :
    (writtenAmbient name params result).Reads := by
  obtain ⟨x, rfl⟩ := exists_plainName hname
  exact reads_writtenAmbient x hparams hresult

theorem lexes_noParams : Lexes ("" ++ ")") (fun _ => True) (IsClosed Balanced ")") :=
  lexes_balanced "," ")" (by decide) (by decide) (List.forall_mem_nil _)

/-- The points in front of a further parameter are a mark. -/
theorem phrase_points : Phrase "..." (fun _ => True) (IsMarkToken "...") := by
  have hnone : continuations "...".toList = [] := by decide
  refine (phrase_punctuator "..." (by decide) (by decide) (by decide)).mono (fun c _ => ⟨?_, ?_⟩)
    fun _ => id
  · rw [hnone]
    exact List.not_mem_nil
  · exact fun hpoint => absurd hpoint (by decide)

/-- A parameter that takes all further arguments. -/
theorem lexes_restParam (h : Phrase text Delimits Balanced) :
    Lexes ("..." ++ text ++ ")") (fun _ => True) (IsClosed Balanced ")") := by
  rw [String.append_assoc]
  refine phrase_points.plain.join (lexes_closed ")" (by decide) h) (by simp) ?_
  rintro _ _ ⟨points, rfl, hpoints, -⟩ ⟨inner, last, rfl, hinner, hlast⟩
  exact ⟨points :: inner, last, rfl, .of_mark hpoints (by decide) hinner, hlast⟩

/-- The request of a call is an interface that is read. -/
theorem reads_httpRequest : (writtenInterface "HttpRequest" [
    ⟨"url", false, "string"⟩, ⟨"payload", true, "any"⟩,
    ⟨"headers", false, "Record<string, string>"⟩, ⟨"method", false, "HttpMethod"⟩,
    ⟨"queryParams", true, "Record<string, any>"⟩]).Reads := by
  obtain ⟨x, hx⟩ := exists_plainName (show isPlainName "HttpRequest" = true by decide +kernel)
  have hstring := isType_plainName "string" (by decide +kernel)
  have hany := isType_plainName "any" (by decide +kernel)
  have hmethod := isType_plainName "HttpMethod" (by decide +kernel)
  have hkey : ∀ key ∈ ["url", "payload", "headers", "method", "queryParams"], ReadsKey key := by
    intro key hmem
    have h := readsKey_renderKey key
    simp only [List.mem_cons, List.not_mem_nil, or_false] at hmem
    rcases hmem with rfl | rfl | rfl | rfl | rfl <;> exact h
  rw [← hx]
  refine reads_writtenInterface x ?_
  simp only [List.forall_mem_cons]
  exact ⟨reads_writtenField (hkey _ (by decide)) hstring,
    reads_writtenField (hkey _ (by decide)) hany,
    reads_writtenField (hkey _ (by decide)) (isType_record hstring),
    reads_writtenField (hkey _ (by decide)) hmethod,
    reads_writtenField (hkey _ (by decide)) (isType_record hany), List.forall_mem_nil _⟩

/-- The result of a call is an alias that is read. -/
theorem reads_httpResult : (writtenAlias "HttpResult"
    "\x7b success: true; data: any \x7d | \x7b success: false; error: any \x7d").Reads := by
  obtain ⟨x, hx⟩ := exists_plainName (show isPlainName "HttpResult" = true by decide +kernel)
  have hentry (key value : String) (hkey : isPlainName key = true)
      (hvalue : isPlainName value = true) : Phrase (key ++ ": " ++ value) Delimits Balanced :=
    phrase_typedName key hkey (isType_plainName value hvalue)
  have hsuccess := phrase_spacedFields
    (hentry "success" "true" (by decide +kernel) (by decide +kernel))
    (hentry "data" "any" (by decide +kernel) (by decide +kernel))
  have hfailure := phrase_spacedFields
    (hentry "success" "false" (by decide +kernel) (by decide +kernel))
    (hentry "error" "any" (by decide +kernel) (by decide +kernel))
  have hunion : Phrase
      "\x7b success: true; data: any \x7d | \x7b success: false; error: any \x7d" Delimits
      (TypeTokens false) := by
    refine Phrase.mono (hsuccess.join (lexes_operator "|" (by decide) hfailure) (by simp) ?_)
      (fun _ _ => trivial) fun _ => id
    rintro us _ hus ⟨t, vs, rfl, ht, hvs⟩
    exact .joined hus (.inl ht) hvs
  rw [← hx]
  exact reads_writtenAlias x hunion

/-- The built-ins are read as such. -/
theorem reads_writtenBuiltins : ∀ w ∈ writtenBuiltins, Trivia w.1.toList ∧ w.2.Reads := by
  have hempty : Trivia "\n\n".toList := .blank (by decide) (.blank (by decide) .none)
  have hfeed : Trivia "\n".toList := .blank (by decide) .none
  have hany := isType_plainName "any" (by decide +kernel)
  have hglobal := isType_plainName globalMapName (by decide +kernel)
  have hparam := isType_plainName paramMapName (by decide +kernel)
  have hresults : IsType "Record<string, any>" := isType_record hany
  have harguments : IsType "any[]" := Shape.isType_array (Shape.isType_primitive .any)
  have hrequest := isType_plainName "HttpRequest" (by decide +kernel)
  have hpromise : IsType "Promise<HttpResult>" :=
    (isType_plainName "Promise" (by decide +kernel)).applied
      (isType_plainName "HttpResult" (by decide +kernel))
      (List.forall_mem_nil _)
  have hclient : IsType "typeof httpClient" := by
    obtain ⟨T, hT⟩ := isType_plainName "httpClient" (by decide +kernel)
    exact ⟨.prefixed .typeof T, by rw [Ty.text, hT]; rfl⟩
  have hrest := lexes_restParam (phrase_typedName "args" (by decide +kernel) harguments)
  have hparams := lexes_closed ")" (by decide)
    (phrase_typedName "params" (by decide +kernel) hrequest)
  simp only [writtenBuiltins, List.forall_mem_cons]
  refine ⟨⟨hempty, ?_⟩, ⟨hempty, reads_httpRequest⟩, ⟨hempty, reads_httpResult⟩, ⟨hempty, ?_⟩,
    ⟨hfeed, ?_⟩, ⟨hfeed, ?_⟩, ⟨hfeed, ?_⟩, ⟨hfeed, ?_⟩, ⟨hfeed, ?_⟩, List.forall_mem_nil _⟩
  · exact reads_alias (exists_plainName (by decide +kernel)) isType_methodUnion
  · exact reads_ambient (by decide +kernel) lexes_noParams (phrase_result hglobal)
  · exact reads_ambient (by decide +kernel) lexes_noParams (phrase_result hparam)
  · exact reads_ambient (by decide +kernel) lexes_noParams (phrase_result hresults)
  · exact reads_ambient (by decide +kernel) hrest phrase_void
  · exact reads_ambient (by decide +kernel) hparams (phrase_result hpromise)
  · exact reads_ambient (by decide +kernel) lexes_noParams (phrase_result hclient)

end Workflow.Script
