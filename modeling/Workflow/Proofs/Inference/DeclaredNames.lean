import Workflow.Proofs.Inference.Contract

/-!
# The names that a contract declares

A statement of declarations ends with a semicolon outside of brackets, an interface with the
bracket that closes its fields, so the names of the interfaces and aliases can be read off the
tokens. In each of the three parts of a contract no name is declared twice, but the parts do not
know each other's names.
-/

namespace Workflow.Script

/-! ## Reading names -/

/-- How far a statement of declarations has been read. -/
inductive StatementPhase where
  /-- It starts with the next token. -/
  | start
  /-- It is an interface, and ends with the bracket that closes its fields. -/
  | fields
  /-- It is another statement, and ends with a semicolon. -/
  | rest
  deriving DecidableEq

/-- How far the statement has been read behind a token, when so many brackets were open in front of
the token. -/
def StatementPhase.next (opened : Int) (t : Token) : StatementPhase → StatementPhase
  | .start => if t.is "interface" then .fields else .rest
  | .fields => if t.closes?.isSome && opened == 1 then .start else .fields
  | .rest => if t.is ";" && opened == 0 then .start else .rest

/-- The names of the interfaces and aliases that the statements declare. -/
def namesFrom (phase : StatementPhase) (opened : Int) : List Token → List String
  | [] => []
  | t :: ts =>
    let name? := if phase = .start ∧ (t.is "interface" || t.is "type") then ts.head? else none
    (name?.map Token.text).toList ++ namesFrom (phase.next opened t) (opened + t.weight) ts

/-- The names of the interfaces and aliases that a source of declarations declares. -/
def declaredNames (source : String) : Except Fault (List String) :=
  (tokenize source).map fun table => namesFrom .start 0 table.tokens.toList

/-- The name of an interface or of an alias. -/
def TypeDeclaration.typeName? : TypeDeclaration → Option String
  | .interface name _ => some name
  | .typeAlias name => some name
  | .ambient _ => none

variable {phase : StatementPhase} {opened : Int} {t first last : Token}
  {ts us inner : List Token} {shape : Bracket} {d : TypeDeclaration} {ds : List TypeDeclaration}

/-- Within a statement no name is declared. -/
theorem namesFrom_within (h : phase ≠ .start) : namesFrom phase opened (t :: ts) =
    namesFrom (phase.next opened t) (opened + t.weight) ts := by
  rw [namesFrom, if_neg fun hstart => h hstart.1]
  rfl

namespace StatementPhase

/-- Only a bracket that closes the outermost pair ends an interface. -/
theorem next_fields (h : t.closes? = none ∨ opened ≠ 1) : next opened t .fields = .fields := by
  refine if_neg fun hlast => ?_
  rw [Bool.and_eq_true, beq_iff_eq] at hlast
  rcases h with h | h
  · simp [h] at hlast
  · exact h hlast.2

/-- Only a semicolon outside of brackets ends another statement. -/
theorem next_rest (h : t.is ";" = false ∨ opened ≠ 0) : next opened t .rest = .rest := by
  refine if_neg fun hlast => ?_
  rw [Bool.and_eq_true, beq_iff_eq] at hlast
  rcases h with h | h
  · simp [h] at hlast
  · exact h hlast.2

/-- Between brackets a statement goes on. -/
theorem next_of_pos (h : phase ≠ .start) (hopened : 0 < opened)
    (hclose : t.closes? = none ∨ opened ≠ 1) : phase.next opened t = phase := by
  cases phase with
  | start => exact absurd rfl h
  | fields => exact next_fields hclose
  | rest => exact next_rest (.inr (Int.ne_of_gt hopened))

end StatementPhase

/-- What stands between brackets is passed over. -/
theorem Balanced.namesFrom_append (h : Balanced inner) (hphase : phase ≠ .start)
    (hopened : 0 < opened) : namesFrom phase opened (inner ++ us) = namesFrom phase opened us := by
  induction h generalizing opened us with
  | nil => rfl
  | other hopen hclose _ ih =>
    rw [List.cons_append, namesFrom_within hphase,
      StatementPhase.next_of_pos hphase hopened (.inl hclose),
      Token.IsNoBracket.weight_eq ⟨hopen, hclose⟩, Int.add_zero, ih hopened]
  | group hopen hclose _ _ ihInner ih =>
    have hinside : 0 < opened + 1 := by omega
    rw [List.cons_append, List.append_assoc, List.cons_append, namesFrom_within hphase,
      StatementPhase.next_of_pos hphase hopened (.inl (Token.closes?_eq_none_of_opens? hopen)),
      Token.weight_of_opens? hopen, ihInner hinside, namesFrom_within hphase,
      StatementPhase.next_of_pos hphase hinside (.inr (by omega)),
      Token.weight_of_closes? hclose, Int.add_neg_cancel_right, ih hopened]

/-- A token that is no bracket and no semicolon is passed over. -/
theorem namesFrom_rest (ht : t.IsNoBracket) (hsemicolon : t.is ";" = false) :
    namesFrom .rest 0 (t :: us) = namesFrom .rest 0 us := by
  rw [namesFrom_within (by decide), StatementPhase.next_rest (.inl hsemicolon), ht.weight_eq,
    Int.add_zero]

/-- Brackets are passed over with all that stands between them. -/
theorem namesFrom_group (hfirst : first.IsMark (String.singleton shape.opening))
    (hlast : last.IsMark (String.singleton shape.closing)) (hinner : Balanced inner) :
    namesFrom .rest 0 (first :: (inner ++ last :: us)) = namesFrom .rest 0 us := by
  have hsemicolon : first.is ";" = false := by
    rw [hfirst.is]
    cases shape <;> decide
  rw [namesFrom_within (by decide), StatementPhase.next_rest (.inl hsemicolon),
    Token.weight_of_opens? (hfirst.opens? shape), hinner.namesFrom_append (by decide) (by decide),
    namesFrom_within (by decide), StatementPhase.next_rest (.inr (by decide)),
    Token.weight_of_closes? (hlast.closes? shape)]
  rfl

/-- A type is passed over. -/
theorem Enclosed.namesFrom_append (h : Enclosed ts) :
    namesFrom .rest 0 (ts ++ us) = namesFrom .rest 0 us := by
  induction h generalizing us with
  | nil => rfl
  | other hopen hclose _ _ hsemicolon _ _ ih =>
    rw [List.cons_append, namesFrom_rest ⟨hopen, hclose⟩ hsemicolon, ih]
  | group shape hfirst hlast hinner _ ih =>
    rw [List.cons_append, List.append_assoc, List.cons_append, namesFrom_group hfirst hlast hinner,
      ih]
  | angle hfirst hlast _ _ ihInner ih =>
    have hless := hfirst.isNoBracket (by decide)
    have hgreater := hlast.isNoBracket (by decide)
    rw [List.cons_append, List.append_assoc, List.cons_append,
      namesFrom_rest hless (by rw [hfirst.is]; rfl), ihInner,
      namesFrom_rest hgreater (by rw [hlast.is]; rfl), ih]

theorem ResultTokens.namesFrom_append (h : ResultTokens ts) :
    namesFrom .rest 0 (ts ++ us) = namesFrom .rest 0 us := by
  cases h with
  | type hts => exact hts.enclosed.namesFrom_append
  | void ht => exact namesFrom_rest (ht.isNoBracket (by decide)) (by rw [ht.is]; rfl)

/-- A semicolon outside of brackets ends a statement. -/
theorem namesFrom_semicolon (ht : t.IsMark ";") :
    namesFrom .rest 0 (t :: us) = namesFrom .start 0 us := by
  have hweight : t.weight = 0 := (ht.isNoBracket (by decide)).weight_eq
  rw [namesFrom_within (by decide), hweight, StatementPhase.next, ht.is]
  rfl

/-- A declaration declares one name if it is an interface or an alias. -/
theorem DeclarationTokens.namesFrom_append (h : DeclarationTokens d ts) :
    namesFrom .start 0 (ts ++ us) = d.typeName?.toList ++ namesFrom .start 0 us := by
  cases h with
  | @interface word name first last keys inner hword hname hfirst hinner hlast =>
    have hweight : word.weight = 0 := (hword.isNoBracket (by decide)).weight_eq
    have hclose : first.closes? = none := Token.closes?_eq_none_of_opens? (hfirst.opens? .curly)
    have hbody : namesFrom .fields 0 (name :: first :: (inner ++ last :: us)) =
        namesFrom .start 0 us := by
      rw [namesFrom_within (by decide), StatementPhase.next_fields (.inl hname.isNoBracket.2),
        hname.isNoBracket.weight_eq, namesFrom_within (by decide),
        StatementPhase.next_fields (.inl hclose), Token.weight_of_opens? (hfirst.opens? .curly),
        hinner.balanced.namesFrom_append (by decide) (by decide), namesFrom_within (by decide),
        StatementPhase.next, hlast.closes? .curly, Token.weight_of_closes? (hlast.closes? .curly)]
      rfl
    simp only [List.cons_append, List.append_assoc, List.nil_append]
    rw [namesFrom, hweight, StatementPhase.next, hword.is]
    exact congrArg (List.cons _) hbody
  | @typeAlias word name equals semicolon ts grouped hword hname hequals hts hsemicolon =>
    have hweight : word.weight = 0 := (hword.isNoBracket (by decide)).weight_eq
    have htype : namesFrom .rest 0 (name :: equals :: (ts ++ semicolon :: us)) =
        namesFrom .start 0 us := by
      rw [namesFrom_rest hname.isNoBracket (hname.is_eq_false (.inr (by decide))),
        namesFrom_rest (hequals.isNoBracket (by decide)) (by rw [hequals.is]; rfl),
        hts.enclosed.namesFrom_append, namesFrom_semicolon hsemicolon]
    simp only [List.cons_append, List.append_assoc, List.nil_append]
    rw [namesFrom, hweight, StatementPhase.next, hword.is, hword.is]
    exact congrArg (List.cons _) htype
  | @ambient word keyword name first last colon semicolon inner ts hword hkeyword hname hfirst
      hinner hlast hcolon hts hsemicolon =>
    have hweight : word.weight = 0 := (hword.isNoBracket (by decide)).weight_eq
    have hlist : namesFrom .rest 0 (first :: (inner ++ last :: colon :: (ts ++ semicolon :: us))) =
        namesFrom .rest 0 (colon :: (ts ++ semicolon :: us)) :=
      namesFrom_group (show first.IsMark (String.singleton Bracket.round.opening) from hfirst)
        hlast hinner
    have hfunction : namesFrom .rest 0
        (keyword :: name :: first :: (inner ++ last :: colon :: (ts ++ semicolon :: us))) =
        namesFrom .start 0 us := by
      rw [namesFrom_rest (hkeyword.isNoBracket (by decide)) (by rw [hkeyword.is]; rfl),
        namesFrom_rest hname.isNoBracket (hname.is_eq_false (.inr (by decide))),
        hlist, namesFrom_rest (hcolon.isNoBracket (by decide)) (by rw [hcolon.is]; rfl),
        hts.namesFrom_append, namesFrom_semicolon hsemicolon]
    simp only [List.cons_append, List.append_assoc, List.nil_append]
    rw [namesFrom, hweight, StatementPhase.next, hword.is, hword.is]
    exact hfunction

/-- The names that declarations declare are those of the interfaces and aliases among them. -/
theorem DeclarationsTokens.namesFrom_append (h : DeclarationsTokens ds ts) :
    namesFrom .start 0 (ts ++ us) =
      ds.filterMap TypeDeclaration.typeName? ++ namesFrom .start 0 us := by
  induction h with
  | nil => rfl
  | @cons d ds ts vs hts _ ih =>
    rw [List.append_assoc, hts.namesFrom_append, ih, List.filterMap_cons, ← List.append_assoc]
    cases d.typeName? <;> rfl

/-! ## The names of a contract -/

/-- The types that the built-ins declare. -/
def builtinTypes : List String := ["HttpMethod", "HttpRequest", "HttpResult"]

/-- The names that are declared for the global map, for the params and by the built-ins. -/
def Contract.typeNames (globals params : Json.Entries) : List (List String) := [
  (Declarations.infer globalMapName (.object globals)).names,
  (Declarations.infer paramMapName (.object params)).names, builtinTypes]

theorem Declarations.filterMap_typeName?_declared (d : Declarations) :
    d.declared.filterMap TypeDeclaration.typeName? = d.names := by
  have hinterfaces : (d.interfaces.map Interface.declared).filterMap TypeDeclaration.typeName? =
      d.interfaces.map Interface.name := by
    rw [List.filterMap_map]
    exact congrFun List.filterMap_eq_map' _
  rw [declared, List.filterMap_append, hinterfaces, names]
  cases d.aliased <;> rfl

/-- The names that a contract declares are those of its three parts. -/
theorem Contract.declaredNames_eq (globals params : Json.Entries) :
    declaredNames (Contract.generate globals params).declarations =
      .ok (Contract.typeNames globals params).flatten := by
  obtain ⟨text, htext, hlexes, hmark⟩ := Contract.exists_text globals params
  obtain ⟨⟨table, ts, last, htable, htokens, hlast, hts⟩, -⟩ :=
    eraseTypes_declarations hlexes hmark trivial
  have hend : namesFrom .start 0 [last] = [] := by simp [namesFrom]
  have hbuiltins : builtinsDeclared.filterMap TypeDeclaration.typeName? = builtinTypes := rfl
  have hnames : (Contract.declared globals params).filterMap TypeDeclaration.typeName? =
      (Contract.typeNames globals params).flatten := by
    rw [declared, List.filterMap_append, List.filterMap_append,
      Declarations.filterMap_typeName?_declared, Declarations.filterMap_typeName?_declared,
      hbuiltins, typeNames]
    simp
  rw [htext, declaredNames, htable, Except.map, htokens, hts.namesFrom_append, hend, hnames,
    List.append_nil]

/-- No part of a contract declares a name twice. -/
theorem Contract.nodup_of_mem_typeNames {globals params : Json.Entries} :
    ∀ part ∈ Contract.typeNames globals params, part.Nodup := by
  have hinferred (root : String) (v : Json) : (Declarations.infer root v).names.Nodup := by
    obtain ⟨taken, hnames, hnodup, -⟩ := Declarations.exists_names_infer root v
    rw [hnames]
    exact hnodup
  simp only [typeNames, List.forall_mem_cons]
  exact ⟨hinferred _ _, hinferred _ _, by decide, List.forall_mem_nil _⟩

/-- Where no part holds a name twice, a name stands in as many parts as it is declared. -/
theorem count_flatten_of_nodup {parts : List (List String)} (h : ∀ part ∈ parts, part.Nodup)
    (name : String) : parts.flatten.count name = parts.countP (name ∈ ·) := by
  induction parts with
  | nil => rfl
  | cons part parts ih =>
    obtain ⟨hpart, hparts⟩ := List.forall_mem_cons.mp h
    rw [List.flatten_cons, List.count_append, ih hparts, List.countP_cons, hpart.count,
      Nat.add_comm]
    simp

/-- A name is declared once for each part of the contract that declares it. So each name is
declared once exactly if no two parts share one. -/
theorem Contract.declared_once_iff (globals params : Json.Entries) :
    ∃ names, declaredNames (Contract.generate globals params).declarations = .ok names ∧
      names = (Contract.typeNames globals params).flatten ∧
      (∀ name, names.count name = (Contract.typeNames globals params).countP (name ∈ ·)) ∧
      ((∀ name ∈ names, names.count name = 1) ↔
        (Contract.typeNames globals params).Pairwise List.Disjoint) := by
  have hparts := @Contract.nodup_of_mem_typeNames globals params
  refine ⟨_, Contract.declaredNames_eq globals params, rfl, count_flatten_of_nodup hparts, ?_⟩
  rw [← List.nodup_iff_count_eq_one, List.nodup_flatten]
  exact and_iff_right hparts

/-- An object with one field under a key is declared as an interface. -/
theorem Declarations.names_infer_nested (root key field text : String) :
    (Declarations.infer root (.object [(key, .object [(field, .string text)])])).names =
      [root, freshName [root] (typeName key)] := by
  have hvalues (k : String) (v : Json) : valuesUnder k [[(k, v)]] = [v] := by
    simp [valuesUnder, Json.Entries.get?]
  have hkeys (k : String) (v : Json) : mergedKeys [[(k, v)]] = [k] := rfl
  have htext (used : List String) : (inferValues field [.string text] used).interfaces = [] := by
    rw [inferValues_eq]
    rfl
  have hfields (used : List String) :
      (inferFields [[(field, .string text)]] [field] used).interfaces = [] := by
    simp only [inferFields_cons, inferFields_nil, hvalues, htext, List.append_nil]
  have hobject : (inferValues key [.object [(field, .string text)]] [root]).interfaces.map
      Interface.name = [freshName [root] (typeName key)] := by
    have hobjects : objectsOf [.object [(field, .string text)]] = [[(field, .string text)]] := rfl
    have hitems : mergedItems? [.object [(field, .string text)]] = none := rfl
    rw [inferValues_eq]
    simp only [hobjects, hitems, inferObjects, inferItems, reduceCtorEq, if_false, hkeys, hfields,
      List.append_nil, List.map_cons, List.map_nil]
  rw [infer, names]
  simp only [Json.entries?, hkeys, inferFields_cons, hvalues, inferFields_nil, List.append_nil,
    List.map_cons, hobject]
  rfl

/-- The global map and the params both hold an object under one key, with other fields. Both
interfaces get the name of the key. -/
theorem Contract.user_declared_twice :
    ∃ names, declaredNames (Contract.generate [("user", .object [("name", .string "a")])]
        [("user", .object [("id", .string "b")])]).declarations = .ok names ∧
      names = ["GlobalMap", "User", "ParamMap", "User", "HttpMethod", "HttpRequest",
        "HttpResult"] ∧
      names.count "User" = 2 := by
  refine ⟨_, Contract.declaredNames_eq _ _, ?_⟩
  rw [typeNames, Declarations.names_infer_nested, Declarations.names_infer_nested]
  decide +kernel

end Workflow.Script
