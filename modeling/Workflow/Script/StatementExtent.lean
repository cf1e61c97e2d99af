import Workflow.Script.TypeExtent

/-!
# Statements that only declare types

Interfaces, type aliases, ambient declarations and type-only imports and exports
vanish as a whole. The functions below find where such a statement ends; a
statement that would need generated code, an enumeration, is refused.
-/

namespace Workflow.Script.TokenTable

/-- The words that may follow `declare`. -/
def declarable : List String := [
  "const", "let", "var", "function", "class", "module", "namespace", "global", "enum",
  "abstract", "interface", "type"]

variable (table : TokenTable)

/-- A range of tokens to remove, behind which the reading of the token `i` goes on. -/
structure Removal (i : Nat) where
  /-- The first index of the range. -/
  first : Nat
  /-- The index behind the range. -/
  stop : Nat
  /-- The reading goes on behind the token. -/
  lt : i < stop

/-- The index behind a semicolon that may stand at `k`. -/
def afterSemicolon (k : Nat) : { m : Nat // k ≤ m } :=
  if table.is k ";" then ⟨k + 1, Nat.le_succ k⟩ else ⟨k, Nat.le_refl k⟩

/-- The first curly bracket from `m` on that stands in no other bracket; a fault lies at
the token `first`. -/
def braceFrom (first m : Nat) : Except Fault { e : Nat // m ≤ e } :=
  if _h : m < table.finish then
    if table.is m "\x7b" then .ok ⟨m, Nat.le_refl m⟩
    else if table.is m "<" then do
      let ⟨n, hn⟩ ← table.angleEnd m
      let ⟨e, he⟩ ← braceFrom first n
      return ⟨e, Index.le_of_lt_of_le hn he⟩
    else if table.is m "(" || table.is m "[" then do
      let ⟨e, he⟩ ← braceFrom first (table.closeOf m + 1)
      return ⟨e, table.le_of_closeOf_le he⟩
    else do
      let ⟨e, he⟩ ← braceFrom first (m + 1)
      return ⟨e, Nat.le_of_succ_le he⟩
  else .error (table.fault first (.expected "\x7b"))
termination_by table.finish - m
decreasing_by
  · omega
  · have := table.le_closeOf m
    omega
  · omega

/-- The index behind the next curly brackets from `k` on. -/
def bodyEnd (k : Nat) : Except Fault { m : Nat // k < m } := do
  let ⟨brace, h⟩ ← table.braceFrom k k
  return ⟨table.closeOf brace + 1, by have := table.le_closeOf brace; omega⟩

/-- The index behind a type alias whose name ends before `k`. -/
def aliasEnd (k : Nat) : Except Fault { m : Nat // k < m } := do
  let ⟨p, hp⟩ : { p : Nat // k ≤ p } ←
    if table.is k "<" then do
      let ⟨p, hp⟩ ← table.angleEnd k
      pure ⟨p, Nat.le_of_lt hp⟩
    else pure ⟨k, Nat.le_refl k⟩
  let ⟨q, hq⟩ ← table.expect p "="
  let ⟨r, hr⟩ ← table.typeEnd q
  let ⟨e, he⟩ := table.afterSemicolon r
  return ⟨e, by omega⟩

/-- The index behind a type annotation that may stand at `k`. -/
def annotationEnd (k : Nat) : Except Fault { m : Nat // k ≤ m } :=
  if table.is k ":" then do
    let ⟨e, he⟩ ← table.typeEnd (k + 1)
    return ⟨e, Index.le_of_succ_lt he⟩
  else .ok ⟨k, Nat.le_refl k⟩

/-- The index behind the pattern or the name that starts at `k`. -/
def bindingEnd (k : Nat) : Except Fault { m : Nat // k < m } :=
  if table.is k "\x7b" || table.is k "[" then
    .ok ⟨table.closeOf k + 1, Nat.lt_succ_of_le (table.le_closeOf k)⟩
  else if table.isWord k then .ok ⟨k + 1, Nat.lt_succ_self k⟩
  else .error (table.fault k .nameExpected)

/-- The index behind the declared variables from `k` on. -/
def bindingsEnd (k : Nat) : Except Fault { m : Nat // k < m } := do
  let ⟨p, hp⟩ ← table.bindingEnd k
  let ⟨q, hq⟩ ← table.annotationEnd p
  if h : table.is q "," then
    let ⟨e, he⟩ ← bindingsEnd (q + 1)
    return ⟨e, by omega⟩
  else return ⟨q, by omega⟩
termination_by table.tokens.size - k
decreasing_by
  have := table.lt_size_of_is h
  omega

/-- The index behind the heading of an ambient function, whose name may stand at `k`. -/
def signatureEnd (k : Nat) : Except Fault { m : Nat // k < m } := do
  let ⟨p, hp⟩ : { p : Nat // k ≤ p } :=
    if table.isWord k then ⟨k + 1, Nat.le_succ k⟩ else ⟨k, Nat.le_refl k⟩
  let ⟨q, hq⟩ : { q : Nat // p ≤ q } ←
    if table.is p "<" then do
      let ⟨q, hq⟩ ← table.angleEnd p
      pure ⟨q, Nat.le_of_lt hq⟩
    else pure ⟨p, Nat.le_refl p⟩
  if table.is q "(" then
    let ⟨e, he⟩ ← table.annotationEnd (table.closeOf q + 1)
    return ⟨e, by have := table.le_closeOf q; omega⟩
  else throw (table.fault q (.expected "("))

/-- The index behind an ambient declaration whose keyword stands at `k`. -/
def ambientEnd (k : Nat) : Except Fault { m : Nat // k < m } := do
  match table.text k with
  | "type" =>
    let ⟨e, he⟩ ← table.aliasEnd (k + 2)
    return ⟨e, Index.lt_of_two_lt he⟩
  | "const" | "let" | "var" =>
    let ⟨m, hm⟩ ← table.bindingsEnd (k + 1)
    let ⟨e, he⟩ := table.afterSemicolon m
    return ⟨e, by omega⟩
  | "function" =>
    let ⟨m, hm⟩ ← table.signatureEnd (k + 1)
    let ⟨e, he⟩ := table.afterSemicolon m
    return ⟨e, by omega⟩
  | _ =>
    let ⟨m, hm⟩ ← table.bodyEnd (k + 1)
    let ⟨e, he⟩ := table.afterSemicolon m
    return ⟨e, by omega⟩

/-- The index behind the next string from `m` on, curly brackets passed over whole; a
fault lies at the token `first`. -/
def moduleEnd (first m : Nat) : Except Fault { e : Nat // m < e } :=
  if _h : m < table.finish then
    if table.kind m = .string then .ok ⟨m + 1, Nat.lt_succ_self m⟩
    else if table.is m "\x7b" then do
      let ⟨e, he⟩ ← moduleEnd first (table.closeOf m + 1)
      return ⟨e, table.lt_of_closeOf_lt he⟩
    else do
      let ⟨e, he⟩ ← moduleEnd first (m + 1)
      return ⟨e, Nat.lt_of_succ_lt he⟩
  else .error (table.fault first .moduleExpected)
termination_by table.finish - m
decreasing_by
  · have := table.le_closeOf m
    omega
  · omega

/-- Whether what follows `import type` at `k` makes it a type-only import. Otherwise a
default export named `type` is imported. -/
def importsTypes (k : Nat) : Bool :=
  table.is k "\x7b" || table.is k "*" ||
    (table.isWord k && !(table.is k "from" && table.kind (k + 1) == .string))

/-- The index behind a type-only export whose curly bracket stands at `k`. -/
def exportEnd (k : Nat) : { m : Nat // k < m } :=
  let close := table.closeOf k + 1
  let source := if table.is close "from" && table.kind (close + 1) == .string then close + 2
    else close
  let ⟨e, he⟩ := table.afterSemicolon source
  ⟨e, by
    have := table.le_closeOf k
    simp only [source, close] at he
    split at he <;> omega⟩

/-- The tokens to remove for the statement that starts at `i`, if it only declares
types. An `export` in front vanishes with it; of an abstract class only the word
`abstract` vanishes. -/
def statementRemoval (i : Nat) : Except Fault (Option (Removal i)) :=
  let exported := table.is i "export"
  let ⟨j, hj⟩ : { j : Nat // i ≤ j } :=
    if exported then ⟨i + 1, Nat.le_succ i⟩ else ⟨i, Nat.le_refl i⟩
  match table.text j with
  | "interface" =>
    if table.isWord (j + 1) &&
        (table.is (j + 2) "\x7b" || table.is (j + 2) "extends" || table.is (j + 2) "<") then do
      let ⟨e, he⟩ ← table.bodyEnd (j + 2)
      return some ⟨i, e, by omega⟩
    else return none
  | "type" =>
    if table.isWord (j + 1) && (table.is (j + 2) "=" || table.is (j + 2) "<") then do
      let ⟨e, he⟩ ← table.aliasEnd (j + 2)
      return some ⟨i, e, by omega⟩
    else if exported && table.is (j + 1) "\x7b" then
      let ⟨e, he⟩ := table.exportEnd (j + 1)
      return some ⟨i, e, by omega⟩
    else return none
  | "import" =>
    if !exported && table.is (j + 1) "type" && table.importsTypes (j + 2) then do
      let ⟨m, hm⟩ ← table.moduleEnd j (j + 2)
      let ⟨e, he⟩ := table.afterSemicolon m
      return some ⟨i, e, by omega⟩
    else return none
  | "declare" =>
    if table.isOneOf (j + 1) declarable then do
      let ⟨e, he⟩ ← table.ambientEnd (j + 1)
      return some ⟨i, e, by omega⟩
    else return none
  | "abstract" =>
    if table.is (j + 1) "class" then return some ⟨j, j + 1, by omega⟩ else return none
  | "enum" =>
    if table.isWord (j + 1) && table.is (j + 2) "\x7b" then throw (table.fault j .enumeration)
    else return none
  | "const" =>
    if table.is (j + 1) "enum" then throw (table.fault j .enumeration) else return none
  | _ => return none

end Workflow.Script.TokenTable
