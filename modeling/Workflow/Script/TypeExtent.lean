import Workflow.Script.TokenTable

/-!
# The extent of a type

Erasing types needs to know where a type ends, not what it means. The functions
below answer with the index of the first token behind a type, an operand of a
type or a list in angle brackets, or with the fault that there is none. Each
answer lies behind the token asked about, which is also why the mutual recursion
of types and operands ends.

A type goes on over a line break only behind an operator or inside brackets.
-/

namespace Workflow.Script.TokenTable

/-- The words that may stand in front of a type operand. -/
def typePrefixes : List String := ["keyof", "typeof", "readonly", "unique", "infer", "asserts"]

variable (table : TokenTable)

/-- Whether a type may start with the token at an index. -/
def startsType (i : Nat) : Bool :=
  match table.kind i with
  | .word | .string | .number | .template => true
  | .punctuator => ["\x7b", "[", "(", "<", "-", "|", "&"].contains (table.text i)
  | _ => false

/-- The index behind a required token. -/
def expect (k : Nat) (text : String) : Except Fault { m : Nat // k < m } :=
  if table.is k text then .ok ⟨k + 1, Nat.lt_succ_self k⟩
  else .error (table.fault k (.expected text))

/-- The index behind the `>` that closes all of `depth` open angle brackets, searched
from `m` on. Bracketed groups are passed over whole; a fault lies at the token `first`. -/
def angleEndFrom (first depth m : Nat) : Except Fault { e : Nat // m < e } :=
  match _ : table.kind m with
  | .finish => .error (table.fault first .unterminatedTypeList)
  | .punctuator =>
    match table.text m with
    | "<" => do
      let ⟨e, he⟩ ← angleEndFrom first (depth + 1) (m + 1)
      return ⟨e, Nat.lt_of_succ_lt he⟩
    | ">" =>
      if depth ≤ 1 then .ok ⟨m + 1, Nat.lt_succ_self m⟩
      else do
        let ⟨e, he⟩ ← angleEndFrom first (depth - 1) (m + 1)
        return ⟨e, Nat.lt_of_succ_lt he⟩
    | "(" | "[" | "\x7b" => do
      let ⟨e, he⟩ ← angleEndFrom first depth (table.closeOf m + 1)
      return ⟨e, table.lt_of_closeOf_lt he⟩
    | ";" | ")" | "]" | "\x7d" => .error (table.fault first .unterminatedTypeList)
    | _ => do
      let ⟨e, he⟩ ← angleEndFrom first depth (m + 1)
      return ⟨e, Nat.lt_of_succ_lt he⟩
  | .word | .number | .string | .template | .regex => do
    let ⟨e, he⟩ ← angleEndFrom first depth (m + 1)
    return ⟨e, Nat.lt_of_succ_lt he⟩
termination_by table.tokens.size - m
decreasing_by
  all_goals
    have := table.lt_size_of_kind_ne (i := m) (by simp_all)
    have := table.le_closeOf m
    omega

/-- The index behind the list in angle brackets that opens at `k`. -/
def angleEnd (k : Nat) : Except Fault { m : Nat // k < m } := table.angleEndFrom k 0 k

/-- The index behind the words that may stand in front of a type operand. -/
def afterTypePrefixes (k : Nat) : { m : Nat // k ≤ m } :=
  if _h : table.isWord k ∧ table.isOneOf k typePrefixes ∧ table.startsType (k + 1) ∧
      ¬ table.is (k + 1) "<" then
    let ⟨m, hm⟩ := afterTypePrefixes (k + 1)
    ⟨m, Nat.le_of_succ_le hm⟩
  else ⟨k, Nat.le_refl k⟩
termination_by table.tokens.size - k
decreasing_by
  have := table.lt_size_of_isWord _h.1
  omega

/-- The index behind the `new` of a constructor type. -/
def afterNew (k : Nat) : { m : Nat // k ≤ m } :=
  if table.is k "new" && (table.is (k + 1) "(" || table.is (k + 1) "<") then
    ⟨k + 1, Nat.le_succ k⟩
  else ⟨k, Nat.le_refl k⟩

/-- The index behind the `.name` parts of a dotted name. -/
def afterMembers (k : Nat) : { m : Nat // k ≤ m } :=
  if h : table.is k "." ∧ table.isWord (k + 1) then
    let ⟨m, hm⟩ := afterMembers (k + 2)
    ⟨m, by omega⟩
  else ⟨k, Nat.le_refl k⟩
termination_by table.tokens.size - k
decreasing_by
  have := table.lt_size_of_is h.1
  omega

/-- The index behind the type lists, square brackets and members that follow an
operand on its line. -/
def postfixEnd (k : Nat) : Except Fault { m : Nat // k ≤ m } :=
  if table.startsLine k then .ok ⟨k, Nat.le_refl k⟩
  else if h : table.is k "<" then do
    let ⟨m, hm⟩ ← table.angleEnd k
    let ⟨e, he⟩ ← postfixEnd m
    return ⟨e, by omega⟩
  else if h : table.is k "[" then do
    let ⟨e, he⟩ ← postfixEnd (table.closeOf k + 1)
    return ⟨e, by have := table.le_closeOf k; omega⟩
  else if h : table.is k "." ∧ table.isWord (k + 1) then do
    let ⟨e, he⟩ ← postfixEnd (k + 2)
    return ⟨e, by omega⟩
  else .ok ⟨k, Nat.le_refl k⟩
termination_by table.tokens.size - k
decreasing_by
  · have := table.lt_size_of_is h
    omega
  · have := table.lt_size_of_is h
    have := table.le_closeOf k
    omega
  · have := table.lt_size_of_is h.1
    omega

/-- The index from which the operands of a type are read: an operator may lead. -/
def afterLeadingOperator (k : Nat) : { m : Nat // k ≤ m } :=
  if table.is k "|" || table.is k "&" then ⟨k + 1, Nat.le_succ k⟩ else ⟨k, Nat.le_refl k⟩

mutual

/-- The index behind the type that starts at `k`. -/
def typeEnd (k : Nat) : Except Fault { m : Nat // k < m } := do
  let ⟨s, hs⟩ := table.afterLeadingOperator k
  let ⟨m, hm⟩ ← operandEnd s
  let ⟨e, he⟩ ← typeEndFrom m
  return ⟨e, by omega⟩
termination_by 4 * (table.tokens.size - k) + 3
decreasing_by all_goals omega

/-- The index behind a type of which an operand has been read up to `k`. -/
def typeEndFrom (k : Nat) : Except Fault { m : Nat // k ≤ m } :=
  if h : (table.is k "|" || table.is k "&") = true then do
    let ⟨m, hm⟩ ← operandEnd (k + 1)
    let ⟨e, he⟩ ← typeEndFrom m
    return ⟨e, by omega⟩
  else if h : table.is k "extends" ∧ ¬ table.startsLine k then do
    let ⟨bound, hBound⟩ ← operandEnd (k + 1)
    let ⟨yes, hYes⟩ ← table.expect bound "?"
    let ⟨colon, hColon⟩ ← typeEnd yes
    let ⟨no, hNo⟩ ← table.expect colon ":"
    let ⟨m, hm⟩ ← typeEnd no
    let ⟨e, he⟩ ← typeEndFrom m
    return ⟨e, by omega⟩
  else .ok ⟨k, Nat.le_refl k⟩
termination_by 4 * (table.tokens.size - k) + 2
decreasing_by
  all_goals
    have hk : k < table.tokens.size := by
      first
        | exact table.lt_size_of_is h.1
        | exact (Bool.or_eq_true _ _ ▸ h).elim table.lt_size_of_is table.lt_size_of_is
    omega

/-- The index behind the operand of a type that starts at `k`. -/
def operandEnd (k : Nat) : Except Fault { m : Nat // k < m } := do
  let p := table.afterTypePrefixes k
  let q := table.afterNew p
  let ⟨e, he⟩ ← plainOperandEnd q
  return ⟨e, by have := p.2; have := q.2; omega⟩
termination_by 4 * (table.tokens.size - k) + 1
decreasing_by
  have := (table.afterTypePrefixes k).2
  have := (table.afterNew (table.afterTypePrefixes k)).2
  omega

/-- The index behind the operand of a type that starts at `q`, where no words stand in front
of it. -/
def plainOperandEnd (q : Nat) : Except Fault { m : Nat // q < m } :=
  match hKind : table.kind q with
  | .word =>
    let n := table.afterMembers (q + 1)
    if table.is n "is" && !table.startsLine n then do
      let ⟨e, he⟩ ← typeEnd (n + 1)
      return ⟨e, by have := n.2; omega⟩
    else do
      let ⟨e, he⟩ ← table.postfixEnd n
      return ⟨e, by have := n.2; omega⟩
  | .string | .number | .template => do
    let ⟨e, he⟩ ← table.postfixEnd (q + 1)
    return ⟨e, by omega⟩
  | .punctuator =>
    match table.text q with
    | "-" =>
      if table.kind (q + 1) = .number then do
        let ⟨e, he⟩ ← table.postfixEnd (q + 2)
        return ⟨e, by omega⟩
      else .error (table.fault q .typeExpected)
    | "\x7b" | "[" => do
      let ⟨e, he⟩ ← table.postfixEnd (table.closeOf q + 1)
      return ⟨e, by have := table.le_closeOf q; omega⟩
    | "(" =>
      if table.is (table.closeOf q + 1) "=>" then do
        let ⟨e, he⟩ ← typeEnd (table.closeOf q + 2)
        return ⟨e, by have := table.le_closeOf q; omega⟩
      else do
        let ⟨e, he⟩ ← table.postfixEnd (table.closeOf q + 1)
        return ⟨e, by have := table.le_closeOf q; omega⟩
    | "<" => do
      let ⟨params, hParams⟩ ← table.angleEnd q
      if table.is params "(" then
        let ⟨result, hResult⟩ ← table.expect (table.closeOf params + 1) "=>"
        let ⟨e, he⟩ ← typeEnd result
        return ⟨e, by have := table.le_closeOf params; omega⟩
      else .error (table.fault params (.expected "("))
    | _ => .error (table.fault q .typeExpected)
  | .regex | .finish => .error (table.fault q .typeExpected)
termination_by 4 * (table.tokens.size - q)
decreasing_by
  all_goals
    have hSize := table.lt_size_of_kind_ne (i := q) (by simp_all)
    have := table.le_closeOf q
    try have := table.le_closeOf params
    try have := (table.afterMembers (q + 1)).2
    omega

end

end Workflow.Script.TokenTable
