import Workflow.Script.Erasure.Context

/-!
# Classes

The heading of a class loses its type parameters, the type arguments of its base
class and its `implements` clause. At the start of a member, modifiers that only
exist for types are removed, and so are the markers, type parameters and
annotations behind the name; elsewhere in a class body the same tokens are
ordinary operators.
-/

namespace Workflow.Script.Erasure

/-- The modifiers of members and parameters that only exist for types. -/
def modifiers : List String := [
  "public", "private", "protected", "readonly", "abstract", "declare", "override"]

/-- The tokens that may stand in front of the name of a member. -/
def memberPrefixes : List String := ["static", "async", "get", "set", "*"]

variable (s : Erasure) (table : TokenTable)

/-- Removes the type list that may open at `k`, and answers with the index behind it. -/
def removeTypeList (k : Nat) : Except Fault (Nat × Erasure) :=
  if table.is k "<" then do
    let ⟨e, _⟩ ← table.angleEnd k
    return (e, s.remove table k e)
  else return (k, s)

/-- Removes the type parameters behind `function`, a star and a name. -/
def functionHeading (i : Nat) : Except Fault Erasure := do
  let afterStar := if table.is (i + 1) "*" then i + 2 else i + 1
  let afterName := if table.isWord afterStar then afterStar + 1 else afterStar
  let (_, s) ← s.removeTypeList table afterName
  return s

/-- Removes the type arguments in the `extends` clause read from `k` on, and answers with
the index of the curly bracket or of the word `implements` behind it. -/
def extendsClause (s : Erasure) (k : Nat) : Except Fault (Nat × Erasure) :=
  if h : k < table.finish ∧ ¬ table.is k "\x7b" ∧ ¬ table.is k "implements" then
    if table.is k "<" && table.isWord (k - 1) then do
      let ⟨e, _⟩ ← table.angleEnd k
      extendsClause (s.remove table k e) e
    else if table.is k "(" || table.is k "[" then extendsClause s (table.closeOf k + 1)
    else extendsClause s (k + 1)
  else .ok (k, s)
termination_by table.finish - k
decreasing_by
  · omega
  · have := table.le_closeOf k
    omega
  · omega

/-- The index behind the types read from `k` on, with commas between them. -/
def typeListEnd (k : Nat) : Except Fault { m : Nat // k < m } := do
  let ⟨m, hm⟩ ← table.typeEnd k
  if _h : table.is m "," then
    let ⟨e, he⟩ ← typeListEnd (m + 1)
    return ⟨e, Index.lt_of_lt_of_succ_lt hm he⟩
  else return ⟨m, hm⟩
termination_by table.tokens.size - k
decreasing_by
  have := table.lt_size_of_is _h
  omega

/-- Removes the type parameters behind the name of the class at `i`, if it has a name. -/
def classParameters (i : Nat) : Except Fault (Nat × Erasure) :=
  let named := table.isWord (i + 1) && !table.is (i + 1) "extends" &&
    !table.is (i + 1) "implements"
  if named then s.removeTypeList table (i + 2) else return (i + 1, s)

/-- Removes the type arguments in the `extends` clause that may stand at `k`. -/
def classBase (k : Nat) : Except Fault (Nat × Erasure) :=
  if table.is k "extends" then extendsClause table s (k + 1) else return (k, s)

/-- Removes the `implements` clause that may stand at `k`. -/
def classInterfaces (k : Nat) : Except Fault (Nat × Erasure) :=
  if table.is k "implements" then do
    let ⟨e, _⟩ ← typeListEnd table (k + 1)
    return (e, s.remove table k e)
  else return (k, s)

/-- Notes the curly bracket that may open the body of a class at `k`. -/
def openBody (k : Nat) : Erasure :=
  if table.is k "\x7b" then { s with classBodies := k :: s.classBodies } else s

/-- Removes what only exists for types from the heading of the class at `i`, and notes
the curly bracket that opens its body. -/
def classHeading (i : Nat) : Except Fault Erasure := do
  let (k, s) ← s.classParameters table i
  let (k, s) ← s.classBase table k
  let (k, s) ← s.classInterfaces table k
  return s.openBody table k

/-- Whether a member of a class may start, or have its name, at `i`. -/
def startsMember (i : Nat) : Bool :=
  (s.previous i).any fun p =>
    table.is p "\x7b" || table.is p ";" || table.is p "\x7d" ||
    table.isOneOf p memberPrefixes || (table.startsLine i && s.endsOperand table p)

/-- Whether the word at `i` is a modifier in front of a member. -/
def isMemberModifier (i : Nat) : Bool :=
  table.isOneOf i modifiers &&
    (table.isWord (i + 1) || table.kind (i + 1) == .string || table.kind (i + 1) == .number ||
      table.is (i + 1) "[" || table.is (i + 1) "*")

/-- Whether a mark stands behind the member name at `i`. -/
def isMarked (i : Nat) : Bool := table.is (i + 1) "?" || table.is (i + 1) "!"

/-- The index behind the member name at `i` and its mark. -/
def afterMark (i : Nat) : { k : Nat // i < k } :=
  if isMarked table i then ⟨i + 2, Index.lt_two i⟩ else ⟨i + 1, Nat.lt_succ_self i⟩

/-- Removes the type parameters of a method that may open at `k`, behind the name at `i`,
and answers with the index behind them. -/
def methodParameters (i : Nat) (k : { k : Nat // i < k }) :
    Except Fault ({ m : Nat // i < m } × Erasure) :=
  if table.is k "<" then do
    let ⟨e, he⟩ ← table.angleEnd k
    if table.is e "(" then return (⟨e, Nat.lt_trans k.2 he⟩, s.remove table k e) else return (k, s)
  else return (k, s)

/-- Removes what only exists for types at the word `i` of a class body. The answer has a
removal if the reading goes on behind it, and none if the word is to be read on. -/
def classMember (i : Nat) : Except Fault (Option (TokenTable.Removal i) × Erasure) :=
  if !s.startsMember table i then return (none, s)
  else if isMemberModifier table i then return (some ⟨i, i + 1, Nat.lt_succ_self i⟩, s)
  else do
    let (⟨m, hm⟩, s) ← s.methodParameters table i (afterMark table i)
    if table.is m ":" then
      let ⟨e, he⟩ ← table.typeEnd (m + 1)
      return (some ⟨if isMarked table i then i + 1 else m, e, by omega⟩, s)
    else if isMarked table i && (table.is m "(" || table.is m "=" || table.is m ";") then
      return (none, s.remove table (i + 1) (i + 2))
    else return (none, s)

end Workflow.Script.Erasure
