import Workflow.Script.Erasure.State

/-!
# What stands before a token

The same character means different things behind an operand and elsewhere, and
round brackets hold parameters or an expression. These questions are answered
from the kept tokens before a bracket or an operator, and for parameter lists
also from what follows the closing bracket.
-/

namespace Workflow.Script.Erasure

/-- The words that never end an expression. -/
def nonOperands : List String := [
  "break", "case", "catch", "class", "const", "continue", "debugger", "default", "delete", "do",
  "else", "export", "extends", "finally", "for", "function", "if", "import", "in",
  "instanceof", "let", "new", "return", "switch", "throw", "try", "typeof", "var", "void",
  "while", "with", "yield", "await", "of", "static"]

/-- The words that cannot name a method. -/
def nonMethods : List String := [
  "if", "for", "while", "switch", "catch", "with", "return", "typeof", "instanceof", "in", "of",
  "new", "delete", "void", "throw", "case", "do", "else", "await", "yield", "function", "class",
  "const", "let", "var", "import", "export", "extends", "super"]

variable (s : Erasure) (table : TokenTable)

/-- Whether the token is an increment or a decrement. -/
def isStep (i : Nat) : Bool := table.is i "++" || table.is i "--"

/-- Whether a token other than an increment or a decrement can end an expression. -/
def endsPlainOperand (i : Nat) : Bool :=
  match table.kind i with
  | .word => !table.isOneOf i nonOperands
  | .number | .string | .template | .regex => true
  | .punctuator => table.is i ")" || table.is i "]"
  | .finish => false

/-- Whether the token can end an expression. An increment or a decrement can if it
follows an operand. -/
def endsOperand (i : Nat) : Bool :=
  if isStep table i then
    (s.previous i).any fun p => !isStep table p && endsPlainOperand table p
  else endsPlainOperand table i

/-- Whether the kept token before `i` is the given word or punctuator. -/
def follows (i : Nat) (text : String) : Bool := (s.previous i).any (table.is · text)

/-- Whether the token is a word that may name a method. -/
def isMethodName (i : Nat) : Bool := table.isWord i && !table.isOneOf i nonMethods

/-- Whether a statement may start with the word at `i`. -/
def startsStatement (i : Nat) : Bool :=
  (s.frame.kind == .top || s.frame.kind == .block) && table.isWord i &&
    match s.previous i with
    | none => true
    | some p =>
      table.is p ";" || table.is p "\x7b" || table.is p "\x7d" || table.startsLine i

/-- Whether the round bracket at `i` follows `function`, a name being allowed between
them, or `catch`. -/
def followsFunction (i : Nat) : Bool :=
  (s.previous i).any fun p =>
    table.is p "function" || table.is p "catch" ||
    (s.previous p).any fun before =>
      ((table.isWord p || table.is p "*") && table.is before "function") ||
      (table.isWord p && table.is before "*" && s.follows table before "function")

/-- Whether the round bracket at `i` opens a parameter list. An arrow behind it decides;
so does `function` or `catch` before it. Where methods may stand, so does a name before
it and a body behind it, a result type being allowed in between. -/
def opensParameters (i : Nat) : Bool :=
  let close := table.closeOf i
  let method := (s.previous i).any (isMethodName table) &&
    (s.frame.kind == .block || s.frame.kind == .classBody)
  let typed :=
    table.is (close + 1) ":" && s.frame.conditionals == 0 &&
    match table.typeEnd (close + 2) with
    | .ok ⟨e, _⟩ => table.is e "=>" || (method && table.is e "\x7b")
    | .error _ => false
  table.is (close + 1) "=>" || s.followsFunction table i || typed ||
    (method && table.is (close + 1) "\x7b")

/-- Whether the curly bracket at `i` opens the clause of an import or of an export. -/
def opensModuleClause (i : Nat) : Bool :=
  (s.previous i).any fun p =>
    table.is p "import" || table.is p "export" ||
    (table.is p "," && (s.previous p).any fun q => s.follows table q "import")

/-- Whether the token before `i` ends the dotted name of a constructor behind `new`. -/
def followsConstructor (i : Nat) : Bool :=
  match h : s.previous i with
  | none => false
  | some n =>
    have := previous_lt h
    table.isWord n &&
    match h' : s.previous n with
    | none => false
    | some p =>
      have := previous_lt h'
      if table.is p "." then followsConstructor p else table.is p "new"
termination_by i
decreasing_by omega

/-- The index behind the type arguments read from `k` on, if they close with `>`. -/
def typeArgumentsEndFrom (k : Nat) : Option { m : Nat // k < m } :=
  match table.typeEnd k with
  | .error _ => none
  | .ok ⟨m, hm⟩ =>
    if table.is m ">" then some ⟨m + 1, Nat.lt_succ_of_lt hm⟩
    else if _h : table.is m "," then
      match typeArgumentsEndFrom (m + 1) with
      | none => none
      | some ⟨e, he⟩ => some ⟨e, Index.lt_of_lt_of_succ_lt hm he⟩
    else none
termination_by table.tokens.size - k
decreasing_by
  have := table.lt_size_of_is _h
  omega

/-- The index behind the type arguments that open at `i`, if they are such. -/
def typeArgumentsEnd (i : Nat) : Option { m : Nat // i < m } :=
  match typeArgumentsEndFrom table (i + 1) with
  | none => none
  | some ⟨e, he⟩ => some ⟨e, Nat.lt_of_succ_lt he⟩

end Workflow.Script.Erasure
