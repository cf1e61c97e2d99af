import Workflow.Script.Erasure.Class

/-!
# Type erasure

A script is written with types and executed without them. Erasure removes
annotations, type-only statements, type parameters and arguments, assertions and
non-null marks, and keeps every other token as written. In place of a removed
token only the line feeds in front of it are written, so a kept token stays on
its line. `eraseTypes` is the whole path from a source to what is executed.
-/

namespace Workflow.Script

namespace Erasure

/-- Where the reading goes on behind the token `i`, and what is known there. -/
structure Advance (i : Nat) where
  /-- The index of the next token to read. -/
  next : Nat
  /-- The reading moves forward. -/
  lt : i < next
  /-- What is known at the next token. -/
  state : Erasure

variable (s : Erasure) (table : TokenTable)

/-- Goes on with the token behind `i`. -/
def advance (i : Nat) : Advance i := ⟨i + 1, Nat.lt_succ_self i, s⟩

/-- Removes a range and goes on behind it. -/
def advanceOver {i : Nat} (r : TokenTable.Removal i) : Advance i :=
  ⟨r.stop, r.lt, s.remove table r.first r.stop⟩

/-- The removal of an assertion that starts with the word at `i`, if it is one. -/
def assertion (i : Nat) : Except Fault (Option (TokenTable.Removal i)) :=
  let behindOperand := (s.previous i).any fun p => s.endsOperand table p || table.is p "\x7d"
  if s.frame.kind == .moduleClause || !behindOperand || !table.startsType (i + 1) then return none
  else if table.is i "as" && table.is (i + 1) "const" then return some ⟨i, i + 2, Index.lt_two i⟩
  else do
    let ⟨e, he⟩ ← table.typeEnd (i + 1)
    return some ⟨i, e, Nat.lt_of_succ_lt he⟩

/-- A declared name is behind a word; a second word ends the declaration, as in the head
of a loop over values. -/
def Frame.afterWord (f : Frame) : Frame :=
  match f.declaration with
  | some .expectName => { f with declaration := some .afterName }
  | some .afterName => { f with declaration := none }
  | _ => f

/-- Reads a word that is no member name. -/
def plainWord (i : Nat) : Except Fault (Advance i) := do
  let onward := (s.onFrame Frame.afterWord).advance i
  match table.text i with
  | "let" | "const" | "var" =>
    if table.isWord (i + 1) || table.is (i + 1) "\x7b" || table.is (i + 1) "[" then
      return (s.onFrame fun f => { f with declaration := some .expectName }).advance i
    else return onward
  | "function" =>
    let s ← s.functionHeading table i
    return s.advance i
  | "class" =>
    let s ← s.classHeading table i
    return s.advance i
  | "as" | "satisfies" =>
    match ← s.assertion table i with
    | some removal => return s.advanceOver table removal
    | none => return onward
  | _ => return onward

/-- Reads the word at `i`. -/
def word (i : Nat) : Except Fault (Advance i) :=
  if s.follows table i "." || s.follows table i "?." then return s.advance i
  else if s.frame.kind = .classBody then do
    let (removal, s) ← s.classMember table i
    match removal with
    | some removal => return s.advanceOver table removal
    | none => s.plainWord table i
  else if s.frame.kind = .parameters && table.isOneOf i modifiers && table.isWord (i + 1) then
    throw (table.fault i .parameterProperty)
  else s.plainWord table i

/-- Opens the bracket at `i`. A pattern in the place of a declared name is noted with its
closing bracket. -/
def openBracket (i : Nat) (kind : FrameKind) (pattern : Bool) : Erasure :=
  let parent :=
    if pattern && s.frame.declaration == some .expectName then
      { s.frame with declaration := some (.inPattern (table.closeOf i)) }
    else s.frame
  { s with frame := .fresh kind, outer := parent :: s.outer }

/-- A pattern that closes at `i` is behind. -/
def Frame.afterClose (i : Nat) (f : Frame) : Frame :=
  if f.declaration = some (.inPattern i) then { f with declaration := some .afterName } else f

/-- Closes the bracket at `i`. Behind parameters a result type is removed. -/
def closeBracket (i : Nat) : Except Fault (Advance i) :=
  match s.outer with
  | [] => return (s.onFrame (Frame.afterClose i)).advance i
  | parent :: outer =>
    let closed := { s with frame := Frame.afterClose i parent, outer := outer }
    if s.frame.kind = .parameters && table.is (i + 1) ":" then do
      let ⟨e, he⟩ ← table.typeEnd (i + 2)
      return closed.advanceOver table ⟨i + 1, e, Index.lt_of_two_lt he⟩
    else return closed.advance i

/-- Reads a colon: the second half of a conditional expression, an annotation, or an
ordinary one. -/
def colon (i : Nat) : Except Fault (Advance i) :=
  if 0 < s.frame.conditionals then
    return (s.onFrame fun f => { f with conditionals := f.conditionals - 1 }).advance i
  else if s.frame.kind = .parameters || s.frame.declaration == some .afterName then do
    let ⟨e, he⟩ ← table.typeEnd (i + 1)
    return s.advanceOver table ⟨i, e, Nat.lt_of_succ_lt he⟩
  else return s.advance i

/-- Reads a question mark: the mark of an optional parameter, or the first half of a
conditional expression. -/
def question (i : Nat) : Advance i :=
  let next := i + 1
  if s.frame.kind = .parameters && (s.previous i).any table.isWord &&
      (table.is next ":" || table.is next "," || table.is next ")" || table.is next "=") then
    s.advanceOver table ⟨i, i + 1, Nat.lt_succ_self i⟩
  else (s.onFrame fun f => { f with conditionals := f.conditionals + 1 }).advance i

/-- Reads an opening angle bracket. Behind an operand it compares, unless it opens the
type arguments of a call, of a tagged template or of a `new` expression. Elsewhere it
opens the type parameters of an arrow function or an assertion. -/
def angle (i : Nat) : Except Fault (Advance i) :=
  let arguments := typeArgumentsEnd table i
  if (s.previous i).any fun p => s.endsOperand table p && !table.is p "async" then
    match arguments with
    | some ⟨e, he⟩ =>
      if table.is e "(" || table.kind e == .template || s.followsConstructor table i then
        return s.advanceOver table ⟨i, e, he⟩
      else return s.advance i
    | none => return s.advance i
  else do
    let ⟨e, he⟩ ← table.angleEnd i
    if table.is e "(" && s.opensParameters table e then
      return s.advanceOver table ⟨i, e, he⟩
    else
      match arguments with
      | some ⟨e, he⟩ => return s.advanceOver table ⟨i, e, he⟩
      | none => throw (table.fault i .expressionExpected)

/-- Reads an exclamation mark. Directly behind an operand it asserts that a value is
there, and is removed. -/
def exclamation (i : Nat) : Erasure :=
  let glued := table.tokens[i]?.any (·.leading.isEmpty)
  if glued && (s.previous i).any (s.endsOperand table) then s.remove table i (i + 1) else s

/-- An equals sign behind a declared name starts its initial value. -/
def Frame.afterEquals (f : Frame) : Frame :=
  if f.declaration = some .afterName then { f with declaration := some .initializer } else f

/-- A comma of a variable declaration is followed by the next declared name. -/
def Frame.afterComma (f : Frame) : Frame :=
  if f.declaration = some .afterName ∨ f.declaration = some .initializer then
    { f with declaration := some .expectName }
  else f

/-- Reads the punctuator at `i`. -/
def punctuator (i : Nat) : Except Fault (Advance i) :=
  match table.text i with
  | "(" =>
    let kind := if s.opensParameters table i then .parameters else .group
    return (s.openBracket table i kind false).advance i
  | "[" => return (s.openBracket table i .square true).advance i
  | "\x7b" =>
    let kind :=
      if s.classBodies.contains i then .classBody
      else if s.opensModuleClause table i then .moduleClause
      else .block
    return (s.openBracket table i kind true).advance i
  | ")" | "]" | "\x7d" => s.closeBracket table i
  | "<" => s.angle table i
  | ":" => s.colon table i
  | "?" => return s.question table i
  | "!" => return (s.exclamation table i).advance i
  | "=" => return (s.onFrame Frame.afterEquals).advance i
  | "," => return (s.onFrame Frame.afterComma).advance i
  | ";" =>
    return (s.onFrame fun f => { f with declaration := none, conditionals := 0 }).advance i
  | _ => return s.advance i

/-- The removal of the statement that starts at `i`, if one starts there that only declares
types. -/
def removalAt (i : Nat) : Except Fault (Option (TokenTable.Removal i)) :=
  if s.startsStatement table i then table.statementRemoval i else return none

/-- Reads the token at `i`. -/
def step (i : Nat) : Except Fault (Advance i) := do
  match ← s.removalAt table i with
  | some removal => return s.advanceOver table removal
  | none =>
    match table.kind i with
    | .word => s.word table i
    | .punctuator => s.punctuator table i
    | _ => return s.advance i

/-- Reads all tokens from `i` on; removed ones are passed over. -/
def run (s : Erasure) (i : Nat) : Except Fault Erasure :=
  if h : i < table.finish then
    if s.keeps i then
      match s.step table i with
      | .error fault => .error fault
      | .ok advance => run advance.state advance.next
    else run s (i + 1)
  else .ok s
termination_by table.finish - i
decreasing_by
  · have := advance.lt
    omega
  · omega

end Erasure

/-- A token as it is written out: a removed one leaves only the line feeds in front. -/
def Token.emit (t : Token) (kept : Bool) : String :=
  if kept then t.leading ++ t.text
  else String.ofList (t.leading.toList.filter (· == '\n'))

/-- The text of the tokens of a table that are kept, in order. -/
def TokenTable.emit (table : TokenTable) (s : Erasure) : String :=
  String.join (table.tokens.mapIdx fun i t => t.emit (s.keeps i)).toList

/-- What is executed of a script written with types, or why the script is refused. -/
def eraseTypes (source : String) : Except Rejection String :=
  match tokenize source with
  | .error fault => .error (fault.inSource source)
  | .ok table =>
    match Erasure.run table (.start table) 0 with
    | .error fault => .error (fault.inSource source)
    | .ok s => .ok (table.emit s)

end Workflow.Script
