import Mathlib.Tactic.Common
import Workflow.Script.Erasure

/-!
# Types, expressions and declarations as text

The part of the language that erasure is proved about, as syntax trees with the text that
each tree is written as. Trees are written on one line, with single spaces. A tree need
not be the one that its text stands for: `a + b.c` is also the member `c` of `a + b`, so
what is proved of all trees holds however the text is grouped.
-/

namespace Workflow.Script

/-- The words that reading tokens, finding the ends of types and erasing types know. -/
def reservedWords : List String :=
  wordsBeforeRegex ++ TokenTable.typePrefixes ++ TokenTable.declarable ++ Erasure.modifiers ++
    Erasure.memberPrefixes ++ Erasure.nonOperands ++ Erasure.nonMethods ++
    ["as", "satisfies", "is", "from", "implements"]

/-- Whether a character may start a plain name. -/
def isLetter (c : Char) : Bool := c.isAlpha || c == '_' || c == '$'

/-- A name in plain letters, digits, `_` and `$` that is no reserved word. -/
structure PlainName where
  text : String
  first : Char
  rest : List Char
  text_eq : text.toList = first :: rest
  first_isLetter : isLetter first = true
  rest_isPart : ∀ c ∈ rest, (isLetter c || c.isDigit) = true
  unreserved : text ∉ reservedWords

/-- Whether a text is a plain name. -/
def isPlainName (text : String) : Bool :=
  match text.toList with
  | [] => false
  | c :: rest => isLetter c && rest.all (fun d => isLetter d || d.isDigit) &&
      !reservedWords.contains text

/-- A text as a plain name. -/
def PlainName.ofText (text : String) (h : isPlainName text = true) : PlainName :=
  match htext : text.toList with
  | [] => absurd h (by simp [isPlainName, htext])
  | c :: rest =>
    have hparts : (isLetter c = true ∧ ∀ d ∈ rest, (isLetter d || d.isDigit) = true) ∧
        text ∉ reservedWords := by
      simpa [isPlainName, htext] using h
    ⟨text, c, rest, htext, hparts.1.1, hparts.1.2, hparts.2⟩

/-- A part of a string literal. -/
inductive StringPiece where
  | plain (c : Char)
  | escaped (c : Char)

def StringPiece.characters : StringPiece → List Char
  | .plain c => [c]
  | .escaped c => ['\\', c]

/-- Whether a part may stand between the given quotes on one line. -/
def StringPiece.Fits (quote : Char) : StringPiece → Prop
  | .plain c => c ≠ quote ∧ c ≠ '\\' ∧ c ≠ '\n'
  | .escaped c => c ≠ '\n'

/-- A string literal in double or single quotes on one line. -/
structure StringLiteral where
  quote : Char
  pieces : List StringPiece
  isQuote : quote = '"' ∨ quote = '\''
  fits : ∀ p ∈ pieces, p.Fits quote

def StringLiteral.text (s : StringLiteral) : String :=
  String.ofList (s.quote :: (s.pieces.flatMap StringPiece.characters ++ [s.quote]))

/-- An integer in decimal digits. -/
structure DigitLiteral where
  first : Char
  rest : List Char
  first_isDigit : first.isDigit = true
  rest_isDigit : ∀ c ∈ rest, c.isDigit = true

def DigitLiteral.text (n : DigitLiteral) : String := String.ofList (n.first :: n.rest)

/-- A number: a digit, followed by digits, letters, `_` and `.`, and possibly by the sign and
the digits of an exponent. -/
structure NumberLiteral where
  first : Char
  rest : List Char
  exponent : List Char
  first_isDigit : first.isDigit = true
  rest_isPart : ∀ c ∈ rest, (c.isAlphanum || c == '_' || c == '.') = true
  exponent_eq : exponent = [] ∨ ∃ sign digits, exponent = sign :: digits ∧
    (sign = '+' ∨ sign = '-') ∧ (∀ c ∈ digits, c.isDigit = true) ∧
    (∃ mantissa e, rest = mantissa ++ [e] ∧ (e = 'e' ∨ e = 'E')) ∧
    ¬ (first = '0' ∧ (rest.head? = some 'x' ∨ rest.head? = some 'X'))

def NumberLiteral.text (n : NumberLiteral) : String :=
  String.ofList (n.first :: (n.rest ++ n.exponent))

/-- A word in front of a type. -/
inductive TypePrefix where
  | keyof
  | readonly
  | typeof

def TypePrefix.text : TypePrefix → String
  | .keyof => "keyof"
  | .readonly => "readonly"
  | .typeof => "typeof"

/-- An operator between types. -/
inductive TypeOperator where
  | union
  | intersection

def TypeOperator.text : TypeOperator → String
  | .union => "|"
  | .intersection => "&"

/-- A type. -/
inductive Ty where
  | name (first : PlainName) (members : List PlainName)
  | string (s : StringLiteral)
  | number (negative : Bool) (n : NumberLiteral)
  | group (T : Ty)
  | tuple (items : List Ty)
  | object (fields : List (PlainName × Ty))
  | function (parameters : List (PlainName × Ty)) (result : Ty)
  | applied (T : Ty) (first : Ty) (others : List Ty)
  | array (T : Ty)
  | indexed (T : Ty) (key : StringLiteral)
  | prefixed (word : TypePrefix) (T : Ty)
  | joined (operator : TypeOperator) (left right : Ty)

/-- Induction on types; for the types of a list each one is at hand. -/
@[elab_as_elim, induction_eliminator]
theorem Ty.induction {motive : Ty → Prop}
    (name : ∀ first members, motive (.name first members))
    (string : ∀ s, motive (.string s))
    (number : ∀ negative n, motive (.number negative n))
    (group : ∀ T, motive T → motive (.group T))
    (tuple : ∀ items, (∀ T ∈ items, motive T) → motive (.tuple items))
    (object : ∀ fields, (∀ p ∈ fields, motive p.2) → motive (.object fields))
    (function : ∀ parameters result, (∀ p ∈ parameters, motive p.2) → motive result →
      motive (.function parameters result))
    (applied : ∀ T first others, motive T → motive first → (∀ U ∈ others, motive U) →
      motive (.applied T first others))
    (array : ∀ T, motive T → motive (.array T))
    (indexed : ∀ T key, motive T → motive (.indexed T key))
    (prefixed : ∀ word T, motive T → motive (.prefixed word T))
    (joined : ∀ operator left right, motive left → motive right →
      motive (.joined operator left right)) (T : Ty) : motive T :=
  @Ty.rec motive (fun Ts => ∀ T ∈ Ts, motive T) (fun ps => ∀ p ∈ ps, motive p.2)
    (fun p => motive p.2) name string number group tuple object function applied array indexed
    prefixed joined (by simp) (fun _ _ h hs => List.forall_mem_cons.mpr ⟨h, hs⟩) (by simp)
    (fun _ _ h hs => List.forall_mem_cons.mpr ⟨h, hs⟩) (fun _ _ h => h) T

/-- The members behind the first part of a dotted name. -/
def dotted : List PlainName → String
  | [] => ""
  | x :: rest => "." ++ x.text ++ dotted rest

mutual

/-- A type as it is written. -/
def Ty.text : Ty → String
  | .name first members => first.text ++ dotted members
  | .string s => s.text
  | .number negative n => (if negative then "-" else "") ++ n.text
  | .group T => "(" ++ T.text ++ ")"
  | .tuple items => "[" ++ ", ".intercalate (Ty.texts items) ++ "]"
  | .object fields => "\x7b" ++ "; ".intercalate (Ty.fieldTexts fields) ++ "\x7d"
  | .function parameters result =>
    "(" ++ ", ".intercalate (Ty.fieldTexts parameters) ++ ") => " ++ result.text
  | .applied T first others =>
    T.text ++ "<" ++ ", ".intercalate (first.text :: Ty.texts others) ++ ">"
  | .array T => T.text ++ "[]"
  | .indexed T key => T.text ++ "[" ++ key.text ++ "]"
  | .prefixed word T => word.text ++ " " ++ T.text
  | .joined operator left right => left.text ++ " " ++ operator.text ++ " " ++ right.text

def Ty.texts : List Ty → List String
  | [] => []
  | T :: rest => T.text :: Ty.texts rest

/-- Names with their types. -/
def Ty.fieldTexts : List (PlainName × Ty) → List String
  | [] => []
  | (x, T) :: rest => (x.text ++ ": " ++ T.text) :: Ty.fieldTexts rest

end

theorem Ty.texts_eq_map (items : List Ty) : Ty.texts items = items.map Ty.text := by
  induction items with
  | nil => rfl
  | cons T items ih => rw [Ty.texts, ih, List.map_cons]

theorem Ty.fieldTexts_eq_map (fields : List (PlainName × Ty)) :
    Ty.fieldTexts fields = fields.map fun p => p.1.text ++ ": " ++ p.2.text := by
  induction fields with
  | nil => rfl
  | cons p fields ih => rw [Ty.fieldTexts, ih, List.map_cons]

/-- Whether the text of a type ends with that of a type in parentheses. -/
def Ty.endsGrouped : Ty → Bool
  | .group _ => true
  | .function _ result => result.endsGrouped
  | .prefixed _ T => T.endsGrouped
  | .joined _ _ right => right.endsGrouped
  | _ => false

/-- An operator between expressions. -/
inductive BinaryOperator where
  | add
  | subtract
  | multiply
  | and
  | or
  | nullish
  | equal

def BinaryOperator.text : BinaryOperator → String
  | .add => "+"
  | .subtract => "-"
  | .multiply => "*"
  | .and => "&&"
  | .or => "||"
  | .nullish => "??"
  | .equal => "==="

/-- An expression without types. -/
inductive Expr where
  | name (x : PlainName)
  | integer (n : DigitLiteral)
  | string (s : StringLiteral)
  | member (e : Expr) (x : PlainName)
  | call (e : Expr) (arguments : List Expr)
  | index (e key : Expr)
  | array (items : List Expr)
  | object (entries : List (PlainName × Expr))
  | group (e : Expr)
  | arrow (parameters : List PlainName) (body : Expr)
  | conditional (test yes no : Expr)
  | binary (operator : BinaryOperator) (left right : Expr)

/-- Induction on expressions; for the expressions of a list each one is at hand. -/
@[elab_as_elim, induction_eliminator]
theorem Expr.induction {motive : Expr → Prop}
    (name : ∀ x, motive (.name x))
    (integer : ∀ n, motive (.integer n))
    (string : ∀ s, motive (.string s))
    (member : ∀ e x, motive e → motive (.member e x))
    (call : ∀ e arguments, motive e → (∀ d ∈ arguments, motive d) → motive (.call e arguments))
    (index : ∀ e key, motive e → motive key → motive (.index e key))
    (array : ∀ items, (∀ e ∈ items, motive e) → motive (.array items))
    (object : ∀ entries, (∀ p ∈ entries, motive p.2) → motive (.object entries))
    (group : ∀ e, motive e → motive (.group e))
    (arrow : ∀ parameters body, motive body → motive (.arrow parameters body))
    (conditional : ∀ test yes no, motive test → motive yes → motive no →
      motive (.conditional test yes no))
    (binary : ∀ operator left right, motive left → motive right →
      motive (.binary operator left right)) (e : Expr) : motive e :=
  @Expr.rec motive (fun es => ∀ e ∈ es, motive e) (fun ps => ∀ p ∈ ps, motive p.2)
    (fun p => motive p.2) name integer string member call index array object group arrow
    conditional binary (by simp) (fun _ _ h hs => List.forall_mem_cons.mpr ⟨h, hs⟩) (by simp)
    (fun _ _ h hs => List.forall_mem_cons.mpr ⟨h, hs⟩) (fun _ _ h => h) e

mutual

/-- An expression as it is written. -/
def Expr.text : Expr → String
  | .name x => x.text
  | .integer n => n.text
  | .string s => s.text
  | .member e x => e.text ++ "." ++ x.text
  | .call e arguments => e.text ++ "(" ++ ", ".intercalate (Expr.texts arguments) ++ ")"
  | .index e key => e.text ++ "[" ++ key.text ++ "]"
  | .array items => "[" ++ ", ".intercalate (Expr.texts items) ++ "]"
  | .object entries => "\x7b" ++ ", ".intercalate (Expr.entryTexts entries) ++ "\x7d"
  | .group e => "(" ++ e.text ++ ")"
  | .arrow parameters body =>
    "(" ++ ", ".intercalate (parameters.map PlainName.text) ++ ") => " ++ body.text
  | .conditional test yes no => test.text ++ " ? " ++ yes.text ++ " : " ++ no.text
  | .binary operator left right => left.text ++ " " ++ operator.text ++ " " ++ right.text

def Expr.texts : List Expr → List String
  | [] => []
  | e :: rest => e.text :: Expr.texts rest

/-- The entries of an object literal. -/
def Expr.entryTexts : List (PlainName × Expr) → List String
  | [] => []
  | (x, e) :: rest => (x.text ++ ": " ++ e.text) :: Expr.entryTexts rest

end

theorem Expr.texts_eq_map (items : List Expr) : Expr.texts items = items.map Expr.text := by
  induction items with
  | nil => rfl
  | cons e items ih => rw [Expr.texts, ih, List.map_cons]

theorem Expr.entryTexts_eq_map (entries : List (PlainName × Expr)) :
    Expr.entryTexts entries = entries.map fun p => p.1.text ++ ": " ++ p.2.text := by
  induction entries with
  | nil => rfl
  | cons p entries ih => rw [Expr.entryTexts, ih, List.map_cons]

/-- A variable with its type and its initial value. -/
structure Variable where
  name : PlainName
  type : Ty
  value : Expr

def Variable.source (v : Variable) : String :=
  v.name.text ++ ": " ++ v.type.text ++ " = " ++ v.value.text

def Variable.erased (v : Variable) : String := v.name.text ++ " = " ++ v.value.text

/-- A parameter with its type. -/
structure Parameter where
  name : PlainName
  optional : Bool
  type : Ty

def Parameter.source (p : Parameter) : String :=
  p.name.text ++ (if p.optional then "?" else "") ++ ": " ++ p.type.text

def Parameter.erased (p : Parameter) : String := p.name.text

/-- A statement with types. -/
inductive TypedStatement where
  | binding (first : Variable) (others : List Variable)
  | function (name : PlainName) (parameters : List Parameter) (result : Ty) (value : Expr)
  | arrow (name : PlainName) (parameters : List Parameter) (result : Ty) (value : Expr)
      (ungrouped : result.endsGrouped = false)
  | assertion (name : PlainName) (value : Expr) (type : Ty)

/-- Parameters in their brackets. -/
def parameterList (f : Parameter → String) (parameters : List Parameter) : String :=
  "(" ++ ", ".intercalate (parameters.map f) ++ ")"

/-- A statement as it is written. -/
def TypedStatement.source : TypedStatement → String
  | .binding first others =>
    "let " ++ ", ".intercalate ((first :: others).map Variable.source) ++ ";"
  | .function name parameters result value =>
    "function " ++ name.text ++ parameterList Parameter.source parameters ++
      (": " ++ result.text) ++ (" \x7b return " ++ value.text ++ "; \x7d")
  | .arrow name parameters result value _ =>
    "const " ++ name.text ++ " = " ++ parameterList Parameter.source parameters ++
      (": " ++ result.text) ++ (" => " ++ value.text ++ ";")
  | .assertion name value type =>
    "const " ++ name.text ++ " = (" ++ value.text ++ (" as " ++ type.text) ++ ");"

/-- A statement without its types. -/
def TypedStatement.erased : TypedStatement → String
  | .binding first others =>
    "let " ++ ", ".intercalate ((first :: others).map Variable.erased) ++ ";"
  | .function name parameters _ value =>
    "function " ++ name.text ++ parameterList Parameter.erased parameters ++
      (" \x7b return " ++ value.text ++ "; \x7d")
  | .arrow name parameters _ value _ =>
    "const " ++ name.text ++ " = " ++ parameterList Parameter.erased parameters ++
      (" => " ++ value.text ++ ";")
  | .assertion name value _ => "const " ++ name.text ++ " = (" ++ value.text ++ ");"

/-- A list in angle brackets, which are left out with nothing between them. -/
def angled : List String → String
  | [] => ""
  | first :: others => "<" ++ ", ".intercalate (first :: others) ++ ">"

/-- A word in front of a member of a class. -/
inductive Modifier where
  | isPublic
  | isPrivate
  | isProtected
  | isReadonly
  | isStatic

def Modifier.text : Modifier → String
  | .isPublic => "public"
  | .isPrivate => "private"
  | .isProtected => "protected"
  | .isReadonly => "readonly"
  | .isStatic => "static"

/-- Whether a modifier says something about the value and not only about its type. -/
def Modifier.isKept : Modifier → Bool
  | .isStatic => true
  | _ => false

/-- The mark behind the name of a field. -/
inductive FieldMark where
  | absent
  | optional
  | definite

def FieldMark.text : FieldMark → String
  | .absent => ""
  | .optional => "?"
  | .definite => "!"

/-- A member of a class without its modifiers. -/
inductive MemberBody where
  | field (name : PlainName) (mark : FieldMark) (type : Ty)
  | initialized (name : PlainName) (mark : FieldMark) (type : Ty) (value : Expr)
  | method (name : PlainName) (typeParameters : List PlainName) (parameters : List Parameter)
      (result : Ty) (value : Expr)

def MemberBody.source : MemberBody → String
  | .field name mark type => name.text ++ (mark.text ++ (": " ++ type.text)) ++ ";"
  | .initialized name mark type value =>
    name.text ++ (mark.text ++ (": " ++ type.text)) ++ (" = " ++ value.text) ++ ";"
  | .method name typeParameters parameters result value =>
    name.text ++ angled (typeParameters.map PlainName.text) ++
      parameterList Parameter.source parameters ++ (": " ++ result.text) ++
      (" \x7b return " ++ value.text ++ "; \x7d")

def MemberBody.erased : MemberBody → String
  | .field name _ _ => name.text ++ ";"
  | .initialized name _ _ value => name.text ++ (" = " ++ value.text) ++ ";"
  | .method name _ parameters _ value =>
    name.text ++ parameterList Parameter.erased parameters ++
      (" \x7b return " ++ value.text ++ "; \x7d")

/-- The initial value of a field. -/
def MemberBody.initializer? : MemberBody → Option Expr
  | .initialized _ _ _ value => some value
  | _ => none

/-- A member of a class. -/
structure ClassMember where
  modifiers : List Modifier
  body : MemberBody

def ClassMember.source (m : ClassMember) : String :=
  String.join (m.modifiers.map fun w => w.text ++ " ") ++ m.body.source

def ClassMember.erased (m : ClassMember) : String :=
  String.join ((m.modifiers.filter Modifier.isKept).map fun w => w.text ++ " ") ++ m.body.erased

/-- A class with types. -/
structure TypedClass where
  name : PlainName
  typeParameters : List PlainName
  base : Option (PlainName × List Ty)
  interfaces : List Ty
  members : List ClassMember

/-- The class that another one extends, with its type arguments. -/
def baseSource : Option (PlainName × List Ty) → String
  | none => ""
  | some (x, Ts) => " extends " ++ x.text ++ angled (Ts.map Ty.text)

def baseErased : Option (PlainName × List Ty) → String
  | none => ""
  | some (x, _) => " extends " ++ x.text

/-- The types that a class implements. -/
def interfaceList : List Ty → String
  | [] => ""
  | T :: Ts => " implements " ++ ", ".intercalate ((T :: Ts).map Ty.text)

/-- A class as it is written. -/
def TypedClass.source (c : TypedClass) : String :=
  "class " ++ c.name.text ++ angled (c.typeParameters.map PlainName.text) ++ baseSource c.base ++
    interfaceList c.interfaces ++ " \x7b" ++
    String.join (c.members.map fun m => " " ++ m.source) ++ " \x7d"

/-- A class without its types. -/
def TypedClass.erased (c : TypedClass) : String :=
  "class " ++ c.name.text ++ baseErased c.base ++ " \x7b" ++
    String.join (c.members.map fun m => " " ++ m.erased) ++ " \x7d"

/-- The initial values of the fields of a class. -/
def TypedClass.initializers (c : TypedClass) : List Expr :=
  c.members.filterMap fun m => m.body.initializer?

end Workflow.Script
