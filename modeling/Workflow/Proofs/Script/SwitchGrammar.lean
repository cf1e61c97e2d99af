import Workflow.Proofs.Script.Grammar

/-!
# Switch statements as text

Functions whose body is a switch statement without types, as syntax trees with the text that
each tree is written as, on one line and with single spaces. The `)` of a case and the colon
behind it look like the end of parameters with a result type. What follows the colon is then
read as that type, and the word in front of an object literal passes for one. The text that
such a function is erased to is written down here beside the text that it has.
-/

namespace Workflow.Script

/-- An expression of a switch statement. -/
inductive PlainExpr where
  | name (x : PlainName)
  | number (n : NumberLiteral)
  | string (s : StringLiteral)
  | member (e : PlainExpr) (x : PlainName)
  | call (e : PlainExpr) (arguments : List PlainExpr)
  | array (items : List PlainExpr)
  | object (entries : List (PlainName × PlainExpr))
  | group (e : PlainExpr)
  | conditional (test yes no : PlainExpr)

/-- Induction on expressions; for the expressions of a list each one is at hand. -/
@[elab_as_elim, induction_eliminator]
theorem PlainExpr.induction {motive : PlainExpr → Prop}
    (name : ∀ x, motive (.name x))
    (number : ∀ n, motive (.number n))
    (string : ∀ s, motive (.string s))
    (member : ∀ e x, motive e → motive (.member e x))
    (call : ∀ e arguments, motive e → (∀ d ∈ arguments, motive d) → motive (.call e arguments))
    (array : ∀ items, (∀ e ∈ items, motive e) → motive (.array items))
    (object : ∀ entries, (∀ p ∈ entries, motive p.2) → motive (.object entries))
    (group : ∀ e, motive e → motive (.group e))
    (conditional : ∀ test yes no, motive test → motive yes → motive no →
      motive (.conditional test yes no)) (e : PlainExpr) : motive e :=
  @PlainExpr.rec motive (fun es => ∀ e ∈ es, motive e) (fun ps => ∀ p ∈ ps, motive p.2)
    (fun p => motive p.2) name number string member call array object group conditional
    (by simp) (fun _ _ h hs => List.forall_mem_cons.mpr ⟨h, hs⟩) (by simp)
    (fun _ _ h hs => List.forall_mem_cons.mpr ⟨h, hs⟩) (fun _ _ h => h) e

mutual

/-- An expression as it is written. -/
def PlainExpr.text : PlainExpr → String
  | .name x => x.text
  | .number n => n.text
  | .string s => s.text
  | .member e x => e.text ++ "." ++ x.text
  | .call e arguments => e.text ++ "(" ++ ", ".intercalate (PlainExpr.texts arguments) ++ ")"
  | .array items => "[" ++ ", ".intercalate (PlainExpr.texts items) ++ "]"
  | .object entries => "\x7b" ++ ", ".intercalate (PlainExpr.entryTexts entries) ++ "\x7d"
  | .group e => "(" ++ e.text ++ ")"
  | .conditional test yes no => test.text ++ " ? " ++ yes.text ++ " : " ++ no.text

def PlainExpr.texts : List PlainExpr → List String
  | [] => []
  | e :: rest => e.text :: PlainExpr.texts rest

/-- The entries of an object literal. -/
def PlainExpr.entryTexts : List (PlainName × PlainExpr) → List String
  | [] => []
  | (x, e) :: rest => (x.text ++ ": " ++ e.text) :: PlainExpr.entryTexts rest

end

theorem PlainExpr.texts_eq_map (items : List PlainExpr) :
    PlainExpr.texts items = items.map PlainExpr.text := by
  induction items with
  | nil => rfl
  | cons e items ih => rw [PlainExpr.texts, ih, List.map_cons]

theorem PlainExpr.entryTexts_eq_map (entries : List (PlainName × PlainExpr)) :
    PlainExpr.entryTexts entries = entries.map fun p => p.1.text ++ ": " ++ p.2.text := by
  induction entries with
  | nil => rfl
  | cons p entries ih => rw [PlainExpr.entryTexts, ih, List.map_cons]

/-- What the text of an expression ends with. -/
inductive Ending where
  | name
  | number
  | other
  deriving DecidableEq

/-- A point and a name behind a number belong to the number, up to the first `$` of the name. -/
def Ending.member : Ending → PlainName → Ending
  | .number, x => if '$' ∈ x.text.toList then .name else .number
  | _, _ => .name

theorem Ending.member_ne_other (a : Ending) (x : PlainName) : a.member x ≠ .other := by
  cases a with
  | name => exact nofun
  | number =>
    rw [Ending.member]
    split <;> decide
  | other => exact nofun

def PlainExpr.ending : PlainExpr → Ending
  | .name _ => .name
  | .number _ => .number
  | .member e x => e.ending.member x
  | .conditional _ _ no => no.ending
  | _ => .other

/-- Whether the text of an expression starts with an object literal. -/
def PlainExpr.startsObject : PlainExpr → Bool
  | .object _ => true
  | .member e _ => e.startsObject
  | .call e _ => e.startsObject
  | .conditional test _ _ => test.startsObject
  | _ => false

/-- What a clause of a switch statement compares with. -/
inductive Label where
  | name (x : PlainName)
  | number (n : NumberLiteral)
  | string (s : StringLiteral)
  | member (e : PlainExpr) (x : PlainName)
  | call (e : PlainExpr) (arguments : List PlainExpr)

def Label.expr : Label → PlainExpr
  | .name x => .name x
  | .number n => .number n
  | .string s => .string s
  | .member e x => .member e x
  | .call e arguments => .call e arguments

/-- Whether a name stands in front of the brackets at the end, as in front of the parameters of
a method. -/
def Label.endsLikeMethod : Label → Bool
  | .call e _ => e.ending == .name
  | _ => false

/-- A statement of a clause. -/
inductive PlainStatement where
  | result (e : PlainExpr)
  | leave
  | call (e : PlainExpr) (arguments : List PlainExpr)

/-- A clause of a switch statement. -/
structure Clause where
  label : Label
  body : List PlainStatement

/-- A function `function f(x) { switch (e) { case e1: S1 .. case en: Sn } }`. -/
structure SwitchFunction where
  name : PlainName
  parameter : PlainName
  subject : PlainExpr
  clauses : List Clause

/-- The parts of the body of a switch statement. -/
inductive SwitchPart where
  | label (l : Label)
  | statement (d : PlainStatement)

def Clause.parts (c : Clause) : List SwitchPart := .label c.label :: c.body.map .statement

def SwitchFunction.parts (d : SwitchFunction) : List SwitchPart := d.clauses.flatMap Clause.parts

/-- The word that a part with an expression starts with. -/
def SwitchPart.word : SwitchPart → String
  | .label _ => " case"
  | .statement (.result _) => " return"
  | .statement _ => ""

/-- A part without that word and without the colon of a label. -/
def SwitchPart.middle : SwitchPart → String
  | .label l => " " ++ l.expr.text
  | .statement (.result e) => " " ++ e.text ++ ";"
  | .statement .leave => " break;"
  | .statement (.call e arguments) => " " ++ (PlainExpr.call e arguments).text ++ ";"

/-- The colon of a label. -/
def SwitchPart.colon : SwitchPart → String
  | .label _ => ":"
  | .statement _ => ""

/-- The parts as they are written, each with a space in front. -/
def partsText : List SwitchPart → String
  | [] => ""
  | p :: ps => p.word ++ p.middle ++ p.colon ++ partsText ps

/-- Whether an object literal stands directly behind the word of the part. -/
def SwitchPart.showsObject : SwitchPart → Bool
  | .label l => l.expr.startsObject
  | .statement (.result e) => e.startsObject
  | .statement _ => false

/-- Whether the colon of the part and the word behind it are read as a result type. -/
def SwitchPart.misread : SwitchPart → List SwitchPart → Bool
  | .label l, behind => l.endsLikeMethod && behind.head?.any SwitchPart.showsObject
  | .statement _, _ => false

/-- The parts as erasure leaves them, if the word of the first one has been read as a type or
not. -/
def erasedParts : Bool → List SwitchPart → String
  | _, [] => ""
  | taken, p :: ps =>
    (if taken then "" else p.word) ++ p.middle ++ (if p.misread ps then "" else p.colon) ++
      erasedParts (p.misread ps) ps

/-- The text in front of the parts. -/
def SwitchFunction.heading (d : SwitchFunction) : String :=
  "function " ++ d.name.text ++ "(" ++ d.parameter.text ++ ") \x7b switch (" ++ d.subject.text ++
    ") \x7b"

/-- The function as it is written. -/
def SwitchFunction.source (d : SwitchFunction) : String :=
  d.heading ++ partsText d.parts ++ " \x7d \x7d"

/-- The function as erasure leaves it. -/
def SwitchFunction.erased (d : SwitchFunction) : String :=
  d.heading ++ erasedParts false d.parts ++ " \x7d \x7d"

/-- Nothing is added to the parts. -/
theorem length_erasedParts_le (taken : Bool) (ps : List SwitchPart) :
    (erasedParts taken ps).length ≤ (partsText ps).length := by
  induction ps generalizing taken with
  | nil => exact Nat.le_refl _
  | cons p ps ih =>
    have hrest := ih (p.misread ps)
    have hword : (if taken then "" else p.word).length ≤ p.word.length := by
      split <;> simp
    have hcolon : (if p.misread ps then "" else p.colon).length ≤ p.colon.length := by
      split <;> simp
    simp only [erasedParts, partsText, String.length_append]
    omega

/-- A part that is misread is a label, which loses its colon. -/
theorem SwitchPart.colon_of_misread {p : SwitchPart} {ps : List SwitchPart}
    (h : p.misread ps = true) : p.colon = ":" := by
  cases p with
  | label l => rfl
  | statement d => cases h

/-- The parts are left as they are if none of them is misread, and only then. -/
theorem erasedParts_eq_iff (ps : List SwitchPart) : erasedParts false ps = partsText ps ↔
    ∀ before p behind, ps = before ++ p :: behind → p.misread behind = false := by
  induction ps with
  | nil => simp [erasedParts, partsText]
  | cons p ps ih =>
    have hsplit : (∀ before q behind, p :: ps = before ++ q :: behind → q.misread behind = false) ↔
        p.misread ps = false ∧
          ∀ before q behind, ps = before ++ q :: behind → q.misread behind = false := by
      constructor
      · intro h
        refine ⟨h [] p ps rfl, fun before q behind heq => h (p :: before) q behind ?_⟩
        rw [heq, List.cons_append]
      · rintro ⟨hp, hps⟩ before q behind heq
        rcases List.cons_eq_append_iff.mp heq with ⟨-, heq⟩ | ⟨before, -, heq⟩
        · cases heq
          exact hp
        · exact hps before q behind heq
    rw [hsplit, ← ih]
    cases hp : p.misread ps with
    | false => simp [erasedParts, partsText, hp]
    | true =>
      refine iff_of_false (fun heq => ?_) (by simp)
      have hlength := congrArg String.length heq
      have hle := length_erasedParts_le true ps
      simp only [erasedParts, partsText, hp, SwitchPart.colon_of_misread hp, if_true,
        String.length_append, Bool.false_eq_true, if_false] at hlength
      have hempty : "".length = 0 := rfl
      have hcolon : ":".length = 1 := rfl
      omega

end Workflow.Script
