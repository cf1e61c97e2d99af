import Workflow.Json.Writer

/-!
# Types of example values

Script authors are shown types that are read off example values. A type is a
primitive one, a named interface, an array or a union; an interface lists fields,
each of which may be optional. The text of the declarations is an editing aid.
-/

namespace Workflow.Script

/-- The types that have no parts. -/
inductive Primitive where
  | string
  | number
  | boolean
  /-- The type of every value. -/
  | any
  deriving DecidableEq, Repr

/-- A type in a declaration. -/
inductive Shape where
  /-- A type that has no parts. -/
  | primitive (p : Primitive)
  /-- An interface under its name. -/
  | named (name : String)
  /-- An array of items of one type. -/
  | array (item : Shape)
  /-- A choice between types. -/
  | union (members : List Shape)
  deriving Repr

instance : Inhabited Shape := ⟨.primitive .any⟩

/-- A field of an interface. -/
structure Field where
  /-- The key of the values. -/
  key : String
  /-- The type of the values. -/
  shape : Shape
  /-- Whether the key may be missing. -/
  optional : Bool
  deriving Repr

/-- Fields under a name. -/
structure Interface where
  /-- The name that types refer to. -/
  name : String
  /-- The fields in order. -/
  fields : List Field
  deriving Repr

/-- What is declared for one example value. -/
structure Declarations where
  /-- The name declared for the value. -/
  root : String
  /-- The type that the name stands for, if it is not the name of an interface. -/
  aliased : Option Shape
  /-- The interfaces, each before the ones that first occur in its fields. -/
  interfaces : List Interface
  deriving Repr

/-- The name of a primitive type. -/
def Primitive.name : Primitive → String
  | .string => "string"
  | .number => "number"
  | .boolean => "boolean"
  | .any => "any"

/-- Whether a type has to be put in brackets as the item of an array. -/
def Shape.isUnion : Shape → Bool
  | .union _ => true
  | _ => false

mutual

/-- The text of a type. -/
def Shape.render : Shape → String
  | .primitive p => p.name
  | .named name => name
  | .array item => if item.isUnion then "(" ++ item.render ++ ")[]" else item.render ++ "[]"
  | .union members => " | ".intercalate (renderMembers members)

/-- The texts of the members of a union. -/
def Shape.renderMembers : List Shape → List String
  | [] => []
  | member :: rest => member.render :: renderMembers rest

end

/-- Whether a character may start the key of a field that is written without quotes. -/
def isKeyStart (c : Char) : Bool := c.isAlpha || c == '_' || c == '$'

/-- Whether a character may continue such a key. -/
def isKeyPart (c : Char) : Bool := c.isAlphanum || c == '_' || c == '$'

/-- The key of a field as it is declared: an ASCII identifier stands for itself, and any
other key is quoted. -/
def renderKey (key : String) : String :=
  match key.toList with
  | c :: rest => if isKeyStart c && rest.all isKeyPart then key else (Json.string key).compact
  | [] => (Json.string key).compact

/-- The line of a field. -/
def Field.render (f : Field) : String :=
  "  " ++ renderKey f.key ++ (if f.optional then "?" else "") ++ ": " ++ f.shape.render ++ ";\n"

/-- The declaration of an interface. -/
def Interface.render (i : Interface) : String :=
  "interface " ++ i.name ++ " \x7b\n" ++ String.join (i.fields.map Field.render) ++ "\x7d\n"

/-- The text of all declarations, with an empty line between two of them. -/
def Declarations.render (d : Declarations) : String :=
  let heading := d.aliased.map fun shape => "type " ++ d.root ++ " = " ++ shape.render ++ ";\n"
  "\n".intercalate (heading.toList ++ d.interfaces.map Interface.render)

end Workflow.Script
