import Schemata.Json

/-!
# Types and declarations

`TypeExpr` is the syntax of types, `Declaration` of what gives a type a name, and `SourceUnit` of a
whole file. Names are kept as the values that the document gives, so that a message can show them.
-/

namespace Schemata

/-- The predefined types that are named by a word of the language. -/
inductive Keyword where
  | string
  | number
  | boolean
  | bigint
  | any
  | unknown
  | never
  | void
  | undefined
  | object
  deriving DecidableEq, Repr

/-- The word for a predefined type. -/
def Keyword.word : Keyword → String
  | .string => "string"
  | .number => "number"
  | .boolean => "boolean"
  | .bigint => "bigint"
  | .any => "any"
  | .unknown => "unknown"
  | .never => "never"
  | .void => "void"
  | .undefined => "undefined"
  | .object => "object"

/-- All predefined types. -/
def Keyword.all : List Keyword :=
  [.string, .number, .boolean, .bigint, .any, .unknown, .never, .void, .undefined, .object]

/-- The predefined type that a word names. -/
def Keyword.ofWord? (word : String) : Option Keyword :=
  Keyword.all.find? (·.word = word)

/-- Annotations: texts by the name of their tag, in order and with distinct names. -/
abbrev Tags := List (String × String)

/-- A property of an object type or interface, with types of kind `τ`. -/
structure Member (τ : Type) where
  name : String
  type : Option τ
  optional : Bool
  readonly : Bool
  tags : Tags

/-- An index signature: the properties of any other name. -/
structure IndexSignature (τ : Type) where
  keyName : Name
  keyType : Option τ
  type : Option τ

/-- A parameter of a function type. -/
structure Parameter (τ : Type) where
  name : Name
  type : Option τ
  optional : Bool

/-- A type within a template literal and the text after it. -/
structure TemplateSpan (τ : Type) where
  type : τ
  literal : Json

/-- A type expression. -/
inductive TypeExpr where
  | keyword (keyword : Keyword)
  /-- A named type with its arguments. -/
  | reference (name : Name) (arguments : List TypeExpr)
  | literal (value : Json)
  /-- A member of an enumeration. -/
  | enumMember (enumName memberName : Name)
  | object (members : List (Member TypeExpr)) (index : Option (IndexSignature TypeExpr))
  | array (element : TypeExpr)
  /-- The remaining elements of a tuple. -/
  | spread (type : TypeExpr)
  /-- A labelled element of a tuple. -/
  | named (name : Name) (type : TypeExpr) (optional : Bool)
  | tuple (elements : List TypeExpr)
  | union (arms : List TypeExpr)
  | intersection (arms : List TypeExpr)
  | function (parameters : List (Parameter TypeExpr)) (result : TypeExpr)
  | template (head : Json) (spans : List (TemplateSpan TypeExpr))
  /-- The type of a property or element of another type. -/
  | indexed (object index : TypeExpr)
  | paren (type : TypeExpr)
  /-- A construct that has no schema. -/
  | unsupported (kind text : Json)
  deriving Inhabited

/-- The type inside all parentheses around it. -/
def TypeExpr.unwrap : TypeExpr → TypeExpr
  | .paren type => type.unwrap
  | type => type

/-- The word for the kind of a type in a message. -/
def TypeExpr.kindName : TypeExpr → String
  | .keyword _ => "KeywordType"
  | .reference _ _ => "TypeReference"
  | .literal _ => "LiteralType"
  | .enumMember _ _ => "EnumMemberType"
  | .object _ _ => "ObjectType"
  | .array _ => "ArrayType"
  | .spread _ => "RestType"
  | .named _ _ _ => "NamedTupleMember"
  | .tuple _ => "TupleType"
  | .union _ => "UnionType"
  | .intersection _ => "IntersectionType"
  | .function _ _ => "FunctionType"
  | .template _ _ => "TemplateLiteralType"
  | .indexed _ _ => "IndexedAccessType"
  | .paren _ => "ParenthesizedType"
  | .unsupported _ _ => "UnsupportedType"

/-- The first member of a given name. -/
def findMember? (members : List (Member TypeExpr)) (name : Name) : Option (Member TypeExpr) :=
  members.find? fun member => (Json.str member.name).same name

/-- A parameter of a generic declaration. -/
structure GenericParameter where
  name : Name
  bound : Option TypeExpr
  default : Option TypeExpr

/-- Which properties of an extended interface are taken over. -/
inductive Projection where
  | omit
  | pick
  deriving DecidableEq, Repr

/-- The name of the type that does the projection. -/
def Projection.typeName : Projection → String
  | .omit => "Omit"
  | .pick => "Pick"

/-- One interface that another one extends. -/
structure Heritage where
  name : Name
  projection : Option Projection
  keys : Option TypeExpr

/-- An interface. -/
structure Interface where
  name : Name
  tags : Tags
  exported : Bool
  parameters : List GenericParameter
  heritage : List Heritage
  members : List (Member TypeExpr)
  index : Option (IndexSignature TypeExpr)

/-- A type alias. -/
structure Alias where
  name : Name
  tags : Tags
  exported : Bool
  parameters : List GenericParameter
  type : TypeExpr

/-- A member of an enumeration, with its value unless that is left out. -/
structure Enumerator where
  name : Name
  initializer : Json

/-- An enumeration. -/
structure Enumeration where
  name : Name
  tags : Tags
  exported : Bool
  members : List Enumerator

/-- A declaration. -/
inductive Declaration where
  | interface (declared : Interface)
  | typeAlias (declared : Alias)
  | enumeration (declared : Enumeration)

/-- The declared name. -/
def Declaration.name : Declaration → Name
  | .interface i => i.name
  | .typeAlias a => a.name
  | .enumeration e => e.name

/-- Whether the declaration can be used from other files. -/
def Declaration.exported : Declaration → Bool
  | .interface i => i.exported
  | .typeAlias a => a.exported
  | .enumeration e => e.exported

/-- The parameters of a declaration. -/
def Declaration.parameters : Declaration → List GenericParameter
  | .interface i => i.parameters
  | .typeAlias a => a.parameters
  | .enumeration _ => []

/-- A source file: its path, its declarations and the names it imports. -/
structure SourceUnit where
  path : Json
  declarations : List Declaration
  imports : List String

/-- The first declaration of a given name. -/
def SourceUnit.find? (unit : SourceUnit) (name : Name) : Option Declaration :=
  unit.declarations.find? fun declaration => declaration.name.same name

end Schemata
