import Schemata.Json

/-!
# Schema expressions

`Schema` is the syntax of the expressions that build validators: calls on the validator namespace,
names of other schemas, literals and paths. A modifier is a call on the expression before it;
`Schema.base` and `Schema.modifiers` take a chain of modifiers apart.
-/

namespace Schemata

/-- A schema expression. -/
inductive Schema where
  /-- A call on the validator namespace. -/
  | call (name : String) (arguments : List Schema)
  /-- A schema that is defined under a name. -/
  | reference (name : Name)
  /-- An object literal. -/
  | object (entries : List (String × Schema))
  /-- An array literal. -/
  | array (items : List Schema)
  /-- A plain value. -/
  | value (value : Json)
  /-- A regular-expression literal. -/
  | regex (pattern : Json)
  /-- A name that is not one of a schema. -/
  | symbol (name : Name)
  /-- A call of a function that stands beside the schemas. -/
  | helper (name : String) (arguments : List Schema)
  /-- A path of properties from another expression. -/
  | field (target : Option Schema) (path : String)
  /-- Source text that stands after the validator namespace. -/
  | verbatim (text : String)
  /-- An expression without a form. -/
  | blank
  /-- A call on the expression before it. A raw one stands as it is written, without arguments. -/
  | modified (receiver : Schema) (name : String) (arguments : List Schema) (raw : Bool)
  deriving Inhabited

/-- A call that is made on a schema. -/
structure Modifier where
  name : String
  arguments : List Schema := []
  raw : Bool := false

namespace Schema

/-- The schema with one more modifier. -/
def modify (schema : Schema) (modifier : Modifier) : Schema :=
  .modified schema modifier.name modifier.arguments modifier.raw

/-- The schema with more modifiers, in order. -/
def withModifiers (schema : Schema) (modifiers : List Modifier) : Schema :=
  modifiers.foldl modify schema

/-- The expression that all modifiers stand on. -/
def base : Schema → Schema
  | .modified receiver _ _ _ => receiver.base
  | schema => schema

/-- The modifiers of an expression, in order. -/
def modifiers : Schema → List Modifier
  | .modified receiver name arguments raw => receiver.modifiers ++ [⟨name, arguments, raw⟩]
  | _ => []

/-- A call with modifiers. -/
def combinator (name : String) (arguments : List Schema) (modifiers : List Modifier) : Schema :=
  (Schema.call name arguments).withModifiers modifiers

/-- The keys of an object literal, in order. -/
def keys (entries : List (String × Schema)) : List String :=
  entries.map (·.1)

/-- The first entry of a key in an object literal. -/
def entry? (entries : List (String × Schema)) (key : String) : Option Schema :=
  (entries.find? (·.1 = key)).map (·.2)

@[simp]
theorem withModifiers_nil (schema : Schema) : schema.withModifiers [] = schema := rfl

@[simp]
theorem withModifiers_cons (schema : Schema) (first : Modifier) (rest : List Modifier) :
    schema.withModifiers (first :: rest) = (schema.modify first).withModifiers rest := rfl

/-- Appending modifiers is appending them one list after the other. -/
theorem withModifiers_append (schema : Schema) (first second : List Modifier) :
    schema.withModifiers (first ++ second) =
      (schema.withModifiers first).withModifiers second := by
  simp [withModifiers]

@[simp]
theorem base_modify (schema : Schema) (modifier : Modifier) :
    (schema.modify modifier).base = schema.base := rfl

@[simp]
theorem modifiers_modify (schema : Schema) (modifier : Modifier) :
    (schema.modify modifier).modifiers = schema.modifiers ++ [modifier] := rfl

/-- Modifiers do not change what they stand on. -/
@[simp]
theorem base_withModifiers (schema : Schema) (added : List Modifier) :
    (schema.withModifiers added).base = schema.base := by
  induction added generalizing schema with
  | nil => rfl
  | cons first rest ih => simp [ih]

/-- The modifiers of a schema are those it had and those it was given. -/
@[simp]
theorem modifiers_withModifiers (schema : Schema) (added : List Modifier) :
    (schema.withModifiers added).modifiers = schema.modifiers ++ added := by
  induction added generalizing schema with
  | nil => simp
  | cons first rest ih => simp [ih]

end Schema

end Schemata
