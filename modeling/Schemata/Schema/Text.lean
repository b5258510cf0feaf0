import Schemata.Failure
import Schemata.Identifier
import Schemata.Json.Writer
import Schemata.Schema

/-!
# The text of a schema expression

`Schema.text` writes an expression on one line. The validator namespace has a name of choice. A name
that is not a text and an expression without a form cannot be written.
-/

namespace Schemata.Schema

/-- A property name: bare if it is an identifier, otherwise as a string literal. -/
def keyText (key : String) : String :=
  if Identifier.isIdentifier key then key else Json.literal key

/-- The text of a modifier whose arguments are written. -/
def modifierText (name : String) (raw : Bool) (arguments : List String) : String :=
  if raw then "." ++ name else "." ++ name ++ "(" ++ ", ".intercalate arguments ++ ")"

mutual

/-- The text of an expression. -/
def text (z : String) : Schema → Except Failure String
  | .call name arguments => do
    return z ++ "." ++ name ++ "(" ++ ", ".intercalate (← texts z arguments) ++ ")"
  | .reference name => Failure.lift name.text
  | .object [] => .ok "\x7b\x7d"
  | .object (first :: rest) => do
    return "\x7b " ++ ", ".intercalate (← entryTexts z (first :: rest)) ++ " \x7d"
  | .array items => do return "[" ++ ", ".intercalate (← texts z items) ++ "]"
  | .value content => .ok content.render
  | .regex pattern => .ok ("/" ++ pattern.display ++ "/")
  | .symbol name => Failure.lift name.text
  | .helper name arguments => do
    return name ++ "(" ++ ", ".intercalate (← texts z arguments) ++ ")"
  | .field none _ => .error (.render (.noSourceForm "NoneType"))
  | .field (some target) path => do return (← text z target) ++ "." ++ path
  | .verbatim source => .ok (z ++ "." ++ source)
  | .blank => .error (.render (.noSourceForm "SchemaExpr"))
  | .modified receiver name _ true => do
    return (← text z receiver) ++ modifierText name true []
  | .modified receiver name arguments false => do
    let receiverText ← text z receiver
    return receiverText ++ modifierText name false (← texts z arguments)

/-- The texts of expressions. -/
def texts (z : String) : List Schema → Except Failure (List String)
  | [] => .ok []
  | schema :: rest => do
    let first ← text z schema
    return first :: (← texts z rest)

/-- The entries of an object literal, each with its key. -/
def entryTexts (z : String) : List (String × Schema) → Except Failure (List String)
  | [] => .ok []
  | (key, schema) :: rest => do
    let first ← text z schema
    return (keyText key ++ ": " ++ first) :: (← entryTexts z rest)

end

end Schemata.Schema
