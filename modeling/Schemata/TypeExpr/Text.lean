import Schemata.Json.Display
import Schemata.TypeExpr

/-!
# The text of a type

`TypeExpr.text` writes a type as it is written in a source file, for use in messages. The text of a
reference or an unsupported construct is the value that the document gives, so it may be another
value than a text; such a value can be shown in a message but not be joined with other texts.
-/

namespace Schemata

/-- The mark after the name of something that may be left out. -/
def optionalMark (optional : Bool) : String :=
  if optional then "?" else ""

/-- The text of a literal type. -/
def literalTypeText : Json → String
  | .null => "null"
  | .bool value => if value then "true" else "false"
  | .str text => "\"" ++ text ++ "\""
  | value => value.display

mutual

/-- The text of a type. -/
def TypeExpr.text : TypeExpr → Except Fault Json
  | .keyword k => .ok (.str k.word)
  | .reference name [] => .ok name
  | .reference name (first :: rest) => do
    let arguments ← TypeExpr.texts (first :: rest)
    return .str (name.display ++ "<" ++ ", ".intercalate arguments ++ ">")
  | .literal value => .ok (.str (literalTypeText value))
  | .enumMember enumName memberName =>
    .ok (.str (enumName.display ++ "." ++ memberName.display))
  | .object members none => do
    let parts ← TypeExpr.memberTexts members
    return .str (if parts.isEmpty then "\x7b\x7d"
      else "\x7b " ++ "; ".intercalate parts ++ " \x7d")
  | .object members (some ⟨keyName, keyType, type⟩) => do
    let parts ← TypeExpr.memberTexts members
    let key ← TypeExpr.optionText keyType
    let value ← TypeExpr.optionText type
    let signature :=
      "[" ++ keyName.display ++ ": " ++ key.display ++ "]: " ++ value.display
    return .str ("\x7b " ++ "; ".intercalate (parts ++ [signature]) ++ " \x7d")
  | .array element => do return .str ((← element.text).display ++ "[]")
  | .spread type => do return .str ("..." ++ (← type.text).display)
  | .named name type optional => do
    return .str (name.display ++ optionalMark optional ++ ": " ++ (← type.text).display)
  | .tuple elements => do
    return .str ("[" ++ ", ".intercalate (← TypeExpr.texts elements) ++ "]")
  | .union arms => do return .str (" | ".intercalate (← TypeExpr.texts arms))
  | .intersection arms => do return .str (" & ".intercalate (← TypeExpr.texts arms))
  | .function parameters result => do
    let texts ← TypeExpr.parameterTexts parameters
    return .str ("(" ++ ", ".intercalate texts ++ ") => " ++ (← result.text).display)
  | .template head spans => do
    return .str ("`" ++ head.display ++ String.join (← TypeExpr.spanTexts spans) ++ "`")
  | .indexed base index => do
    let baseText ← base.text
    return .str (baseText.display ++ "[" ++ (← index.text).display ++ "]")
  | .paren type => do return .str ("(" ++ (← type.text).display ++ ")")
  | .unsupported kind text => .ok (if text.truthy then text else kind)

/-- The text of a type that may be left out. -/
def TypeExpr.optionText : Option TypeExpr → Except Fault Json
  | none => .ok (.str "any")
  | some type => type.text

/-- The texts of types that are joined. -/
def TypeExpr.texts : List TypeExpr → Except Fault (List String)
  | [] => .ok []
  | type :: rest => do
    let value ← type.text
    let first ← value.text
    return first :: (← TypeExpr.texts rest)

/-- The texts of the members of an object type. -/
def TypeExpr.memberTexts : List (Member TypeExpr) → Except Fault (List String)
  | [] => .ok []
  | ⟨name, type, optional, _, _⟩ :: rest => do
    let value ← TypeExpr.optionText type
    let first := name ++ optionalMark optional ++ ": " ++ value.display
    return first :: (← TypeExpr.memberTexts rest)

/-- The texts of the parameters of a function type. -/
def TypeExpr.parameterTexts : List (Parameter TypeExpr) → Except Fault (List String)
  | [] => .ok []
  | ⟨name, type, optional⟩ :: rest => do
    let value ← TypeExpr.optionText type
    let first := name.display ++ optionalMark optional ++ ": " ++ value.display
    return first :: (← TypeExpr.parameterTexts rest)

/-- The texts of the spans of a template literal type. -/
def TypeExpr.spanTexts : List (TemplateSpan TypeExpr) → Except Fault (List String)
  | [] => .ok []
  | ⟨type, after⟩ :: rest => do
    let value ← type.text
    let first := "$\x7b" ++ value.display ++ "\x7d" ++ after.display
    return first :: (← TypeExpr.spanTexts rest)

end

end Schemata
