import Schemata.Binary64.Shortest
import Schemata.Json

/-!
# Writing values

`render` is the JSON text of a value, on one line, with a blank after every comma and colon.
Characters outside ASCII stand as they are; `escapeChar` says which characters do not.
-/

namespace Schemata

/-- Numbers without digits, in a JSON text. -/
def Binary64.jsonSpelling : Binary64.Spelling := ⟨"Infinity", "NaN"⟩

namespace Json

/-- The digit of a number below sixteen. -/
def hexDigit (n : Nat) : Char :=
  if n < 10 then Char.ofNat ('0'.toNat + n) else Char.ofNat ('a'.toNat + (n - 10))

/-- A character inside a string literal. -/
def escapeChar (c : Char) : List Char :=
  if c = '"' then ['\\', '"']
  else if c = '\\' then ['\\', '\\']
  else if c = '\n' then ['\\', 'n']
  else if c = '\r' then ['\\', 'r']
  else if c = '\t' then ['\\', 't']
  else if c = '\x08' then ['\\', 'b']
  else if c = '\x0c' then ['\\', 'f']
  else if c.toNat < 0x20 then
    ['\\', 'u', '0', '0', hexDigit (c.toNat / 16), hexDigit (c.toNat % 16)]
  else [c]

/-- The string literal of a text, as characters. -/
def literalChars (cs : List Char) : List Char :=
  '"' :: cs.flatMap escapeChar ++ ['"']

/-- The string literal of a text. -/
def literal (text : String) : String :=
  String.ofList (literalChars text.toList)

mutual

/-- The JSON text of a value. -/
def render : Json → String
  | .null => "null"
  | .bool true => "true"
  | .bool false => "false"
  | .int value => toString value
  | .float value => value.text Binary64.jsonSpelling
  | .str text => literal text
  | .arr items => "[" ++ ", ".intercalate (renderItems items) ++ "]"
  | .obj fields => "\x7b" ++ ", ".intercalate (renderFields fields) ++ "\x7d"

/-- The JSON texts of the items of a list. -/
def renderItems : List Json → List String
  | [] => []
  | item :: rest => render item :: renderItems rest

/-- The fields of an object, each with its key. -/
def renderFields : List (String × Json) → List String
  | [] => []
  | (key, value) :: rest => (literal key ++ ": " ++ render value) :: renderFields rest

end

end Json

end Schemata
