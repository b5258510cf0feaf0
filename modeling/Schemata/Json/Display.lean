import Schemata.Binary64.Shortest
import Schemata.Json
import Schemata.Text.Printable

/-!
# The display text of a value

`display` is how a value appears inside a message or where a text is made of it: a text is itself,
and any other value is shown by `quoted`, in which texts have quotes.
-/

namespace Schemata

/-- Numbers without digits, in a display text. -/
def Binary64.displaySpelling : Binary64.Spelling := ⟨"inf", "nan"⟩

namespace Json

/-- A number in hexadecimal with at least a given number of digits. -/
def hex (width n : Nat) : List Char :=
  let digits := Nat.toDigits 16 n
  List.replicate (width - digits.length) '0' ++ digits

/-- A character between quotes. What cannot be shown is given by its number. -/
def quoteChar (quote c : Char) : List Char :=
  if c = quote ∨ c = '\\' then ['\\', c]
  else if c = '\n' then ['\\', 'n']
  else if c = '\r' then ['\\', 'r']
  else if c = '\t' then ['\\', 't']
  else if Text.isPrintable c then [c]
  else if c.toNat < 0x100 then '\\' :: 'x' :: hex 2 c.toNat
  else if c.toNat < 0x10000 then '\\' :: 'u' :: hex 4 c.toNat
  else '\\' :: 'U' :: hex 8 c.toNat

/-- A text between quotes: single ones, unless only these occur in the text. -/
def quoteText (text : String) : String :=
  let cs := text.toList
  let quote := if cs.contains '\'' && !cs.contains '"' then '"' else '\''
  String.ofList (quote :: cs.flatMap (quoteChar quote) ++ [quote])

mutual

/-- A value as it is shown inside another one. -/
def quoted : Json → String
  | .null => "None"
  | .bool true => "True"
  | .bool false => "False"
  | .int value => toString value
  | .float value => value.text Binary64.displaySpelling
  | .str text => quoteText text
  | .arr items => "[" ++ ", ".intercalate (quotedItems items) ++ "]"
  | .obj fields => "\x7b" ++ ", ".intercalate (quotedFields fields) ++ "\x7d"

/-- The items of a list as they are shown. -/
def quotedItems : List Json → List String
  | [] => []
  | item :: rest => quoted item :: quotedItems rest

/-- The fields of an object as they are shown. -/
def quotedFields : List (String × Json) → List String
  | [] => []
  | (key, value) :: rest => (quoteText key ++ ": " ++ quoted value) :: quotedFields rest

end

/-- The text of a value in a message. -/
def display : Json → String
  | .str text => text
  | value => value.quoted

end Json

end Schemata
