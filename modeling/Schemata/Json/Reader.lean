import Schemata.Text.Number

/-!
# Reading values

`parse` reads a JSON text. It also takes `NaN`, `Infinity` and `-Infinity` as numbers. When a key
occurs twice in an object, the later value is kept in the place of the earlier one. A number with a
fraction or an exponent is of double precision, any other is an integer. The first thing that is
wrong, in reading order, is reported as a `ReadError`.
-/

namespace Schemata.Json

/-- Why a text spells no value. -/
inductive ReadError where
  | malformed
  /-- An integer has more digits than an integer may have. -/
  | longInteger
  deriving DecidableEq, Repr

/-- The result of a reader, which has to give one. -/
def ReadError.require {α : Type} : Option α → Except ReadError α
  | some value => .ok value
  | none => .error .malformed

/-- Whether the character may stand between two tokens. -/
def isSpace (c : Char) : Bool :=
  c = ' ' || c = '\t' || c = '\n' || c = '\r'

/-- The characters after the blanks at their start. -/
def skipSpace (cs : List Char) : List Char :=
  cs.dropWhile isSpace

/-- The value of a hexadecimal digit. -/
def hexValue? (c : Char) : Option Nat :=
  if c.isDigit then some (c.toNat - '0'.toNat)
  else if 'a' ≤ c ∧ c ≤ 'f' then some (c.toNat - 'a'.toNat + 10)
  else if 'A' ≤ c ∧ c ≤ 'F' then some (c.toNat - 'A'.toNat + 10)
  else none

/-- The value of four hexadecimal digits. -/
def hexUnit? (a b c d : Char) : Option Nat := do
  return (((← hexValue? a) * 16 + (← hexValue? b)) * 16 + (← hexValue? c)) * 16 + (← hexValue? d)

/-- The character that a letter after a backslash stands for. -/
def unescape? (c : Char) : Option Char :=
  if c = '"' ∨ c = '\\' ∨ c = '/' then some c
  else if c = 'b' then some '\x08'
  else if c = 'f' then some '\x0c'
  else if c = 'n' then some '\n'
  else if c = 'r' then some '\r'
  else if c = 't' then some '\t'
  else none

/-- The code units of a string literal up to its closing quote, and what follows the quote. -/
def readUnits : List Char → Option (List Nat × List Char)
  | [] => none
  | '"' :: rest => some ([], rest)
  | '\\' :: 'u' :: a :: b :: c :: d :: rest =>
    match hexUnit? a b c d with
    | none => none
    | some unit => (readUnits rest).map fun (units, after) => (unit :: units, after)
  | '\\' :: c :: rest =>
    match unescape? c with
    | none => none
    | some plain => (readUnits rest).map fun (units, after) => (plain.toNat :: units, after)
  | c :: rest =>
    if c.toNat < 0x20 ∨ c = '\\' then none
    else (readUnits rest).map fun (units, after) => (c.toNat :: units, after)

/-- The character of a code unit; half of a pair has none and is marked as such. -/
def unitChar (unit : Nat) : Char :=
  if 0xd800 ≤ unit ∧ unit < 0xe000 then Char.ofNat 0xfffd else Char.ofNat unit

/-- The characters of a list of code units, in which two units may make one character. -/
def joinUnits : List Nat → List Char
  | [] => []
  | [unit] => [unitChar unit]
  | high :: low :: rest =>
    if (0xd800 ≤ high ∧ high < 0xdc00) ∧ (0xdc00 ≤ low ∧ low < 0xe000) then
      Char.ofNat (0x10000 + (high - 0xd800) * 0x400 + (low - 0xdc00)) :: joinUnits rest
    else unitChar high :: joinUnits (low :: rest)

/-- A text whose opening quote has been read. -/
def readText (cs : List Char) : Option (String × List Char) :=
  (readUnits cs).map fun (units, rest) => (String.ofList (joinUnits units), rest)

/-- The fraction of a number: the digits after a point. -/
def readFraction : List Char → List Char × List Char
  | '.' :: c :: rest =>
    if c.isDigit then (c :: rest.takeWhile Char.isDigit, rest.dropWhile Char.isDigit)
    else ([], '.' :: c :: rest)
  | cs => ([], cs)

/-- The exponent of a number, if there is one. -/
def readScale (cs : List Char) : Option Int × List Char :=
  match cs with
  | c :: rest =>
    if c = 'e' ∨ c = 'E' then
      let (negative, body) := Text.splitSign rest
      let digits := body.takeWhile Char.isDigit
      if digits.isEmpty then (none, cs)
      else (some (Text.signed negative (Text.digitsValue digits)), body.dropWhile Char.isDigit)
    else (none, cs)
  | [] => (none, cs)

/-- The whole part of a number: a zero, or digits that start with no zero. -/
def readWhole : List Char → Option (List Char × List Char)
  | '0' :: rest => some (['0'], rest)
  | c :: rest =>
    if c.isDigit then some (c :: rest.takeWhile Char.isDigit, rest.dropWhile Char.isDigit)
    else none
  | [] => none

/-- A number whose sign has been read. -/
def readNumber (negative : Bool) (cs : List Char) : Except ReadError (Json × List Char) := do
  let (whole, rest) ← ReadError.require (readWhole cs)
  let (fraction, rest) := readFraction rest
  let (scale, rest) := readScale rest
  if fraction.isEmpty && scale.isNone then
    if Text.maxIntegerDigits < whole.length then throw .longInteger
    else return (.int (Text.signed negative (Text.digitsValue whole)), rest)
  else return (.float (Text.decimal negative whole fraction (scale.getD 0)), rest)

/-- A word, a number or the opening of a text. -/
def readScalar : List Char → Except ReadError (Json × List Char)
  | 'n' :: 'u' :: 'l' :: 'l' :: rest => .ok (.null, rest)
  | 't' :: 'r' :: 'u' :: 'e' :: rest => .ok (.bool true, rest)
  | 'f' :: 'a' :: 'l' :: 's' :: 'e' :: rest => .ok (.bool false, rest)
  | 'N' :: 'a' :: 'N' :: rest => .ok (.float .nan, rest)
  | 'I' :: 'n' :: 'f' :: 'i' :: 'n' :: 'i' :: 't' :: 'y' :: rest =>
    .ok (.float (.infinite false), rest)
  | '-' :: 'I' :: 'n' :: 'f' :: 'i' :: 'n' :: 'i' :: 't' :: 'y' :: rest =>
    .ok (.float (.infinite true), rest)
  | '"' :: rest => do
    let (text, after) ← ReadError.require (readText rest)
    return (.str text, after)
  | '-' :: rest => readNumber true rest
  | cs => readNumber false cs

mutual

/-- A value at the start of the characters, and what follows it. -/
def readValue : Nat → List Char → Except ReadError (Json × List Char)
  | 0, _ => .error .malformed
  | fuel + 1, '[' :: rest =>
    match skipSpace rest with
    | ']' :: after => .ok (.arr [], after)
    | cs => do
      let (items, after) ← readItems fuel cs
      return (.arr items, after)
  | fuel + 1, '\x7b' :: rest =>
    match skipSpace rest with
    | '\x7d' :: after => .ok (.obj [], after)
    | cs => do
      let (fields, after) ← readFields fuel [] cs
      return (.obj fields, after)
  | _ + 1, cs => readScalar cs

/-- The items of a list from its first one to the closing bracket. -/
def readItems : Nat → List Char → Except ReadError (List Json × List Char)
  | 0, _ => .error .malformed
  | fuel + 1, cs => do
    let (item, rest) ← readValue fuel cs
    match skipSpace rest with
    | ']' :: after => return ([item], after)
    | ',' :: more => do
      let (items, after) ← readItems fuel (skipSpace more)
      return (item :: items, after)
    | _ => throw .malformed

/-- The fields of an object from the next one to the closing brace, put after those read. -/
def readFields : Nat → List (String × Json) → List Char →
    Except ReadError (List (String × Json) × List Char)
  | 0, _, _ => .error .malformed
  | fuel + 1, fields, '"' :: cs => do
    let (key, rest) ← ReadError.require (readText cs)
    match skipSpace rest with
    | ':' :: rest => do
      let (value, rest) ← readValue fuel (skipSpace rest)
      let fields := setField key value fields
      match skipSpace rest with
      | '\x7d' :: after => return (fields, after)
      | ',' :: more => readFields fuel fields (skipSpace more)
      | _ => throw .malformed
    | _ => throw .malformed
  | _ + 1, _, _ => .error .malformed

end

/-- The value of a JSON text. -/
def parse (text : String) : Except ReadError Json := do
  let cs := text.toList
  let (value, rest) ← readValue (cs.length + 1) (skipSpace cs)
  if (skipSpace rest).isEmpty then return value else throw .malformed

end Schemata.Json
