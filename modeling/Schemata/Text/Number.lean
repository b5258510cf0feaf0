import Schemata.Json
import Schemata.Text.DecimalDigit

/-!
# Number texts

`readNumber` reads a word as a number. Digits of any script may be used and an underscore may stand
between two digits. A word of digits alone, with an optional sign, is an integer of at most 4300
digits. Any other number is of double precision: digits with a point or an exponent, or one of the
words `inf`, `infinity` and `nan` in any case.
-/

namespace Schemata.Text

/-- The value of a list of decimal digits. -/
def digitsValue (cs : List Char) : Nat :=
  cs.foldl (fun value c => 10 * value + (c.toNat - '0'.toNat)) 0

/-- The most digits that an integer text may have. -/
def maxIntegerDigits : Nat := 4300

/-- The double-precision number with the given digits before and after the point. -/
def decimal (negative : Bool) (whole fraction : List Char) (exponent : Int) : Binary64 :=
  Binary64.ofDecimal negative (digitsValue (whole ++ fraction)) (exponent - fraction.length)

/-- The characters without underscores, each of which has to stand between two digits. -/
def joinDigits (afterDigit : Bool) : List Char → Option (List Char)
  | [] => some []
  | '_' :: c :: rest =>
    if afterDigit && c.isDigit then (joinDigits true rest).map (c :: ·) else none
  | ['_'] => none
  | c :: rest => (joinDigits c.isDigit rest).map (c :: ·)

/-- A sign, if there is one, and what follows it. -/
def splitSign : List Char → Bool × List Char
  | '-' :: rest => (true, rest)
  | '+' :: rest => (false, rest)
  | cs => (false, cs)

/-- The integer with a sign and digits. -/
def signed (negative : Bool) (value : Nat) : Int :=
  if negative then -(value : Int) else (value : Int)

/-- An integer text. -/
def readInteger (cs : List Char) : Option Int :=
  let (negative, digits) := splitSign cs
  if digits.isEmpty || !digits.all Char.isDigit || maxIntegerDigits < digits.length then none
  else some (signed negative (digitsValue digits))

/-- The exponent of a number text, zero if there is none. -/
def readExponent : List Char → Option Int
  | [] => some 0
  | c :: rest =>
    if c = 'e' ∨ c = 'E' then
      let (negative, digits) := splitSign rest
      if digits.isEmpty || !digits.all Char.isDigit then none
      else some (signed negative (digitsValue digits))
    else none

/-- A double-precision text. -/
def readFloat (cs : List Char) : Option Binary64 :=
  let (negative, body) := splitSign cs
  let word := String.ofList (body.map Char.toLower)
  if word = "inf" ∨ word = "infinity" then some (.infinite negative)
  else if word = "nan" then some .nan
  else
    let whole := body.takeWhile Char.isDigit
    let (fraction, rest) :=
      match body.dropWhile Char.isDigit with
      | '.' :: rest => (rest.takeWhile Char.isDigit, rest.dropWhile Char.isDigit)
      | rest => ([], rest)
    if whole.isEmpty && fraction.isEmpty then none
    else (readExponent rest).map (decimal negative whole fraction)

/-- The number that a word stands for. -/
def readNumber (text : String) : Option Json := do
  let cs ← joinDigits false (text.toList.map plainDigit)
  match readInteger cs with
  | some value => return .int value
  | none => return .float (← readFloat cs)

end Schemata.Text
