import Schemata.Binary64

/-!
# The text of a double-precision number

A number is written with the fewest digits that read back as the same number, and of these the
nearest. `shortest` finds the digits and `text` lays them out: positionally from `0.0001` up to
`10 ^ 16`, with an exponent of at least two digits outside.
-/

namespace Schemata.Binary64

/-- A decimal fraction, `digits * 10 ^ exponent`. -/
structure Decimal where
  digits : Nat
  exponent : Int
  deriving DecidableEq, Repr

/-- The number of decimal digits of a natural number. -/
def digitCount (n : Nat) : Nat :=
  (Nat.toDigits 10 n).length

/-- The place of the leading digit of a positive fraction: the fraction is at least
`10 ^ (place - 1)` and less than `10 ^ place`. -/
def leadingPlace (num den : Nat) : Int :=
  if den ≤ num then (digitCount (num / den) : Int)
  else
    let count := digitCount (den / num)
    if num * Nat.pow 10 (count - 1) = den then 2 - (count : Int) else 1 - (count : Int)

/-- The decimal of `count` digits nearest to a positive number that reads back as the number. -/
def nearestDecimal? (significand : Nat) (exponent : Int) (count : Nat) : Option Decimal :=
  let (num, den) := ratio significand exponent
  let place := leadingPlace num den - (count : Int)
  let (a, b) := divPow 10 num den place
  let below : Decimal := ⟨a / b, place⟩
  let above : Decimal := ⟨a / b + 1, place⟩
  let readsBack (d : Decimal) : Bool :=
    ofDecimal false d.digits d.exponent = .finite false significand exponent
  match readsBack below, readsBack above with
  | true, true => some (if roundDiv a b = a / b then below else above)
  | true, false => some below
  | false, true => some above
  | false, false => none

/-- The shortest decimal that reads back as a positive number. Seventeen digits always do. -/
def shortest (significand : Nat) (exponent : Int) : Decimal :=
  ((List.range' 1 17).findSome? (nearestDecimal? significand exponent)).getD
    ⟨significand, exponent⟩

/-- The digits without the zeros at their end. -/
def significantDigits (n : Nat) : List Char :=
  ((Nat.toDigits 10 n).reverse.dropWhile (· = '0')).reverse

/-- The exponent as it stands after the mark: a sign and at least two digits. -/
def exponentText (exponent : Int) : List Char :=
  let digits := Nat.toDigits 10 exponent.natAbs
  (if exponent < 0 then '-' else '+') :: (if digits.length < 2 then '0' :: digits else digits)

/-- A positive decimal laid out. -/
def Decimal.layout (d : Decimal) : List Char :=
  let point : Int := digitCount d.digits + d.exponent
  let digits := significantDigits d.digits
  if -4 < point ∧ point ≤ 16 then
    if point ≤ 0 then
      '0' :: '.' :: (List.replicate (-point).toNat '0' ++ digits)
    else if point < digits.length then
      digits.take point.toNat ++ '.' :: digits.drop point.toNat
    else
      digits ++ List.replicate (point.toNat - digits.length) '0' ++ ['.', '0']
  else
    let fraction := digits.drop 1
    digits.take 1 ++ (if fraction.isEmpty then [] else '.' :: fraction) ++
      'e' :: exponentText (point - 1)

/-- How the numbers that have no digits are written. -/
structure Spelling where
  infinite : String
  nan : String

/-- The text of a number. -/
def text (spelling : Spelling) : Binary64 → String
  | .nan => spelling.nan
  | .infinite negative => (if negative then "-" else "") ++ spelling.infinite
  | .finite negative significand exponent =>
    (if negative then "-" else "") ++
      if significand = 0 then "0.0" else String.ofList (shortest significand exponent).layout

end Schemata.Binary64
