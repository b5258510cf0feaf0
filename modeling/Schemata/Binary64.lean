/-!
# Double-precision numbers

`Binary64` is the binary floating-point format of 53 significant bits, kept as exact data: a sign,
a significand and a power of two. `ofRatio` and `ofDecimal` round to the nearest value, a tie going
to the even significand. Equal numbers of equal sign have equal data, so equality is decidable.
-/

namespace Schemata

/-- A number of the format. `finite` stands for `± significand * 2 ^ exponent`. -/
inductive Binary64 where
  | finite (negative : Bool) (significand : Nat) (exponent : Int)
  | infinite (negative : Bool)
  | nan
  deriving DecidableEq, Repr, Inhabited

namespace Binary64

/-- The least exponent of a finite number. -/
def leastExponent : Int := -1074

/-- The greatest exponent of a finite number. -/
def greatestExponent : Int := 971

/-- The quotient rounded to the nearest integer, a tie going to the even one. -/
def roundDiv (num den : Nat) : Nat :=
  let quotient := num / den
  let twice := 2 * (num % den)
  if twice < den then quotient
  else if den < twice then quotient + 1
  else if quotient % 2 = 0 then quotient
  else quotient + 1

/-- The fraction `num / den` divided by a power of `base`, as a fraction. -/
def divPow (base num den : Nat) (exponent : Int) : Nat × Nat :=
  if 0 ≤ exponent then (num, den * Nat.pow base exponent.toNat)
  else (num * Nat.pow base (-exponent).toNat, den)

/-- The number nearest to a fraction. -/
def ofRatio (negative : Bool) (num den : Nat) : Binary64 :=
  if num = 0 then .finite negative 0 0
  else
    let guess : Int := (num.log2 : Int) - (den.log2 : Int) - 52
    let (a, b) := divPow 2 num den guess
    let exponent := max leastExponent (if a < Nat.pow 2 52 * b then guess - 1 else guess)
    let (c, d) := divPow 2 num den exponent
    let significand := roundDiv c d
    let (significand, exponent) :=
      if significand = Nat.pow 2 53 then (Nat.pow 2 52, exponent + 1)
      else (significand, exponent)
    if significand = 0 then .finite negative 0 0
    else if greatestExponent < exponent then .infinite negative
    else .finite negative significand exponent

/-- The number nearest to `digits * 10 ^ exponent`. Beyond the range of the format, where the
power of ten would be large, the answer needs no arithmetic. -/
def ofDecimal (negative : Bool) (digits : Nat) (exponent : Int) : Binary64 :=
  if digits = 0 then .finite negative 0 0
  else if 3100 < 3 * (digits.log2 : Int) + 10 * exponent then .infinite negative
  else if 302 * ((digits.log2 : Int) + 1) + 1000 * exponent < -330000 then .finite negative 0 0
  else
    let (num, den) := divPow 10 digits 1 (-exponent)
    ofRatio negative num den

/-- Whether the number is zero, of either sign. -/
def isZero : Binary64 → Bool
  | .finite _ significand _ => significand = 0
  | _ => false

/-- The absolute value of a finite number, as a fraction. -/
def ratio (significand : Nat) (exponent : Int) : Nat × Nat :=
  divPow 2 significand 1 (-exponent)

/-- The integer that the number is, if it is one. -/
def toInt? : Binary64 → Option Int
  | .finite negative significand exponent =>
    let (num, den) := ratio significand exponent
    if num % den = 0 then
      some (if negative then -((num / den : Nat) : Int) else ((num / den : Nat) : Int))
    else none
  | _ => none

/-- The greatest integer that is not above a finite number. -/
def floor? : Binary64 → Option Int
  | .finite negative significand exponent =>
    let (num, den) := ratio significand exponent
    some (Int.fdiv (if negative then -(num : Int) else (num : Int)) (den : Int))
  | _ => none

end Binary64

end Schemata
