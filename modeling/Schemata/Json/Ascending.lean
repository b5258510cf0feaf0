import Schemata.Json

/-!
# The order of values

Texts are ordered by their characters and numbers by what they stand for, whether integer or of
double precision. `ascending` sorts values of one of the two kinds.
-/

namespace Schemata.Json

/-- A number as a fraction with a sign, or as below or above all fractions. -/
inductive Position where
  | below
  | at (num : Int) (den : Nat)
  | above

/-- Where a number stands. -/
def position? : Json → Option Position
  | .bool value => some (.at (if value then 1 else 0) 1)
  | .int value => some (.at value 1)
  | .float (.finite negative significand exponent) =>
    let (num, den) := Binary64.ratio significand exponent
    some (.at (if negative then -(num : Int) else (num : Int)) den)
  | .float (.infinite negative) => some (if negative then .below else .above)
  | .float .nan => some .above
  | _ => none

/-- Whether one number is not above another. -/
def Position.le : Position → Position → Bool
  | .below, _ => true
  | _, .above => true
  | .at a b, .at c d => a * (d : Int) ≤ c * (b : Int)
  | _, _ => false

/-- Whether a value does not come after another one: texts by their characters, numbers by value. -/
def notAfter (left right : Json) : Bool :=
  match left, right with
  | .str a, .str b => !decide (b < a)
  | a, b =>
    match position? a, position? b with
    | some p, some q => p.le q
    | _, _ => false

/-- Put a value into an ascending list. -/
def insertAscending (value : Json) : List Json → List Json
  | [] => [value]
  | first :: rest =>
    if notAfter value first then value :: first :: rest else first :: insertAscending value rest

/-- The values in ascending order. Texts and numbers cannot be compared with each other, and other
values not at all. -/
def ascending (values : List Json) : Except Fault (List Json) :=
  if values.length ≤ 1 || values.all (·.text?.isSome) || values.all (position? · |>.isSome) then
    .ok (values.foldr insertAscending [])
  else .error .wrongKind

end Schemata.Json
