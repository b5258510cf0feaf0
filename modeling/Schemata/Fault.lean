/-!
# Faults

A document may hold a value where its format calls for another kind of value. Most such values are
carried along; a `Fault` arises where the value cannot be used for what is asked of it.
-/

namespace Schemata

/-- Why a value of an unexpected kind cannot be used. -/
inductive Fault where
  /-- The value is compared, searched, listed, joined or used as a key, and its kind has no such
  use. -/
  | wrongKind
  /-- The value is asked for a part that values of its kind do not have. -/
  | noPart
  deriving DecidableEq, Repr

end Schemata
