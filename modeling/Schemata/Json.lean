import Schemata.Binary64
import Schemata.Fault

/-!
# Values

`Json` is the type of the values that documents and settings are made of. Objects keep their fields
in order, and integers are apart from double-precision numbers. `Key` is the identity by which a
value is looked up: `true`, `1` and `1.0` are one key, and lists and objects have none.
-/

namespace Schemata

/-- A value of a document. -/
inductive Json where
  | null
  | bool (value : Bool)
  | int (value : Int)
  | float (value : Binary64)
  | str (text : String)
  | arr (items : List Json)
  | obj (fields : List (String × Json))
  deriving Inhabited

/-- A value that stands where a name is expected. In a well-formed document it is a text. -/
abbrev Name := Json

/-- What identifies a value when it is looked up. -/
inductive Key where
  | null
  | int (value : Int)
  | float (value : Binary64)
  | text (value : String)
  deriving DecidableEq, Repr, Inhabited

namespace Json

/-- The value of the first field with a given key. -/
def field? (key : String) : List (String × Json) → Option Json
  | [] => none
  | (name, value) :: rest => if name = key then some value else field? key rest

theorem mem_of_field {key : String} {value : Json} {fields : List (String × Json)}
    (h : field? key fields = some value) : (key, value) ∈ fields := by
  induction fields with
  | nil => cases h
  | cons field rest ih =>
    rw [field?] at h
    split at h
    · rename_i hkey
      cases h
      exact hkey ▸ List.mem_cons_self
    · exact List.mem_cons_of_mem _ (ih h)

/-- The value of a field of an object. -/
def get? : Json → String → Option Json
  | .obj fields, key => field? key fields
  | _, _ => none

/-- Put a field into an object: a new key goes to the end, a known one keeps its place. -/
def setField (key : String) (value : Json) : List (String × Json) → List (String × Json)
  | [] => [(key, value)]
  | (name, old) :: rest =>
    if name = key then (name, value) :: rest else (name, old) :: setField key value rest

/-- Whether a value counts as true: it is not null, false, zero or empty. -/
def truthy : Json → Bool
  | .null => false
  | .bool value => value
  | .int value => value ≠ 0
  | .float value => !value.isZero
  | .str text => text ≠ ""
  | .arr items => !items.isEmpty
  | .obj fields => !fields.isEmpty

/-- The key of a value. A truth value is the key of zero or one, and a number that is an integer is
the key of that integer. -/
def key? : Json → Option Key
  | .null => some .null
  | .bool value => some (.int (if value then 1 else 0))
  | .int value => some (.int value)
  | .float value =>
    match value.toInt? with
    | some integer => some (.int integer)
    | none => some (.float value)
  | .str text => some (.text text)
  | .arr _ => none
  | .obj _ => none

/-- The key of a value that has to have one. -/
def key (value : Json) : Except Fault Key :=
  match value.key? with
  | some key => .ok key
  | none => .error .wrongKind

/-- The text that a value is, if it is a text. -/
def text? : Json → Option String
  | .str text => some text
  | _ => none

/-- The text of a value that has to be a text. -/
def text (value : Json) : Except Fault String :=
  match value with
  | .str text => .ok text
  | _ => .error .wrongKind

/-- Whether the value is a given text. -/
def isText (value : Json) (expected : String) : Bool :=
  value.text? = some expected

/-- What a value lists: the items of a list, the characters of a text, the keys of an object. -/
def elements : Json → Except Fault (List Json)
  | .arr items => .ok items
  | .str text => .ok (text.toList.map fun c => .str (String.singleton c))
  | .obj fields => .ok (fields.map fun field => .str field.1)
  | _ => .error .wrongKind

/-- Whether one list of characters occurs in another without a gap. -/
def occursIn (part : List Char) : List Char → Bool
  | [] => part.isEmpty
  | c :: rest => part.isPrefixOf (c :: rest) || occursIn part rest

/-- Whether a value holds a text: as an item of a list, a part of a text, or a key of an object. -/
def holds (value : Json) (part : String) : Except Fault Bool :=
  match value with
  | .arr items => .ok (items.any (·.isText part))
  | .str text => .ok (occursIn part.toList text.toList)
  | .obj fields => .ok (fields.any fun field => field.1 = part)
  | _ => .error .wrongKind

mutual

/-- Whether two values are the same. Numbers are compared by what they stand for and objects
without regard to the order of their fields. -/
def same : Json → Json → Bool
  | .arr left, .arr right => sameItems left right
  | .obj left, .obj right => left.length = right.length && sameFields left right
  | .arr _, _ => false
  | .obj _, _ => false
  | left, right =>
    match left.key?, right.key? with
    | some a, some b => a = b
    | _, _ => false

/-- Whether two lists of values are the same, item by item. -/
def sameItems : List Json → List Json → Bool
  | [], [] => true
  | a :: left, b :: right => same a b && sameItems left right
  | _, _ => false

/-- Whether the fields on the left are all on the right, with the same values. -/
def sameFields : List (String × Json) → List (String × Json) → Bool
  | [], _ => true
  | (key, a) :: left, right =>
    (match field? key right with
      | some b => same a b
      | none => false) && sameFields left right

end

/-- The values that do not occur before, given the keys of those before. -/
def distinctFrom (seen : List Key) : List Json → Except Fault (List Json)
  | [] => .ok []
  | value :: rest => do
    let key ← value.key
    if key ∈ seen then distinctFrom seen rest
    else return value :: (← distinctFrom (key :: seen) rest)

/-- The values without repetitions, in the order of their first occurrence. -/
def distinct (values : List Json) : Except Fault (List Json) :=
  distinctFrom [] values

end Json

end Schemata
