import Schemata.Event
import Schemata.Json.Reader
import Schemata.Schema
import Schemata.Text.Blank
import Schemata.TypeExpr

/-!
# Refinement by tags

The tags of a declaration or member refine its schema. `Context` holds them together with what the
place of a type asks of its schema, and `Context.modifiers` turns both into a chain of modifiers, in
a fixed order: bounds, format and pattern, then the flags with the description between them, and the
default value last.
-/

namespace Schemata

namespace Tags

/-- The text of a tag. -/
def get? (tags : Tags) (name : String) : Option String :=
  (tags.find? (·.1 = name)).map (·.2)

/-- The tags without one of them. -/
def without (tags : Tags) (name : String) : Tags :=
  tags.filter (·.1 ≠ name)

/-- The tag with source text that replaces a schema or is added to it. -/
def overrideTag : String := "schema"

/-- The source text that replaces a schema or is added to it. -/
def override? (tags : Tags) : Option String :=
  tags.get? overrideTag

/-- The field that tells the arms of a union apart. -/
def discriminator? (tags : Tags) : Option String :=
  match tags.get? "discriminator" with
  | some text => if text = "" then none else some (Text.trim text)
  | none => none

/-- Whether no other properties are allowed. -/
def strict (tags : Tags) : Bool :=
  tags.any (·.1 = "strict")

/-- The tags that the elements of an array can be given, by the tag of the array. -/
def elementTags : List (String × String) :=
  [("elementDescription", "description"), ("elementMinimum", "minimum"),
   ("elementMaximum", "maximum"), ("elementMinLength", "minLength"),
   ("elementMaxLength", "maxLength"), ("elementFormat", "format"), ("elementPattern", "pattern")]

/-- The tags of the elements of an array. -/
def element (tags : Tags) : Tags :=
  elementTags.filterMap fun (outer, inner) => (tags.get? outer).map ((inner, ·))

end Tags

/-- What the place of a type asks of its schema. -/
structure Context where
  /-- The value may be left out. -/
  optional : Bool := false
  /-- The value may be null. -/
  nullable : Bool := false
  /-- All properties may be left out. -/
  allOptional : Bool := false
  /-- No property may be left out. -/
  allRequired : Bool := false
  tags : Tags := []

namespace Refinement

/-- A format that the validators know: the modifier for it and its options. -/
structure Format where
  modifier : String
  options : List (String × String) := []

/-- The formats that the validators know. -/
def builtinFormats : List (String × Format) :=
  [("email", ⟨"email", []⟩), ("uuid", ⟨"uuid", []⟩), ("url", ⟨"url", []⟩), ("cuid", ⟨"cuid", []⟩),
   ("cuid2", ⟨"cuid2", []⟩), ("ulid", ⟨"ulid", []⟩), ("emoji", ⟨"emoji", []⟩),
   ("date-time", ⟨"datetime", []⟩), ("date", ⟨"date", []⟩), ("time", ⟨"time", []⟩),
   ("duration", ⟨"duration", []⟩), ("ip", ⟨"ip", []⟩), ("ipv4", ⟨"ip", [("version", "v4")]⟩),
   ("ipv6", ⟨"ip", [("version", "v6")]⟩)]

/-- A message as an argument, if there is one. -/
def messageArgument (message : Option String) : List Schema :=
  message.toList.map fun text => .value (.str text)

/-- The modifier of a bound: a number and a message. -/
def bound (modifier tag text : String) : Compilation (List Modifier) :=
  let (word, message) := Text.firstWord text
  match Text.readNumber word with
  | some number => return [⟨modifier, .value number :: messageArgument message, false⟩]
  | none => do
    Compilation.note (.notANumber tag word)
    return []

/-- The pattern and the message of a custom format. -/
def customFormat : Json → Except Fault (Json × Json)
  | .str pattern => .ok (.str pattern, .null)
  | .obj fields =>
    .ok ((Json.field? "regex" fields).getD (.str ""),
      (Json.field? "errorMessage" fields).getD .null)
  | _ => .error .noPart

/-- A custom format of a given name, if there is one. -/
def customFormat? (formats : Json) (name : String) : Except Fault (Option (Json × Json)) := do
  if ← formats.holds name then
    match formats.get? name with
    | some format => return some (← customFormat format)
    | none => throw .wrongKind
  else return none

/-- The modifier of a format the validators know. -/
def builtinFormat (format : Format) (message : Option String) : Modifier :=
  match format.options with
  | [] => ⟨format.modifier, messageArgument message, false⟩
  | options =>
    let entries := options.map fun (key, text) => (key, Schema.value (.str text))
    let messages := message.toList.map fun text => ("message", Schema.value (.str text))
    ⟨format.modifier, [.object (entries ++ messages)], false⟩

/-- The modifier of a format: a custom one, or one that the validators know. -/
def format (formats : Json) (text : String) : Compilation (List Modifier) := do
  let (name, message) := Text.firstWord text
  match ← customFormat? formats name with
  | some (pattern, usual) =>
    let error := (message.map Json.str).getD usual
    return [⟨"regex", .regex pattern :: (if error.truthy then [.value error] else []), false⟩]
  | none =>
    match builtinFormats.find? (·.1 = name) with
    | some (_, known) => return [builtinFormat known message]
    | none => do
      Compilation.note (.unknownFormat name)
      return []

/-- The value of a default: what the text spells, or the text itself. -/
def defaultValue (text : String) : Json :=
  match Json.parse text with
  | .ok value => value
  | .error _ => .str text

/-- A modifier without arguments, if it is asked for. -/
def flagged (flag : Bool) (name : String) : List Modifier :=
  if flag then [⟨name, [], false⟩] else []

/-- The modifiers that a tag calls for, if it is there. -/
def tagged (tags : Tags) (name : String) (modifiers : String → Compilation (List Modifier)) :
    Compilation (List Modifier) :=
  match tags.get? name with
  | some text => modifiers text
  | none => return []

/-- The modifier that a tag calls for with a value made of its text. -/
def valued (tags : Tags) (name modifier : String) (argument : String → Schema) : List Modifier :=
  (tags.get? name).toList.map fun text => ⟨modifier, [argument (Text.trim text)], false⟩

end Refinement

open Refinement in
/-- The modifiers that a context calls for, in order. -/
def Context.modifiers (formats : Json) (context : Context) : Compilation (List Modifier) := do
  let tags := context.tags
  let minimum ← tagged tags "minimum" (bound "min" "minimum")
  let maximum ← tagged tags "maximum" (bound "max" "maximum")
  let minLength ← tagged tags "minLength" (bound "min" "minLength")
  let maxLength ← tagged tags "maxLength" (bound "max" "maxLength")
  let formatted ← tagged tags "format" (format formats)
  return minimum ++ maximum ++ minLength ++ maxLength ++ formatted ++
    valued tags "pattern" "regex" (fun text => .regex (.str text)) ++
    flagged context.allOptional "partial" ++
    flagged context.allRequired "required" ++
    flagged context.optional "optional" ++
    valued tags "description" "describe" (fun text => .value (.str text)) ++
    flagged context.nullable "nullable" ++
    valued tags "default" "default" (fun text => .value (defaultValue text))

end Schemata
