import Schemata.Failure
import Schemata.Identifier
import Schemata.Json.Ascending

/-!
# Settings

`Settings` are what a caller can choose. `ofJson` reads them from an object whose keys may be in
snake case or in camel case; keys that name no setting are passed over. `toJson` writes them so that
`ofJson` reads them back. Most settings are kept as the values that were given. `assignAll` and
`addTypeNames` change settings that are in use.
-/

namespace Schemata

/-- The settings on types that may be absent. -/
structure MaybeSettings where
  /-- The types and interfaces with a special meaning, without repetitions. -/
  typeNames : List Name
  /-- Whether an absent value may be undefined. -/
  optional : Json
  /-- Whether an absent value may be null. -/
  nullable : Json

/-- What a caller can choose. -/
structure Settings where
  /-- Missing when the value given is no object. -/
  maybe : Option MaybeSettings
  /-- Formats by name, if given: a pattern, or an object with a pattern and a message. -/
  customFormats : Option Json
  skipAnnotations : Json
  /-- The name of the validator namespace. -/
  namespaceName : Json
  /-- How deep instantiations of generic declarations may be nested. -/
  depthLimit : Json
  /-- Where enumerations are imported from. -/
  typesPath : Json
  /-- The declarations to compile, if given; all if there are none. -/
  nameFilter : Option Json
  /-- The name of the schema of a declaration. Missing when a value took the place of the naming. -/
  schemaName : Option (Name → Name)
  /-- Whether the settings can be written. -/
  writable : Bool

namespace Settings

/-- The usual name of a schema: the declared name and `Schema`, in camel case. -/
def defaultSchemaName (name : Name) : Name :=
  .str (Identifier.schemaName name.display)

/-- The settings when nothing is chosen. -/
def default : Settings where
  maybe := some ⟨[], .bool true, .bool true⟩
  customFormats := some (.obj [])
  skipAnnotations := .bool false
  namespaceName := .str "z"
  depthLimit := .int 32
  typesPath := .str ""
  nameFilter := some (.arr [])
  schemaName := some defaultSchemaName
  writable := true

/-- The distinct names that a value lists. -/
def nameSet (value : Json) : Except Fault (List Name) := do
  Json.distinct (← value.elements)

/-- The settings on absent values that an object gives. -/
def maybeOfFields (fields : List (String × Json)) : Except Fault MaybeSettings := do
  let given := (Json.field? "type_names" fields).or (Json.field? "typeNames" fields)
  return ⟨← nameSet (given.getD (.arr [])), (Json.field? "optional" fields).getD (.bool true),
    (Json.field? "nullable" fields).getD (.bool true)⟩

/-- Change the settings on absent values. -/
def changeMaybe (settings : Settings) (change : MaybeSettings → MaybeSettings) :
    Except Fault Settings :=
  match settings.maybe with
  | some maybe => .ok { settings with maybe := some (change maybe) }
  | none => .error .noPart

/-- The key whose value takes the place of writing the settings. -/
def writerKey : String := "to_dict"

/-- All settings at once, from the fields of an object. A setting that is not among them has its
usual value if that is the same for all settings, and is missing otherwise. -/
def ofFields (fields : List (String × Json)) : Settings where
  maybe := none
  customFormats := Json.field? "custom_format_types" fields
  skipAnnotations := (Json.field? "skip_parse_annotations" fields).getD default.skipAnnotations
  namespaceName := (Json.field? "zod_import_value" fields).getD default.namespaceName
  depthLimit := (Json.field? "max_generic_depth" fields).getD default.depthLimit
  typesPath := (Json.field? "types_import_path" fields).getD default.typesPath
  nameFilter := Json.field? "name_filter" fields
  schemaName := none
  writable := (Json.field? writerKey fields).isNone

/-- Set one setting to a value as it is. Some keys stand for all settings at once or for what cannot
be set. A key that is not known changes nothing. -/
def assign (settings : Settings) (setting : String) (value : Json) : Except Fault Settings :=
  match setting with
  | "maybe" => .ok { settings with maybe := none }
  | "custom_format_types" => .ok { settings with customFormats := some value }
  | "skip_parse_annotations" => .ok { settings with skipAnnotations := value }
  | "zod_import_value" => .ok { settings with namespaceName := value }
  | "max_generic_depth" => .ok { settings with depthLimit := value }
  | "types_import_path" => .ok { settings with typesPath := value }
  | "name_filter" => .ok { settings with nameFilter := some value }
  | "get_dependency_name" => .ok { settings with schemaName := none }
  | "__dict__" =>
    match value with
    | .obj fields => .ok (ofFields fields)
    | _ => .error .wrongKind
  | "__class__" => .error .wrongKind
  | "__weakref__" => .error .noPart
  | key => .ok { settings with writable := settings.writable && key ≠ writerKey }

/-- Whether a key in an object of settings is followed: it names something that is there and can be
given as a value. -/
def follows (settings : Settings) (key : String) : Bool :=
  match key with
  | "custom_format_types" => settings.customFormats.isSome
  | "name_filter" => settings.nameFilter.isSome
  | "get_dependency_name" => false
  | _ => true

/-- The setting that a key in camel case stands for. -/
def camelKeys : List (String × String) :=
  [("customJSDocFormatTypes", "custom_format_types"),
   ("skipParseJSDoc", "skip_parse_annotations"),
   ("zodImportValue", "zod_import_value"),
   ("maxGenericDepth", "max_generic_depth"),
   ("typesImportPath", "types_import_path"),
   ("nameFilter", "name_filter")]

/-- Follow one key of an object of settings. -/
def applyKey (settings : Settings) (key : String) (value : Json) : Except Fault Settings :=
  match key, value with
  | "maybe", .obj fields => do return { settings with maybe := some (← maybeOfFields fields) }
  | "maybeConfig", .obj fields => do
    return { settings with maybe := some (← maybeOfFields fields) }
  | "maybeTypeNames", value => do
    let names ← nameSet value
    settings.changeMaybe ({ · with typeNames := names })
  | "maybeOptional", value => settings.changeMaybe ({ · with optional := .bool value.truthy })
  | "maybeNullable", value => settings.changeMaybe ({ · with nullable := .bool value.truthy })
  | key, value =>
    match camelKeys.find? (·.1 = key) with
    | some (_, setting) => settings.assign setting value
    | none => if settings.follows key then settings.assign key value else .ok settings

/-- Follow the keys of an object of settings, in order. -/
def applyFields (settings : Settings) : List (String × Json) → Except Fault Settings
  | [] => .ok settings
  | (key, value) :: rest => do applyFields (← settings.applyKey key value) rest

/-- The settings that a value gives. -/
def ofJson (value : Json) : Except Fault Settings :=
  match value with
  | .obj fields => applyFields default fields
  | _ => .error .noPart

/-- What changing settings leads to: the settings after it, and why it stopped short, if it did. -/
structure Change where
  settings : Settings
  stopped : Option Fault

/-- The changed settings, unless the change stopped short. -/
def Change.complete (change : Change) : Except Fault Settings :=
  match change.stopped with
  | none => .ok change.settings
  | some reason => .error reason

/-- Set settings one after the other, up to the first one that cannot be set. -/
def assignAll (settings : Settings) : List (String × Json) → Change
  | [] => ⟨settings, none⟩
  | (setting, value) :: rest =>
    match settings.assign setting value with
    | .ok changed => changed.assignAll rest
    | .error reason => ⟨settings, some reason⟩

/-- Add values to distinct names, up to the first one that has no key. -/
def addNames (names : List Name) : List Json → List Name × Option Fault
  | [] => (names, none)
  | value :: rest =>
    match value.key? with
    | none => (names, some .wrongKind)
    | some key =>
      if names.any fun name => name.key? = some key then addNames names rest
      else addNames (names ++ [value]) rest

/-- Add the names that a value lists to the types that may be absent. -/
def addTypeNames (settings : Settings) (value : Json) : Change :=
  match settings.maybe, value.elements with
  | none, _ => ⟨settings, some .noPart⟩
  | some _, .error reason => ⟨settings, some reason⟩
  | some maybe, .ok values =>
    let (names, stopped) := addNames maybe.typeNames values
    ⟨{ settings with maybe := some { maybe with typeNames := names } }, stopped⟩

/-- The name of the schema of a declared name. -/
def nameOf (settings : Settings) (name : Name) : Except Fault Name :=
  match settings.schemaName with
  | some naming => .ok (naming name)
  | none => .error .wrongKind

/-- Whether a name is among the types that may be absent. -/
def isMaybeName (settings : Settings) (name : Name) : Except Fault Bool :=
  match settings.maybe with
  | some maybe => do
    let key ← name.key
    return maybe.typeNames.any fun other => other.key? = some key
  | none => .error .noPart

/-- A setting that has to be there. -/
def given (setting : Option Json) : Except Fault Json :=
  match setting with
  | some value => .ok value
  | none => .error .noPart

/-- The settings as a value. The naming of schemas is not part of it. -/
def toJson (settings : Settings) : Except Fault Json :=
  if !settings.writable then .error .wrongKind
  else
    match settings.maybe with
    | none => .error .noPart
    | some maybe => do
      let names ← Json.ascending maybe.typeNames
      return .obj
        [("maybe", .obj [("type_names", .arr names), ("optional", maybe.optional),
            ("nullable", maybe.nullable)]),
         ("custom_format_types", ← given settings.customFormats),
         ("skip_parse_annotations", settings.skipAnnotations),
         ("zod_import_value", settings.namespaceName),
         ("max_generic_depth", settings.depthLimit),
         ("types_import_path", settings.typesPath),
         ("name_filter", ← given settings.nameFilter)]

/-- How deep instantiations may be nested. -/
inductive Limit where
  | atMost (bound : Int)
  | unlimited
  /-- The limit is no number, so that no depth can be compared with it. -/
  | incomparable

/-- The limit on the depth of instantiations. -/
def limit (settings : Settings) : Limit :=
  match settings.depthLimit with
  | .int bound => .atMost bound
  | .bool value => .atMost (if value then 1 else 0)
  | .float (.infinite true) => .atMost (-1)
  | .float value =>
    match value.floor? with
    | some bound => .atMost bound
    | none => .unlimited
  | _ => .incomparable

end Settings

end Schemata
