import Schemata.Log
import Schemata.Traced

/-!
# Events of a compilation

While a declaration is compiled, `Event`s tell which other schemas it uses, what was degraded, and
what is worth a log line. `dependencies`, `warnings` and `usesHelper` read them off the trace.
-/

namespace Schemata

/-- A construct that was compiled to the schema of any value, or a tag that was not followed. The
text of a type is kept as it is shown. -/
inductive Warning where
  | unsupportedType (type : Json)
  | armNotAnObject (arm : Json)
  | armWithoutField (arm : Json) (field : String)
  | unsupportedIndex (access : Json)
  | unresolvedAccess (access : Json)
  | emptyTemplate (template : Json)
  | unknownSpan (name : Name)
  | unsupportedSpan (type : Json)
  | enumeratorWithoutValue (enumName memberName : Name)
  | unknownEnumerator (enumName memberName : Name)

/-- The wording of a warning. -/
def Warning.message : Warning → String
  | .unsupportedType type => "'" ++ type.display ++ "' is not supported, falling back to any()"
  | .armNotAnObject arm =>
    "Discriminated union member \"" ++ arm.display ++
      "\" is not a type reference or object literal"
  | .armWithoutField arm field =>
    "Discriminated union member \"" ++ arm.display ++ "\" missing discriminator field \"" ++
      field ++ "\""
  | .unsupportedIndex access =>
    "Unsupported index type in '" ++ access.display ++ "', falling back to any()"
  | .unresolvedAccess access =>
    "Indexed access '" ++ access.display ++ "' cannot be resolved, falling back to any()"
  | .emptyTemplate template => "Template literal '" ++ template.display ++ "' admits no value"
  | .unknownSpan name =>
    "Reference not found '" ++ name.display ++ "' in template literal, falling back to any()"
  | .unsupportedSpan type =>
    "Node '" ++ type.display ++ "' not supported in template literal, falling back to any()"
  | .enumeratorWithoutValue enumName memberName =>
    "Enum member without initializer '" ++ enumName.display ++ "." ++ memberName.display ++
      "' is not supported"
  | .unknownEnumerator enumName memberName =>
    "Enum member '" ++ enumName.display ++ "." ++ memberName.display ++
      "' has no initializer in template literal"

/-- Something that is only worth a log line. -/
inductive Notice where
  | notANumber (tag text : String)
  | unknownFormat (name : String)
  | instantiating (type : Json) (environment : String)
  | ignoredArguments (type : Json)
  | memberNotFound (key : Json) (owner : Name)

/-- The log line of a notice. -/
def Notice.logLine : Notice → LogLine
  | .notANumber tag text =>
    ⟨.warning, .annotations, "Ignoring @" ++ tag ++ ": '" ++ text ++ "' is not a number"⟩
  | .unknownFormat name => ⟨.warning, .annotations, "Ignoring unknown @format '" ++ name ++ "'"⟩
  | .instantiating type environment =>
    ⟨.debug, .compiler, "Instantiating " ++ type.display ++ " with " ++ environment⟩
  | .ignoredArguments type => ⟨.debug, .compiler, "Ignoring type arguments of " ++ type.display⟩
  | .memberNotFound key owner =>
    ⟨.debug, .references, "Member '" ++ key.display ++ "' not found on '" ++ owner.display ++ "'"⟩

/-- Something that happens during a compilation. -/
inductive Event where
  /-- Another schema is used under its name. -/
  | dependency (name : Name)
  | warning (warning : Warning)
  /-- The helper for values that may be absent is used. -/
  | helper
  | notice (notice : Notice)

/-- A step of a compilation. -/
abbrev Compilation := Traced Event

namespace Compilation

/-- Record a warning. -/
def warn (warning : Warning) : Compilation Unit := Traced.emit (.warning warning)

/-- Record a notice. -/
def note (notice : Notice) : Compilation Unit := Traced.emit (.notice notice)

/-- Fail with an error of compilation. -/
def reject {α : Type} (error : CompileError) : Compilation α := Traced.fail (.compile error)

end Compilation

/-- The log line of an event while a given declaration is compiled. -/
def Event.logLine? (declaration : Name) : Event → Option LogLine
  | .warning found => some ⟨.warning, .dependencies, about declaration found.message⟩
  | .notice found => some found.logLine
  | .dependency _ => none
  | .helper => none

/-- The names of the schemas that are used, with repetitions. -/
def usedNames (events : List Event) : List Name :=
  events.filterMap fun
    | .dependency name => some name
    | _ => none

/-- The warnings, in order. -/
def warnings (events : List Event) : List Warning :=
  events.filterMap fun
    | .warning warning => some warning
    | _ => none

/-- Whether the helper is used. -/
def usesHelper (events : List Event) : Bool :=
  events.any fun
    | .helper => true
    | _ => false

end Schemata
