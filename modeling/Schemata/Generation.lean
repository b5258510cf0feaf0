import Schemata.Compiler
import Schemata.ImportPath
import Schemata.Order
import Schemata.Schema.Text

/-!
# Generated modules

`Program.compileAll` compiles the declarations of a program one by one; a declaration that cannot be
compiled is reported and left out. `Program.generate` puts the schemas in order and writes them as
the source text of one module.
-/

namespace Schemata

/-- A declaration with its schema. -/
structure Compiled where
  name : Name
  schemaName : Name
  /-- The names of the schemas that the schema uses, without repetitions. -/
  dependencies : List Name
  schema : Schema
  /-- Whether the schema uses the enumeration itself, which then has to be imported. -/
  isEnum : Bool
  warnings : List Warning
  usesHelper : Bool

/-- A declaration that was left out, and why. -/
structure Rejection where
  error : CompileError
  declaration : Name

/-- The text of the report on a declaration that was left out. -/
def Rejection.text (rejection : Rejection) : String :=
  about rejection.declaration rejection.error.message

namespace Program

/-- Compile a declaration. -/
def compileDeclaration (program : Program) (declaration : Declaration) : Compilation Compiled :=
  let compilation := program.declarationSchema declaration
  let events := compilation.trace
  { trace := events
    result := do
      let schema ← compilation.result
      return {
        name := declaration.name
        schemaName := ← program.settings.nameOf declaration.name
        dependencies := ← Json.distinct (usedNames events)
        schema := schema
        isEnum := declaration matches .enumeration _
        warnings := warnings events
        usesHelper := usesHelper events } }

/-- The schema of a name that is declared in another file: any value. -/
def placeholder (program : Program) (name : Name) : Except Fault Compiled := do
  return {
    name := name
    schemaName := ← program.settings.nameOf name
    dependencies := []
    schema := .call "any" []
    isEnum := false
    warnings := []
    usesHelper := false }

/-- Compile declarations in order. -/
def compileEach (program : Program) :
    List Declaration → Traced LogLine (List Compiled × List Rejection)
  | [] => return ([], [])
  | declaration :: rest => do
    let name := declaration.name
    let compilation := (program.compileDeclaration declaration).mapTrace (Event.logLine? name)
    match compilation.result with
    | .error (.compile error) =>
      let rejection : Rejection := ⟨error, name⟩
      let skipped : LogLine := ⟨.error, .generator, "Skipping " ++ rejection.text⟩
      let _ ← (⟨compilation.trace ++ [skipped], .ok ()⟩ : Traced LogLine Unit)
      let (compiled, rejections) ← program.compileEach rest
      return (compiled, rejection :: rejections)
    | _ =>
      let first ← compilation
      let (compiled, rejections) ← program.compileEach rest
      return (first :: compiled, rejections)

/-- The declarations that are to be compiled: those of the given keys, or all. -/
def selected (program : Program) : Except Fault (List Declaration) := do
  let names ← (← Settings.given program.settings.nameFilter).elements
  let keys ← names.mapM Json.key
  return program.unit.declarations.filter fun declaration =>
    keys.isEmpty || declaration.name.key?.any (· ∈ keys)

/-- Compile all declarations that are asked for. -/
def compileAll (program : Program) : Traced LogLine (List Compiled × List Rejection) := do
  program.compileEach (← program.selected)

end Program

/-- A compiled declaration with the keys of its name and of the names it uses. -/
structure Keyed where
  compiled : Compiled
  key : Key
  uses : List Key

/-- A compiled declaration with its keys. -/
def Keyed.of (compiled : Compiled) : Except Fault Keyed := do
  return ⟨compiled, ← compiled.schemaName.key, ← compiled.dependencies.mapM Json.key⟩

/-- The compiled declarations in order, and the cycles among them. -/
def orderCompiled (compiled : List Compiled) : Except Fault (List Compiled × List (List Key)) := do
  let keyed ← compiled.mapM Keyed.of
  let (ordered, cycles) := Order.order Keyed.key Keyed.uses keyed
  return (ordered.map Keyed.compiled, cycles)

/-- The text of a key that has to be one of a text. -/
def Key.asText : Key → Except Fault String
  | .text value => .ok value
  | _ => .error .wrongKind

/-- A definition of a constant in a module. -/
structure Definition where
  name : Name
  exported : Bool
  expression : String

/-- What is written into a module. -/
structure ModuleText where
  /-- The name of the validator namespace. -/
  z : String
  enumImports : List Name
  typesPath : String
  usesHelper : Bool
  /-- The modifiers that the helper adds. -/
  helperChain : String
  definitions : List Definition

namespace ModuleText

/-- The lines that import the validators and enumerations. -/
def imports (module : ModuleText) : String :=
  "import \x7b " ++ module.z ++ " \x7d from \"zod\";\n" ++
    if module.enumImports.isEmpty then ""
    else
      "import \x7b " ++ ", ".intercalate (module.enumImports.map Json.display) ++ " \x7d from \"" ++
        module.typesPath ++ "\";\n"

/-- The definition of the helper for values that may be absent. -/
def helper (module : ModuleText) : String :=
  if module.usesHelper then
    "\nconst maybe = <T extends " ++ module.z ++ ".ZodTypeAny>(schema: T) => \x7b\n" ++
      "  return schema" ++ module.helperChain ++ ";\n\x7d;\n"
  else ""

/-- The text of a definition. -/
def definition (definition : Definition) : String :=
  "\n" ++ (if definition.exported then "export " else "") ++ "const " ++
    definition.name.display ++ " = " ++ definition.expression ++ ";\n"

/-- The text of a module. -/
def text (module : ModuleText) : String :=
  "// Generated by types-to-zod\n" ++ module.imports ++ module.helper ++
    String.join (module.definitions.map definition)

end ModuleText

/-- The outcome of generating a module. -/
structure Generation where
  code : String
  /-- In the order of the source. -/
  compiled : List Compiled
  rejections : List Rejection
  cycles : List (List String)

namespace Program

/-- The modifiers that the helper adds. -/
def helperChain (program : Program) : Except Fault String :=
  match program.settings.maybe with
  | none => .error .noPart
  | some maybe =>
    .ok ((if maybe.optional.truthy then ".optional()" else "") ++
      (if maybe.nullable.truthy then ".nullable()" else ""))

/-- A path that may be left out. -/
def pathOr (path : Json) (default : String) : Except Fault String :=
  if path.truthy then
    match path with
    | .str text => .ok text
    | _ => .error .noPart
  else .ok default

/-- Where enumerations are imported from: where the settings say, or else from the source file. -/
def typesPath (program : Program) (current : List String) (outputPath : Json) :
    Except Fault String := do
  if program.settings.typesPath.truthy then return program.settings.typesPath.display
  let toFile ← pathOr program.unit.path "types.ts"
  let fromFile ← pathOr outputPath "schemas.ts"
  return ImportPath.importPath current fromFile toFile

/-- Whether the last declaration of a name is exported. -/
def isExported (program : Program) (name : Name) : Except Fault Bool := do
  let key ← name.key
  let found := program.unit.declarations.reverse.find? fun declaration =>
    declaration.name.key? = some key
  return (found.map Declaration.exported).getD true

/-- The definition of a compiled declaration. -/
def definition (z : String) (exported : Bool) (compiled : Compiled) :
    Except Failure Definition := do
  return ⟨compiled.schemaName, exported, ← compiled.schema.text z⟩

/-- The placeholders of imported names that compiled declarations use. -/
def placeholders (program : Program) (compiled : List Compiled) :
    Except Fault (List Compiled) := do
  let used ← (compiled.flatMap Compiled.dependencies).mapM Json.key
  let imported ← program.unit.imports.mapM fun name => program.placeholder (.str name)
  imported.filterM fun placeholder => return (← placeholder.schemaName.key) ∈ used

/-- The text of a module of ordered declarations. -/
def moduleText (program : Program) (current : List String) (outputPath : Json)
    (compiled ordered : List Compiled) : Except Failure ModuleText := do
  let z := program.settings.namespaceName.display
  let imported ← program.placeholders compiled
  let enumImports := (ordered.filter Compiled.isEnum).map Compiled.name
  let typesPath ← if enumImports.isEmpty then pure "" else program.typesPath current outputPath
  let helperChain ← program.helperChain
  let placeholders ← imported.mapM (definition z false)
  let schemas ← ordered.mapM fun compiled => do
    definition z (← program.isExported compiled.name) compiled
  return ⟨z, enumImports, typesPath, ordered.any Compiled.usesHelper, helperChain,
    placeholders ++ schemas⟩

/-- Report a cycle among schemas. -/
def reportCycle (cycle : List Key) : Traced LogLine (List String) := do
  let names ← (cycle.mapM Key.asText : Except Fault (List String))
  Traced.emit ⟨.warning, .generator,
    "Circular dependency between schemas: " ++ " -> ".intercalate names⟩
  return names

/-- Compile the declarations that are asked for and write them as a module. The output path is
where the module will be written, and the current directory is given by its components. -/
def generate (program : Program) (current : List String) (outputPath : Json) :
    Traced LogLine Generation := do
  let (compiled, rejections) ← program.compileAll
  let (ordered, cycles) ← orderCompiled compiled
  let cycles ← cycles.mapM reportCycle
  let module ← program.moduleText current outputPath compiled ordered
  Traced.emit ⟨.debug, .generator, "Rendering " ++ toString ordered.length ++ " schemas"⟩
  return ⟨module.text, compiled, rejections, cycles⟩

end Program

end Schemata
