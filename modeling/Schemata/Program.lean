import Schemata.Environment
import Schemata.Event
import Schemata.Schema
import Schemata.Settings

/-!
# Programs

A `Program` is a source unit with the settings under which it is compiled. Here are the parts of a
compilation that need no schema of another type: looking up declarations, naming their schemas, and
taking over the properties of another schema with `Omit`, `Pick` and `extends`.
-/

namespace Schemata

/-- A source unit and the settings under which it is compiled. -/
structure Program where
  unit : SourceUnit
  settings : Settings

namespace Program

/-- The program of a source unit. Every declared name has to have a key. -/
def ofUnit (unit : SourceUnit) (settings : Settings) : Except Fault Program :=
  if unit.declarations.all fun declaration => declaration.name.key?.isSome then
    .ok ⟨unit, settings⟩
  else .error .wrongKind

/-- The first declaration of a key. -/
def declaration? (program : Program) (key : Key) : Option Declaration :=
  program.unit.declarations.find? fun declaration => declaration.name.key? = some key

/-- The first declaration of a name. -/
def find (program : Program) (name : Name) : Except Fault (Option Declaration) := do
  return program.declaration? (← name.key)

/-- Use the schema of a declared name. -/
def reference (program : Program) (name : Name) : Compilation Schema := do
  let schemaName ← program.settings.nameOf name
  Traced.emit (.dependency schemaName)
  return .reference schemaName

/-- The tags that are followed. -/
def tags (program : Program) (tags : Tags) : Tags :=
  if program.settings.skipAnnotations.truthy then [] else tags

/-- The keys that a type stands for: a literal text or a union of them. -/
def literalKeys (projection : String) (environment : Option Environment) :
    List TypeExpr → Except Failure (List String)
  | [] => .ok []
  | arm :: rest => do
    let (arm, _) ← Environment.resolve? environment arm.unwrap
    match arm with
    | .literal (.str key) => return key :: (← literalKeys projection environment rest)
    | other => throw (.compile (.unsupportedProjection projection other.kindName))

/-- The keys of a projection. -/
def projectionKeys (projection : String) (keys : Option TypeExpr)
    (environment : Option Environment) : Except Failure (List String) :=
  match keys with
  | none => .error (.compile (.unsupportedProjection projection "Missing"))
  | some keys => do
    let (keys, environment) ← Environment.resolve? environment keys.unwrap
    match keys with
    | .union arms => literalKeys projection environment arms
    | other => literalKeys projection environment [other]

/-- The schema with only some of its properties. -/
def project (target : Schema) (projection : String) (keys : Option TypeExpr)
    (environment : Option Environment) : Except Failure Schema := do
  let names ← projectionKeys projection keys environment
  let mask := Schema.object (names.map fun name => (name, .value (.bool true)))
  return target.modify ⟨String.ofList (projection.toList.map Char.toLower), [mask], false⟩

/-- The schema of one extended interface. -/
def inherited (program : Program) (clause : Heritage) : Compilation Schema := do
  let schema ← program.reference clause.name
  match clause.projection with
  | none => return schema
  | some projection => project schema projection.typeName clause.keys none

/-- A schema extended by the properties of further interfaces. -/
def extend (program : Program) (chain : Schema) : List Heritage → Compilation Schema
  | [] => return chain
  | clause :: rest => do
    let schema ← program.inherited clause
    program.extend (chain.modify ⟨"extend", [.field (some schema) "shape"], false⟩) rest

/-- The schema of all extended interfaces together. -/
def inheritedChain (program : Program) : List Heritage → Compilation (Option Schema)
  | [] => return none
  | clause :: rest => do
    let schema ← program.inherited clause
    return some (← program.extend schema rest)

/-- The schema of an interface that extends others: theirs, and then its own properties. -/
def extensionChain (program : Program) (heritage : List Heritage) (own : Option Schema) :
    Compilation (Option Schema) := do
  let chain ← program.inheritedChain heritage
  match own with
  | none => return chain
  | some own =>
    match own.base, chain with
    | .object [], chain => return chain
    | .object _, some chain => return some (chain.modify ⟨"extend", [own], false⟩)
    | _, _ => Traced.fail (.fault .noPart)

end Program

end Schemata
