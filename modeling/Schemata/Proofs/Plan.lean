import Schemata.Compiler

/-!
# Plans of compilation

The compiler carries what bound parameters mean beside the environment and counts the nestings that
are left. The recursion behind it can be told in terms of types and environments alone. A `Job` asks
for the schema of a type in an environment and a context. `Program.plan` says how a job is done: it
names the further jobs that are to be done first, in order, and how their schemas are put together.
`Program.use` is the part of it that tells what a reference asks for.
-/

namespace Schemata

/-- A type whose schema is asked for, in an environment and a context. -/
structure Job where
  type : TypeExpr
  environment : Environment
  context : Context

/-- How a job is done: the jobs before it, and what their schemas are put together to. -/
structure Plan where
  jobs : List Job
  assemble : List Schema → Compilation Schema

namespace Plan

/-- A plan without further jobs. -/
def leaf (schema : Compilation Schema) : Plan := ⟨[], fun _ => schema⟩

/-- The plan that leaves everything to another job. -/
def through (job : Job) : Plan := ⟨[job], fun schemas => return schemas.headD .blank⟩

/-- Follow a plan, given how jobs are done. -/
def run (plan : Plan) (compile : Job → Compilation Schema) : Compilation Schema := do
  plan.assemble (← plan.jobs.mapM compile)

end Plan

/-- What a reference is compiled as. -/
inductive Use where
  /-- Another type, read in an environment of its own. -/
  | type (type : TypeExpr) (environment : Environment)
  /-- The body of an interface; `off` is the context of its members when it is switched off. -/
  | interface (declared : Interface) (environment : Environment) (off : Option Context)
  /-- The name with its arguments. -/
  | name (use : NameUse TypeExpr)

namespace Program

section Use

variable (program : Program)

/-- Bind parameters in order, each to its argument, read in the environment of the caller, or to
its default as far as the parameters before it are bound. -/
def bindTypes (caller : Environment) :
    List GenericParameter → List TypeExpr → Environment → Except Fault Environment
  | [], _, inner => .ok inner
  | parameter :: rest, argument :: others, inner => do
    bindTypes caller rest others (← inner.bind parameter.name argument caller)
  | ⟨name, _, some type⟩ :: rest, [], inner => do
    bindTypes caller rest [] (← inner.bind name type inner)
  | ⟨_, _, none⟩ :: rest, [], inner => bindTypes caller rest [] inner

/-- The environment in which the body of a generic declaration is compiled. -/
def instantiation (parameters : List GenericParameter) (name : Name) (arguments : List TypeExpr)
    (environment : Environment) : Compilation Environment := do
  let inner ← bindTypes environment parameters arguments environment.enter
  Compilation.note
    (.instantiating (← (TypeExpr.reference name arguments).text) inner.display)
  return inner

/-- Make sure that one more body may be inside of an environment. -/
def checkDepth (name : Name) (environment : Environment) : Compilation Unit :=
  if program.nestingsLeft environment.depth = 0 then Traced.fail (program.tooDeep name)
  else return ()

/-- The use of a reserved interface, in the environment of its body. -/
def reservedUse (declared : Interface) (environment : Environment) : Compilation Use :=
  match declared.parameters with
  | [parameter] => do
    let off ← offContext program parameter environment
    let _ ← parameter.name.key
    return .interface declared (environment.without parameter.name) off
  | _ => Compilation.reject (.reservedArity declared.name)

/-- The use of a generic declaration with arguments, in the environment of its body. -/
def genericUse (environment : Environment) : Declaration → Compilation Use
  | .typeAlias declared => return .type declared.type environment
  | .interface declared => do
    match ← program.reserved? (some (.interface declared)) with
    | some declared => program.reservedUse declared environment
    | none => return .interface declared environment none
  | .enumeration _ => Traced.fail (.fault .noPart)

/-- What a reference is compiled as: a parameter stands for what it is bound to, and a generic
declaration with arguments and a reserved interface are entered. -/
def use (environment : Environment) (name : Name) (arguments : List TypeExpr) :
    Compilation Use := do
  match environment.binding? (← name.key) with
  | some binding => return .type binding.type binding.environment
  | none =>
    let found ← program.find name
    match found.filter fun declaration =>
        !arguments.isEmpty && !declaration.parameters.isEmpty with
    | some declaration =>
      program.checkDepth declaration.name environment
      let inner ← instantiation declaration.parameters name arguments environment
      program.genericUse inner declaration
    | none =>
      match ← program.reserved? found with
      | some declared =>
        program.checkDepth declared.name environment
        program.reservedUse declared environment.enter
      | none => return .name (← program.nameUse id name environment arguments)

/-- The use of an interface that is compiled on its own. -/
def interfaceUse (declared : Interface) : Compilation Use := do
  match ← program.reserved? (some (.interface declared)) with
  | some declared => program.reservedUse declared .empty
  | none =>
    if declared.parameters.isEmpty then return .interface declared .empty none
    else Compilation.reject .genericInterface

end Use

section Objects

variable (program : Program) (off : Option Context) (environment : Environment)

/-- The jobs of the members that have a type, with the names of the members. -/
def memberJobs (members : List (Member TypeExpr)) : List (String × Job) :=
  members.filterMap fun member =>
    member.type.map fun type => (member.name, ⟨type, environment, program.memberContext off member⟩)

variable {program off environment} in
/-- A member without a type has no job. -/
theorem member_jobs_untyped {member : Member TypeExpr} (h : member.type = none)
    (rest : List (Member TypeExpr)) : program.memberJobs off environment (member :: rest) =
      program.memberJobs off environment rest := by
  simp [memberJobs, h]

variable {program off environment} in
/-- A member with a type has a job of this type. -/
theorem member_jobs_typed {member : Member TypeExpr} {type : TypeExpr} (h : member.type = some type)
    (rest : List (Member TypeExpr)) : program.memberJobs off environment (member :: rest) =
      (member.name, ⟨type, environment, program.memberContext off member⟩) ::
        program.memberJobs off environment rest := by
  simp [memberJobs, h]

/-- The job of an index signature. -/
def indexJob (signature : IndexSignature TypeExpr) : Job :=
  ⟨signature.type.getD (.keyword .any), environment, {}⟩

/-- The plan of an object type or of the body of an interface. -/
def objectPlan (members : List (Member TypeExpr)) (index : Option (IndexSignature TypeExpr))
    (finish : Schema → Compilation Schema) : Plan :=
  let named := program.memberJobs off environment members
  { jobs := named.map (·.2) ++ (index.map (indexJob environment)).toList
    assemble := fun schemas =>
      finish (objectSchema ((named.map (·.1)).zip schemas) schemas[named.length]?) }

/-- The plan of an interface. -/
def interfacePlan (declared : Interface) (context : Context) : Compilation Plan :=
  let strict : List Modifier :=
    if (program.tags declared.tags).strict then [⟨"strict", [], false⟩] else []
  let finish (schema : Schema) := program.finish context (schema.withModifiers strict)
  match declared.heritage with
  | [] => return program.objectPlan off environment declared.members declared.index finish
  | heritage =>
    if declared.index.isSome then Compilation.reject .extendedIndexSignature
    else
      let named := program.memberJobs off environment declared.members
      return {
        jobs := named.map (·.2)
        assemble := fun schemas => do
          let own := Schema.object ((named.map (·.1)).zip schemas)
          match ← program.extensionChain heritage (some own) with
          | some schema => finish schema
          | none => Traced.fail (.fault .noPart) }

end Objects

section Types

variable (program : Program) (environment : Environment) (context : Context)

/-- The plan of a name with its arguments. -/
def namePlan (name : Name) : NameUse TypeExpr → Plan
  | .date => .leaf (program.finish context (.call "date" []))
  | .maybe argument =>
    { jobs := [⟨argument, environment, {}⟩]
      assemble := fun schemas =>
        return (Schema.helper "maybe" schemas).withModifiers
          (Refinement.flagged context.optional "optional") }
  | .array element =>
    { jobs := [⟨element, environment, { tags := context.tags.element }⟩]
      assemble := fun schemas => program.finish context (.call "array" schemas) }
  | .adjusted argument adjust => .through ⟨argument, environment, adjust context⟩
  | .record key value =>
    { jobs := (value.getD (.keyword .any) :: key.toList).map (⟨·, environment, {}⟩)
      assemble := fun schemas => program.finish context (.call "record" schemas.reverse) }
  | .call callee arguments =>
    { jobs := arguments.map (⟨·, environment, {}⟩)
      assemble := fun schemas => program.finish context (.call callee schemas) }
  | .projected projection target keys =>
    { jobs := [⟨target, environment, {}⟩]
      assemble := fun schemas => do
        let target := schemas.headD .blank
        program.finish context (← project target projection.typeName keys (some environment)) }
  | .schema => .leaf (do program.finish context (← program.reference name))

/-- The plan of a use. -/
def usePlan (name : Name) : Use → Compilation Plan
  | .type type inner => return .through ⟨type, inner, context⟩
  | .interface declared inner off => program.interfacePlan off inner declared context
  | .name use => return program.namePlan environment context name use

/-- The type of the elements of a type that is written as an array. -/
def elementOf? (type : TypeExpr) : Option (TypeExpr × Environment) :=
  match type.unwrap with
  | .array element => some (element, environment)
  | .reference name (first :: _) =>
    if name.isOneOf arrayNames then some (first, environment) else none
  | _ => none

/-- The type of the elements of a type that leads to an array through bound parameters. -/
def elementType (type : TypeExpr) :
    Except Fault (Option (TypeExpr × Environment)) :=
  (environment.resolve type).map fun (type, environment) => elementOf? environment type

/-- The type of the elements that the last element of a tuple spreads. -/
def spreadType (elements : List TypeExpr) :
    Except Fault (Option (TypeExpr × Environment)) :=
  match elements.getLast? with
  | some (.spread type) => elementType environment type
  | _ => .ok none

/-- The job of an element of a tuple. -/
def slotJob : TypeExpr → Job
  | .named _ type optional => ⟨type, environment, { optional := optional }⟩
  | type => ⟨type, environment, {}⟩

/-- The job of a parameter of a function. -/
def parameterJob (parameter : Parameter TypeExpr) : Job :=
  ⟨parameter.type.getD (.keyword .any), environment, { optional := parameter.optional }⟩

/-- The plan of a type, except for what replaces or follows its schema as source text. -/
def typePlan : TypeExpr → Compilation Plan
  | .reference name arguments => do
    program.usePlan environment context name (← program.use environment name arguments)
  | .object members index =>
    return program.objectPlan none environment members index (program.finish context)
  | .union arms =>
    let kept := arms.filter (!·.isNull)
    let context := { context with nullable := context.nullable || kept.length ≠ arms.length }
    match kept with
    | [] => return .leaf (program.finish { context with nullable := false } (.call "null" []))
    | [arm] => return .through ⟨arm, environment, context⟩
    | _ =>
      return {
        jobs := kept.map (⟨·, environment, {}⟩)
        assemble := fun schemas => program.unionSchema environment kept schemas context }
  | .intersection [] => return .leaf (program.unsupported (some (.intersection [])) context)
  | .intersection (first :: rest) =>
    return {
      jobs := (first :: rest).map (⟨·, environment, {}⟩)
      assemble := fun schemas =>
        let others := schemas.tail.map fun other => ⟨"and", [other], false⟩
        program.finish context ((schemas.headD .blank).withModifiers others) }
  | .tuple elements => do
    let modifiers ← program.modifiers context
    match ← spreadType environment elements with
    | some (type, inner) =>
      return {
        jobs := ⟨type, inner, {}⟩ :: elements.dropLast.map (slotJob environment)
        assemble := fun schemas =>
          return Schema.combinator "tuple" [.array schemas.tail]
            (⟨"rest", schemas.take 1, false⟩ :: modifiers) }
    | none =>
      return {
        jobs := elements.map (slotJob environment)
        assemble := fun schemas =>
          return Schema.combinator "tuple" [.array schemas] modifiers }
  | .literal .null => return .leaf (program.finish context (.call "null" []))
  | .literal value => return .leaf (program.finish context (.call "literal" [.value value]))
  | .enumMember enumName memberName =>
    let symbol := Schema.symbol (.str (enumName.display ++ "." ++ memberName.display))
    return .leaf (program.finish context (.call "literal" [symbol]))
  | .array element =>
    return {
      jobs := [⟨element, environment, { tags := context.tags.element }⟩]
      assemble := fun schemas => program.finish context (.call "array" schemas) }
  | .function parameters result =>
    return {
      jobs := parameters.map (parameterJob environment) ++ [⟨result, environment, {}⟩]
      assemble := fun schemas =>
        program.finish context ((Schema.call "function" []).withModifiers
          [⟨"args", schemas.dropLast, false⟩, ⟨"returns", schemas.getLast?.toList, false⟩]) }
  | .indexed base index =>
    return .leaf do
      match ← program.indexedAccess (some environment) (.indexed base index) with
      | some schema => program.finish context schema
      | none => program.finish context (.call "any" [])
  | .template head spans =>
    return .leaf do
      match ← program.expand environment head spans with
      | some values => return values.schema (← program.modifiers context)
      | none => program.finish context (.call "any" [])
  | .keyword keyword => return .leaf (program.keywordSchema keyword context)
  | .paren type => return .through ⟨type, environment, context⟩
  | .spread type => return .leaf (program.unsupported (some (.spread type)) context)
  | .named name type optional =>
    return .leaf (program.unsupported (some (.named name type optional)) context)
  | .unsupported kind text =>
    return .leaf (program.unsupported (some (.unsupported kind text)) context)

end Types

/-- The plan of a job. Source text may replace the schema, or be added to it when it starts with a
dot. -/
def plan (program : Program) (job : Job) : Compilation Plan :=
  match job.context.tags.override? with
  | none => program.typePlan job.environment job.context job.type
  | some text =>
    match text.toList with
    | '.' :: added => do
      let context := { job.context with tags := job.context.tags.without Tags.overrideTag }
      let plan ← program.typePlan job.environment context job.type
      return { plan with
        assemble := fun schemas => do
          return (← plan.assemble schemas).modify ⟨String.ofList added, [], true⟩ }
    | _ => return .leaf (return .verbatim text)

/-- The plan of a declaration. -/
def declarationPlan (program : Program) : Declaration → Compilation Plan
  | .enumeration declared => return .leaf (return .call "nativeEnum" [.symbol declared.name])
  | .interface declared => do
    program.usePlan .empty {} declared.name (← program.interfaceUse declared)
  | .typeAlias declared =>
    if declared.parameters.isEmpty then
      return .through ⟨declared.type, .empty, { tags := program.tags declared.tags }⟩
    else Compilation.reject .genericAlias

/-- The schema that a job asks for. -/
def compile (program : Program) (job : Job) : Compilation Schema :=
  inContext (typeSchema program (program.bodyFrom job.environment) job.type job.environment
    (program.meaningsOf job.environment)) job.context

end Program

end Schemata
