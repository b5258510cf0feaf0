import Schemata.Access
import Schemata.Refinement
import Schemata.Template

/-!
# Compilation

`Program.schemaOf` compiles a type to a schema, `Program.declarationSchema` a declaration. Types are
compiled by recursion on their structure. What the parameters of a generic declaration mean is
carried along as computations, `Meanings`, beside the environment that names their types: an
argument is compiled where it is written, in the environment it is written in. The body of a generic
declaration is compiled by `Program.bodyWithin`, by recursion on the number of further nestings that
the limit allows. So every compilation ends.
-/

namespace Schemata

/-- What a bound parameter means to the compilation of a type that mentions it. -/
structure Meaning where
  /-- The schema of the bound type in a context. -/
  schema : Context → Compilation Schema
  /-- The schema of the elements in a context, if the bound type leads to an array. -/
  elements : Except Fault (Option (Context → Compilation Schema))

/-- What the parameters of an environment mean, by their keys. -/
abbrev Meanings := Key → Option Meaning

/-- The meanings with one more parameter. -/
def Meanings.bind (meanings : Meanings) (key : Key) (meaning : Meaning) : Meanings :=
  fun other => if other = key then some meaning else meanings other

/-- The meanings without a parameter. -/
def Meanings.without (meanings : Meanings) (key : Key) : Meanings :=
  fun other => if other = key then none else meanings other

/-- An argument of a generic declaration: its type, where that is read, and what it means. -/
structure Argument where
  type : TypeExpr
  environment : Environment
  meaning : Meaning

/-- A declaration whose body is compiled in place of a reference to it. With arguments, the
reference is kept for a log line. -/
inductive Entry where
  | typeAlias (declared : Alias) (reference : TypeExpr) (arguments : List Argument)
  | interface (declared : Interface) (reference : TypeExpr) (arguments : List Argument)
  /-- A reserved interface without arguments. -/
  | reserved (declared : Interface)

/-- The name of the declaration that is entered. -/
def Entry.name : Entry → Name
  | .typeAlias declared _ _ => declared.name
  | .interface declared _ _ => declared.name
  | .reserved declared => declared.name

/-- A generic declaration that is entered, if there are arguments. -/
def Entry.ofGeneric? (reference : TypeExpr) (arguments : List Argument) :
    Option Declaration → Option Entry
  | some (.typeAlias declared) =>
    if arguments.isEmpty || declared.parameters.isEmpty then none
    else some (.typeAlias declared reference arguments)
  | some (.interface declared) =>
    if arguments.isEmpty || declared.parameters.isEmpty then none
    else some (.interface declared reference arguments)
  | _ => none

/-- How the body of a declaration is compiled, from an environment of a given depth. -/
abbrev Body := Entry → Nat → Context → Compilation Schema

/-- Compile in a context in which source text may replace the schema, or be added to it when it
starts with a dot. -/
def inContext (compile : Context → Compilation Schema) (context : Context) :
    Compilation Schema :=
  match context.tags.override? with
  | none => compile context
  | some text =>
    match text.toList with
    | '.' :: added => do
      let schema ← compile { context with tags := context.tags.without Tags.overrideTag }
      return schema.modify ⟨String.ofList added, [], true⟩
    | _ => return .verbatim text

/-- A type constructor that is known without a declaration. -/
inductive Builtin where
  | date
  | array
  /-- All properties may be left out. -/
  | allOptional
  /-- No property may be left out. -/
  | allRequired
  | readonly
  | record
  | set
  | promise
  | projection (projection : Projection)
  deriving DecidableEq, Repr

/-- The names of the known type constructors. -/
def Builtin.names : List (String × Builtin) :=
  [("Date", .date), ("Array", .array), ("ReadonlyArray", .array), ("Partial", .allOptional),
   ("Required", .allRequired), ("Readonly", .readonly), ("Record", .record), ("Set", .set),
   ("Promise", .promise), (Projection.omit.typeName, .projection .omit),
   (Projection.pick.typeName, .projection .pick)]

/-- The known type constructor of a name. -/
def Builtin.ofName? : Name → Option Builtin
  | .str text => (Builtin.names.find? (·.1 = text)).map (·.2)
  | _ => none

/-- What a name that is not entered is compiled as, with arguments of kind `α`. -/
inductive NameUse (α : Type) where
  | date
  /-- A value that may be absent. -/
  | maybe (argument : α)
  | array (element : α)
  /-- The argument itself, in a changed context. -/
  | adjusted (argument : α) (adjust : Context → Context)
  /-- A record. Without a type of keys any text is a key, and without a type of values any value is
  one. -/
  | record (key value : Option α)
  /-- A call on the validator namespace. -/
  | call (callee : String) (arguments : List α)
  | projected (projection : Projection) (target : α) (keys : Option TypeExpr)
  /-- The schema that is defined for the name. -/
  | schema

/-- Whether a type is the literal null, in parentheses or not. -/
def TypeExpr.isNull (type : TypeExpr) : Bool :=
  type.unwrap matches .literal .null

namespace Program

/-- The modifiers that a context calls for. -/
def modifiers (program : Program) (context : Context) : Compilation (List Modifier) := do
  context.modifiers (← Settings.given program.settings.customFormats)

/-- A schema with the modifiers that a context calls for. -/
def finish (program : Program) (context : Context) (schema : Schema) : Compilation Schema := do
  return schema.withModifiers (← program.modifiers context)

/-- The schema of a predefined type. -/
def keywordSchema (program : Program) (keyword : Keyword) (context : Context) :
    Compilation Schema :=
  program.finish context <|
    match keyword with
    | .object => .call "record" [.call "any" []]
    | keyword => .call keyword.word []

/-- The schema of any value, in place of a type that has no schema, with a warning. -/
def unsupported (program : Program) (type : Option TypeExpr) (context : Context) :
    Compilation Schema := do
  Compilation.warn (.unsupportedType (← TypeExpr.optionText type))
  program.finish context (.call "any" [])

/-- The schema of an array, given how its elements are compiled. -/
def arraySchema (program : Program) (element : Context → Compilation Schema) (context : Context) :
    Compilation Schema := do
  let schema ← element { tags := context.tags.element }
  program.finish context (.call "array" [schema])

/-- The schema of an object from its properties and the schema of its index signature. With both,
the one is required beside the other. -/
def objectSchema (entries : List (String × Schema)) : Option Schema → Schema
  | none => .call "object" [.object entries]
  | some value =>
    let record := Schema.call "record" [value]
    if entries.isEmpty then record
    else record.modify ⟨"and", [.call "object" [.object entries]], false⟩

/-- The context of a member. In a reserved interface that is switched off, all members have the same
context but for their tags. -/
def memberContext (program : Program) (off : Option Context) (member : Member TypeExpr) :
    Context :=
  let tags := program.tags member.tags
  match off with
  | none => { optional := member.optional, tags := tags }
  | some context => { context with tags := tags }

/-- Whether the arms of a union can be told apart by a field: each is an object type that has the
field, or a named type. -/
def discriminated (environment : Environment) (field : String) :
    List TypeExpr → Compilation Bool
  | [] => return true
  | arm :: rest => do
    let arm := (← environment.substitute arm).unwrap
    match arm with
    | .reference _ _ => discriminated environment field rest
    | .object members _ =>
      match findMember? members (.str field) with
      | some _ => discriminated environment field rest
      | none =>
        Compilation.warn (.armWithoutField (← arm.text) field)
        return false
    | _ =>
      Compilation.warn (.armNotAnObject (← arm.text))
      return false

/-- The schema of a union of at least two arms. -/
def unionSchema (program : Program) (environment : Environment) (arms : List TypeExpr)
    (schemas : List Schema) (context : Context) : Compilation Schema := do
  let modifiers ← program.modifiers context
  let field := context.tags.discriminator?.getD ""
  if field ≠ "" then
    if ← discriminated environment field arms then
      return Schema.combinator "discriminatedUnion" [.value (.str field), .array schemas] modifiers
  return Schema.combinator "union" [.array schemas] modifiers

/-- The interface with a special meaning that a declaration is, if it is one. -/
def reserved? (program : Program) : Option Declaration → Except Fault (Option Interface)
  | some (.interface declared) => do
    return if ← program.settings.isMaybeName declared.name then some declared else none
  | _ => .ok none

/-- Whether any text is a key of a record whose type of keys is given. -/
def anyKey (environment : Environment) (key : TypeExpr) : Except Fault Bool := do
  return (← environment.substitute key) matches .keyword .string

/-- What a name is compiled as with its arguments. -/
def nameUse {α : Type} (program : Program) (typeOf : α → TypeExpr) (name : Name)
    (environment : Environment) : List α → Compilation (NameUse α)
  | [] => return if Builtin.ofName? name = some .date then .date else .schema
  | first :: rest => do
    if Builtin.ofName? name = some .date then return .date
    if ← program.settings.isMaybeName name then
      Traced.emit .helper
      return .maybe first
    match Builtin.ofName? name with
    | some .date => return .date
    | some .array => return .array first
    | some .allOptional => return .adjusted first ({ · with allOptional := true })
    | some .allRequired => return .adjusted first ({ · with allRequired := true })
    | some .readonly => return .adjusted first id
    | some .record =>
      return .record (if ← anyKey environment (typeOf first) then none else some first) rest.head?
    | some .set => return .call "set" (first :: rest)
    | some .promise => return .call "promise" (first :: rest)
    | some (.projection projection) =>
      return .projected projection first (rest.head?.map typeOf)
    | none =>
      let reference := TypeExpr.reference name ((first :: rest).map typeOf)
      Compilation.note (.ignoredArguments (← reference.text))
      return .schema

/-- The schema of a name that is not entered, given how its arguments are compiled. -/
def nameSchema {α : Type} (program : Program) (schemaOf : α → Context → Compilation Schema)
    (name : Name) (environment : Environment) (context : Context) :
    NameUse α → Compilation Schema
  | .date => program.finish context (.call "date" [])
  | .maybe argument => do
    return (Schema.helper "maybe" [← schemaOf argument {}]).withModifiers
      (Refinement.flagged context.optional "optional")
  | .array element => program.arraySchema (schemaOf element) context
  | .adjusted argument adjust => schemaOf argument (adjust context)
  | .record key value => do
    let value ← match value with
      | none => program.keywordSchema .any {}
      | some value => schemaOf value {}
    match key with
    | none => program.finish context (.call "record" [value])
    | some key => program.finish context (.call "record" [← schemaOf key {}, value])
  | .call callee arguments => do
    let schemas ← arguments.mapM (schemaOf · {})
    program.finish context (.call callee schemas)
  | .projected projection target keys => do
    let target ← schemaOf target {}
    program.finish context (← project target projection.typeName keys (some environment))
  | .schema => do program.finish context (← program.reference name)

/-- The schema of a reference. A parameter stands for what it is bound to; a generic declaration
with arguments and a reserved interface are entered. -/
def referenceSchema (program : Program) (body : Body) (name : Name) (arguments : List Argument)
    (environment : Environment) (meanings : Meanings) (context : Context) :
    Compilation Schema := do
  match meanings (← name.key) with
  | some meaning => meaning.schema context
  | none =>
    let declaration ← program.find name
    let reference := TypeExpr.reference name (arguments.map Argument.type)
    match Entry.ofGeneric? reference arguments declaration with
    | some entry => body entry environment.depth context
    | none =>
      match ← program.reserved? declaration with
      | some declared => body (.reserved declared) environment.depth context
      | none => do
        let use ← program.nameUse Argument.type name environment arguments
        program.nameSchema (·.meaning.schema) name environment context use

section Types

variable (program : Program) (body : Body)

mutual

/-- The schema of a type, except for what replaces or follows it as source text. -/
def typeSchema : TypeExpr → Environment → Meanings → Context → Compilation Schema
  | .reference name arguments, environment, meanings, context =>
    program.referenceSchema body name (typeArguments arguments environment meanings) environment
      meanings context
  | .object members index, environment, meanings, context => do
    let entries ← memberSchemas none members environment meanings
    let value ← indexSchema index environment meanings
    program.finish context (objectSchema entries value)
  | .union arms, environment, meanings, context => do
    let kept := arms.filter (!·.isNull)
    let context := { context with nullable := context.nullable || kept.length ≠ arms.length }
    if kept.length ≤ 1 then onlyArmSchema arms environment meanings context
    else
      let schemas ← armSchemas arms environment meanings
      program.unionSchema environment kept schemas context
  | .intersection [], _, _, context => program.unsupported (some (.intersection [])) context
  | .intersection (first :: rest), environment, meanings, context => do
    let schema ← inContext (typeSchema first environment meanings) {}
    let others ← typeSchemas rest environment meanings
    program.finish context
      (schema.withModifiers (others.map fun other => ⟨"and", [other], false⟩))
  | .tuple elements, environment, meanings, context => do
    let modifiers ← program.modifiers context
    match ← spreadSchema elements environment meanings with
    | some compiled => do
      let spread ← compiled {}
      let slots ← slotSchemas true elements environment meanings
      return Schema.combinator "tuple" [.array slots] (⟨"rest", [spread], false⟩ :: modifiers)
    | none => do
      let slots ← slotSchemas false elements environment meanings
      return Schema.combinator "tuple" [.array slots] modifiers
  | .literal .null, _, _, context => program.finish context (.call "null" [])
  | .literal value, _, _, context => program.finish context (.call "literal" [.value value])
  | .enumMember enumName memberName, _, _, context =>
    let symbol := Schema.symbol (.str (enumName.display ++ "." ++ memberName.display))
    program.finish context (.call "literal" [symbol])
  | .array element, environment, meanings, context =>
    program.arraySchema (inContext (typeSchema element environment meanings)) context
  | .function parameters result, environment, meanings, context => do
    let arguments ← parameterSchemas parameters environment meanings
    let returns ← inContext (typeSchema result environment meanings) {}
    program.finish context ((Schema.call "function" []).withModifiers
      [⟨"args", arguments, false⟩, ⟨"returns", [returns], false⟩])
  | .indexed base index, environment, _, context => do
    match ← program.indexedAccess (some environment) (.indexed base index) with
    | some schema => program.finish context schema
    | none => program.finish context (.call "any" [])
  | .template head spans, environment, _, context => do
    match ← program.expand environment head spans with
    | some values => return values.schema (← program.modifiers context)
    | none => program.finish context (.call "any" [])
  | .keyword keyword, _, _, context => program.keywordSchema keyword context
  | .paren type, environment, meanings, context =>
    inContext (typeSchema type environment meanings) context
  | .spread type, _, _, context => program.unsupported (some (.spread type)) context
  | .named name type optional, _, _, context =>
    program.unsupported (some (.named name type optional)) context
  | .unsupported kind text, _, _, context =>
    program.unsupported (some (.unsupported kind text)) context

/-- The schemas of types that nothing is asked of. -/
def typeSchemas : List TypeExpr → Environment → Meanings → Compilation (List Schema)
  | [], _, _ => return []
  | type :: rest, environment, meanings => do
    let first ← inContext (typeSchema type environment meanings) {}
    return first :: (← typeSchemas rest environment meanings)

/-- The arguments of a reference, as they are handed to a generic declaration. -/
def typeArguments : List TypeExpr → Environment → Meanings → List Argument
  | [], _, _ => []
  | type :: rest, environment, meanings =>
    ⟨type, environment,
      inContext (typeSchema type environment meanings),
      elementSchema true true type environment meanings⟩ ::
      typeArguments rest environment meanings

/-- The schema of the elements of a type that leads to an array. Parameters are followed to what
they stand for, inside of parentheses only if `inside` says so. -/
def elementSchema (inside follow : Bool) : TypeExpr → Environment → Meanings →
    Except Fault (Option (Context → Compilation Schema))
  | .paren type, environment, meanings => elementSchema inside inside type environment meanings
  | .array element, environment, meanings =>
    .ok (some (inContext (typeSchema element environment meanings)))
  | .reference name [], _, meanings =>
    if follow then do
      match meanings (← name.key) with
      | some meaning => meaning.elements
      | none => return none
    else .ok none
  | .reference name (first :: _), environment, meanings =>
    .ok (if name.isOneOf arrayNames then
      some (inContext (typeSchema first environment meanings))
    else none)
  | _, _, _ => .ok none

/-- The schema of the elements that the last element of a tuple spreads. -/
def spreadSchema : List TypeExpr → Environment → Meanings →
    Except Fault (Option (Context → Compilation Schema))
  | [], _, _ => .ok none
  | [.spread type], environment, meanings => elementSchema false true type environment meanings
  | _ :: rest, environment, meanings => spreadSchema rest environment meanings

/-- The schemas of the elements of a tuple, without the last one if that is spread. -/
def slotSchemas (spread : Bool) : List TypeExpr → Environment → Meanings →
    Compilation (List Schema)
  | [], _, _ => return []
  | .named _ type optional :: rest, environment, meanings => do
    let first ← inContext (typeSchema type environment meanings) { optional := optional }
    return first :: (← slotSchemas spread rest environment meanings)
  | type :: rest, environment, meanings =>
    if spread && rest.isEmpty then return []
    else do
      let first ← inContext (typeSchema type environment meanings) {}
      return first :: (← slotSchemas spread rest environment meanings)

/-- The schema of a union with at most one arm that is not null: of that arm, else of null. -/
def onlyArmSchema : List TypeExpr → Environment → Meanings → Context → Compilation Schema
  | [], _, _, context => program.finish { context with nullable := false } (.call "null" [])
  | arm :: rest, environment, meanings, context =>
    if arm.isNull then onlyArmSchema rest environment meanings context
    else inContext (typeSchema arm environment meanings) context

/-- The schemas of the arms that are not null. -/
def armSchemas : List TypeExpr → Environment → Meanings → Compilation (List Schema)
  | [], _, _ => return []
  | arm :: rest, environment, meanings =>
    if arm.isNull then armSchemas rest environment meanings
    else do
      let first ← inContext (typeSchema arm environment meanings) {}
      return first :: (← armSchemas rest environment meanings)

/-- The properties of an object, one for every member that has a type. -/
def memberSchemas (off : Option Context) : List (Member TypeExpr) → Environment → Meanings →
    Compilation (List (String × Schema))
  | [], _, _ => return []
  | ⟨_, none, _, _, _⟩ :: rest, environment, meanings =>
    memberSchemas off rest environment meanings
  | ⟨name, some type, optional, readonly, tags⟩ :: rest, environment, meanings => do
    let context := program.memberContext off ⟨name, none, optional, readonly, tags⟩
    let first ← inContext (typeSchema type environment meanings) context
    return (name, first) :: (← memberSchemas off rest environment meanings)

/-- The schema of the values of an index signature; without a type they are any values. -/
def indexSchema : Option (IndexSignature TypeExpr) → Environment → Meanings →
    Compilation (Option Schema)
  | none, _, _ => return none
  | some ⟨_, _, none⟩, _, _ => some <$> program.keywordSchema .any {}
  | some ⟨_, _, some type⟩, environment, meanings =>
    some <$> inContext (typeSchema type environment meanings) {}

/-- The schemas of the parameters of a function; without a type they are any values. -/
def parameterSchemas : List (Parameter TypeExpr) → Environment → Meanings →
    Compilation (List Schema)
  | [], _, _ => return []
  | ⟨_, none, optional⟩ :: rest, environment, meanings => do
    let first ← program.keywordSchema .any { optional := optional }
    return first :: (← parameterSchemas rest environment meanings)
  | ⟨_, some type, optional⟩ :: rest, environment, meanings => do
    let first ← inContext (typeSchema type environment meanings) { optional := optional }
    return first :: (← parameterSchemas rest environment meanings)

end

/-- What a type in an environment means. -/
def meaning (type : TypeExpr) (environment : Environment) (meanings : Meanings) : Meaning :=
  ⟨inContext (typeSchema program body type environment meanings),
    elementSchema program body true true type environment meanings⟩

/-- The schema of an interface without what a context calls for. -/
def interfaceBody (declared : Interface) (environment : Environment) (meanings : Meanings)
    (off : Option Context) : Compilation Schema :=
  match declared.heritage with
  | [] => do
    let entries ← memberSchemas program body off declared.members environment meanings
    return objectSchema entries (← indexSchema program body declared.index environment meanings)
  | heritage =>
    if declared.index.isSome then Compilation.reject .extendedIndexSignature
    else do
      let entries ← memberSchemas program body off declared.members environment meanings
      match ← program.extensionChain heritage (some (.object entries)) with
      | some schema => return schema
      | none => Traced.fail (.fault .noPart)

/-- The schema of an interface. -/
def interfaceSchema (declared : Interface) (environment : Environment) (meanings : Meanings)
    (off : Option Context) (context : Context) : Compilation Schema := do
  let schema ← interfaceBody program body declared environment meanings off
  let strict : List Modifier :=
    if (program.tags declared.tags).strict then [⟨"strict", [], false⟩] else []
  program.finish context (schema.withModifiers strict)

/-- The type that decides whether a reserved interface is switched on: what its parameter is bound
to, else the default of the parameter, else the literal true. -/
def switchType (parameter : GenericParameter) (environment : Environment) :
    Except Fault TypeExpr := do
  match ← environment.lookup parameter.name with
  | some binding => binding.environment.substitute binding.type
  | none =>
    match parameter.default with
    | some type => environment.substitute type
    | none => return .literal (.bool true)

/-- The context of all members of a reserved interface, unless it is switched on by the literal
true. -/
def offContext (parameter : GenericParameter) (environment : Environment) :
    Except Fault (Option Context) := do
  match (← switchType parameter environment).unwrap with
  | .literal (.bool true) => return none
  | _ =>
    match program.settings.maybe with
    | some maybe =>
      return some { optional := maybe.optional.truthy, nullable := maybe.nullable.truthy }
    | none => throw .noPart

/-- The schema of a reserved interface. When its only parameter is the literal true it is an
interface like others; otherwise every member may be absent as the settings say. -/
def reservedSchema (declared : Interface) (environment : Environment) (meanings : Meanings)
    (context : Context) : Compilation Schema := do
  match declared.parameters with
  | [parameter] => do
    let off ← offContext program parameter environment
    let meanings := meanings.without (← parameter.name.key)
    interfaceSchema program body declared (environment.without parameter.name) meanings off context
  | _ => Compilation.reject (.reservedArity declared.name)

/-- Bind the parameters of a declaration, in order: each to its argument, or to its default as far
as the parameters before it are bound. -/
def bindParameters : List GenericParameter → List Argument → Environment → Meanings →
    Except Fault (Environment × Meanings)
  | [], _, environment, meanings => .ok (environment, meanings)
  | parameter :: rest, argument :: others, environment, meanings => do
    let key ← parameter.name.key
    let bound ← environment.bind parameter.name argument.type argument.environment
    bindParameters rest others bound (meanings.bind key argument.meaning)
  | ⟨name, _, some type⟩ :: rest, [], environment, meanings => do
    let key ← name.key
    let bound ← environment.bind name type environment
    bindParameters rest [] bound
      (meanings.bind key (meaning program body type environment meanings))
  | ⟨_, _, none⟩ :: rest, [], environment, meanings =>
    bindParameters rest [] environment meanings

/-- Bind the parameters of a declaration that is entered, and note it. -/
def enter (parameters : List GenericParameter) (reference : TypeExpr) (arguments : List Argument)
    (depth : Nat) : Compilation (Environment × Meanings) := do
  let (environment, meanings) ←
    bindParameters program body parameters arguments (.mk (depth + 1) []) (fun _ => none)
  Compilation.note (.instantiating (← reference.text) environment.display)
  return (environment, meanings)

/-- The schema of the body of a declaration that is entered. -/
def bodySchema : Body
  | .typeAlias declared reference arguments, depth, context => do
    let (environment, meanings) ← enter program body declared.parameters reference arguments depth
    inContext (typeSchema program body declared.type environment meanings) context
  | .interface declared reference arguments, depth, context => do
    let (environment, meanings) ← enter program body declared.parameters reference arguments depth
    match ← program.reserved? (some (.interface declared)) with
    | some declared => reservedSchema program body declared environment meanings context
    | none => interfaceSchema program body declared environment meanings none context
  | .reserved declared, depth, context =>
    reservedSchema program body declared (.mk (depth + 1) []) (fun _ => none) context

end Types

/-- Why a declaration cannot be entered at the limit. -/
def tooDeep (program : Program) (name : Name) : Failure :=
  match program.settings.limit with
  | .incomparable => .fault .wrongKind
  | _ => .compile (.genericDepth name program.settings.depthLimit)

/-- How bodies are compiled when so many more of them may be inside of one another. -/
def bodyWithin (program : Program) : Nat → Body
  | 0 => fun entry _ _ => Traced.fail (program.tooDeep entry.name)
  | more + 1 => bodySchema program (program.bodyWithin more)

/-- How many bodies may be inside of one another when the settings set no limit. -/
def freeNestings : Nat := 1000000000

/-- How many more bodies may be inside of one another at a depth. -/
def nestingsLeft (program : Program) (depth : Nat) : Nat :=
  match program.settings.limit with
  | .atMost bound => (bound - depth).toNat
  | .unlimited => freeNestings - depth
  | .incomparable => 0

/-- How bodies are compiled from an environment. -/
def bodyFrom (program : Program) (environment : Environment) : Body :=
  program.bodyWithin (program.nestingsLeft environment.depth)

mutual

/-- What the parameters of an environment mean. -/
def meaningsOf (program : Program) : Environment → Meanings
  | .mk _ bindings => meaningsIn program bindings

/-- What the binding of a key, if there is one, means. -/
def meaningsIn (program : Program) : List (Binding Environment) → Meanings
  | [] => fun _ => none
  | ⟨name, type, environment⟩ :: rest => fun key =>
    if name.key? = some key then
      some (meaning program (program.bodyFrom environment) type environment
        (meaningsOf program environment))
    else meaningsIn program rest key

end

/-- The schema of a type in an environment. A type that is missing has the schema of any value. -/
def schemaOf (program : Program) (type : Option TypeExpr) (environment : Environment)
    (tags : Tags) : Compilation Schema :=
  let context : Context := { tags := program.tags tags }
  match type with
  | some type =>
    inContext (typeSchema program (program.bodyFrom environment) type environment
      (program.meaningsOf environment)) context
  | none => inContext (program.unsupported none) context

/-- The schema of a declaration. -/
def declarationSchema (program : Program) : Declaration → Compilation Schema
  | .enumeration declared => return .call "nativeEnum" [.symbol declared.name]
  | .interface declared => do
    let body := program.bodyFrom .empty
    match ← program.reserved? (some (.interface declared)) with
    | some declared => reservedSchema program body declared .empty (fun _ => none) {}
    | none =>
      if declared.parameters.isEmpty then
        interfaceSchema program body declared .empty (fun _ => none) none {}
      else Compilation.reject .genericInterface
  | .typeAlias declared =>
    if declared.parameters.isEmpty then
      program.schemaOf (some declared.type) .empty declared.tags
    else Compilation.reject .genericAlias

end Program

end Schemata
