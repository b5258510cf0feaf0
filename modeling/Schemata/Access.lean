import Schemata.Program
import Schemata.TypeExpr.Text

/-!
# Indexed access

An access to a property of a named type becomes a path into the schema of that type. `Chain` is an
indexed access taken apart: its indices from the outermost inward, and what they are taken of.
`Program.indexedAccess` turns a chain into a path. An index that takes the elements of a property
needs the declared type of that property, which `Program.memberType` looks up.
-/

namespace Schemata

/-- What an index takes. -/
inductive IndexKey where
  /-- The property of a name. -/
  | property (name : String)
  /-- The element at a position. -/
  | position (index : Int)
  /-- Any element. -/
  | element
  | unsupported

/-- What an index type takes, read in an environment. -/
def IndexKey.ofType (environment : Option Environment) (index : TypeExpr) :
    Except Fault IndexKey := do
  let (index, _) ← Environment.resolve? environment index.unwrap
  match index with
  | .keyword .number => return .element
  | .literal (.str name) => return .property name
  | .literal (.int place) =>
    return if place = -1 then .element else .position place
  | other =>
    let _ ← other.text
    return .unsupported

/-- An indexed access taken apart. -/
inductive Chain where
  /-- The type that no further index is taken of. -/
  | root (type : TypeExpr)
  /-- An index into what is left of the chain; `access` is the whole type, for messages. -/
  | index (access : TypeExpr) (key : Except Fault IndexKey) (object : Chain)
  /-- A type that cannot be followed. -/
  | broken (reason : Fault)

/-- The chain of a type, given the chains that its parameters lead to. -/
def Chain.build (environment : Option Environment)
    (bound : Name → Except Fault (Option Chain)) : TypeExpr → Chain
  | .paren type => Chain.build environment bound type
  | .indexed base key =>
    .index (.indexed base key) (IndexKey.ofType environment key)
      (Chain.build environment bound base)
  | .reference name [] =>
    match bound name with
    | .ok (some chain) => chain
    | .ok none => .root (.reference name [])
    | .error reason => .broken reason
  | type => .root type

mutual

/-- The chain of a type in an environment. -/
def Environment.chain : Environment → TypeExpr → Chain
  | .mk depth bindings, type =>
    Chain.build (some (.mk depth bindings))
      (fun name => do return Environment.chainIn bindings (← name.key)) type

/-- The chain that the binding of a key, if there is one, leads to. -/
def Environment.chainIn : List (Binding Environment) → Key → Option Chain
  | [], _ => none
  | ⟨name, type, environment⟩ :: rest, key =>
    if name.key? = some key then some (Environment.chain environment type)
    else Environment.chainIn rest key

end

/-- The chain of a type; without an environment there are no parameters to follow. -/
def Chain.ofType (environment : Option Environment) (type : TypeExpr) : Chain :=
  match environment with
  | some environment => environment.chain type
  | none => Chain.build none (fun _ => .ok none) type

/-- The names under which arrays can be written. -/
def arrayNames : List String := ["Array", "ReadonlyArray"]

/-- Whether a name is one of some texts. -/
def Json.isOneOf (name : Name) (texts : List String) : Bool :=
  texts.any (name.isText ·)

/-- The path segment of a property. -/
def shapeSegment (key : String) : String :=
  if Identifier.isIdentifier key then "shape." ++ key else "shape[\"" ++ key ++ "\"]"

namespace Program

/-- Whether a heritage clause does not show a key: `Omit` hides the keys it lists, `Pick` the
others. -/
def hides (clause : Heritage) (key : Json) : Except Failure Bool :=
  match clause.projection with
  | none => .ok false
  | some projection => do
    let names ← projectionKeys projection.typeName clause.keys none
    return (projection = .omit) == names.any fun name => (Json.str name).same key

/-- The first type that a search finds among extended interfaces which show a key. -/
def searchHeritage (key : Json) (search : Name → Compilation (Option TypeExpr)) :
    List Heritage → Compilation (Option TypeExpr)
  | [] => return none
  | clause :: rest => do
    if ← hides clause key then searchHeritage key search rest
    else
      match ← search clause.name with
      | some type => return some type
      | none => searchHeritage key search rest

/-- The declared type of a member, through aliases and extended interfaces. No name is followed
twice on the way, so the number of declarations bounds the steps. -/
def memberTypeWithin (program : Program) (key : Json) :
    Nat → List Key → TypeExpr → Compilation (Option TypeExpr)
  | 0, _, _ => return none
  | steps + 1, seen, container =>
    match container.unwrap with
    | .object members _ => return (findMember? members key).bind Member.type
    | .reference name _ => do
      let nameKey ← name.key
      if nameKey ∈ seen then return none
      let search := program.memberTypeWithin key steps (nameKey :: seen)
      match program.declaration? nameKey with
      | some (.typeAlias declared) => search declared.type
      | some (.interface declared) =>
        match findMember? declared.members key with
        | some member => return member.type
        | none =>
          let searchName (name : Name) := search (.reference name [])
          match ← searchHeritage key searchName declared.heritage with
          | some type => return some type
          | none =>
            Compilation.note (.memberNotFound key name)
            return none
      | _ =>
        Compilation.note (.memberNotFound key name)
        return none
    | _ => return none

/-- The declared type of a member of a type. -/
def memberType (program : Program) (container : Option TypeExpr) (key : Json) :
    Compilation (Option TypeExpr) :=
  match container with
  | none => return none
  | some container =>
    program.memberTypeWithin key (program.unit.declarations.length + 1) [] container

/-- The declared type that a chain denotes. -/
def chainType (program : Program) : Chain → Compilation (Option TypeExpr)
  | .broken reason => Traced.fail (.fault reason)
  | .root (.reference name _) => do
    match ← program.find name with
    | some (.typeAlias declared) => return some declared.type
    | _ => return none
  | .root _ => return none
  | .index _ key object => do
    match ← key with
    | .property name => do
      let container ← match object with
        | .root type => pure (some type)
        | _ => program.chainType object
      program.memberType container (.str name)
    | _ => return none

/-- The path segment that leads from the schema of a type to the schema of its elements. -/
def elementSegment (program : Program) (type : Option TypeExpr) :
    Except Fault (Option String) :=
  match type.map TypeExpr.unwrap with
  | some (.array _) => .ok (some "element")
  | some (.reference name _) => do
    if name.isOneOf arrayNames then return some "element"
    if ← program.settings.isMaybeName name then return some "element"
    return if name.isText "Record" then some "valueSchema" else none
  | _ => .ok none

/-- The path segment of an index; none when the index has no path, with a warning. -/
def segment (program : Program) (access : TypeExpr) (key : IndexKey) (object : Chain) :
    Compilation (Option String) :=
  match key with
  | .property name => return some (shapeSegment name)
  | .position index => return some ("items[" ++ toString index ++ "]")
  | .unsupported => do
    Compilation.warn (.unsupportedIndex (← access.text))
    return none
  | .element => do
    match ← program.elementSegment (← program.chainType object) with
    | some segment => return some segment
    | none =>
      Compilation.warn (.unresolvedAccess (← access.text))
      return none

/-- Make sure that what an index is taken of is another index or a named type. -/
def checkObject : Chain → Compilation Unit
  | .index _ _ _ => return ()
  | .root (.reference _ _) => return ()
  | .root type => do Compilation.reject (.indexedAccess (← type.text))
  | .broken reason => Traced.fail (.fault reason)

/-- The schema at the end of a chain, before further segments; none when there is no path to it. -/
def accessChain (program : Program) : Chain → List String → Compilation (Option Schema)
  | .index access key object, later => do
    let key ← key
    checkObject object
    match ← program.segment access key object with
    | none => return none
    | some segment =>
      match object with
      | .root (.reference name _) => do
        let target ← program.reference name
        return some (.field (some target) (".".intercalate (segment :: later)))
      | _ => program.accessChain object (segment :: later)
  | .root type, _ => do Compilation.reject (.indexedAccess (← type.text))
  | .broken reason, _ => Traced.fail (.fault reason)

/-- The schema of an indexed access. Another type has no index. -/
def indexedAccess (program : Program) (environment : Option Environment) (access : TypeExpr) :
    Compilation (Option Schema) :=
  match access with
  | .indexed _ _ => program.accessChain (Chain.ofType environment access) []
  | _ => Traced.fail (.fault .noPart)

end Program

end Schemata
