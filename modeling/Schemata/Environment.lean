import Schemata.Json.Display
import Schemata.TypeExpr

/-!
# Environments

An environment says what the parameters of a generic declaration stand for. Each parameter is bound
to a type together with the environment in which that type is read, since an argument is written
where the declaration is used. `resolve` follows parameters to what they stand for. The depth counts
how many instantiations an environment is inside of.
-/

namespace Schemata

/-- A parameter with the type it stands for and the environment that type is read in. -/
structure Binding (ε : Type) where
  name : Name
  type : TypeExpr
  environment : ε

/-- What parameters stand for. No two bindings are of the same key. -/
inductive Environment where
  | mk (depth : Nat) (bindings : List (Binding Environment))

namespace Environment

/-- The environment of no parameter, outside of all instantiations. -/
def empty : Environment := .mk 0 []

/-- How many instantiations the environment is inside of. -/
def depth : Environment → Nat
  | .mk depth _ => depth

/-- The bindings of an environment, in order. -/
def bindings : Environment → List (Binding Environment)
  | .mk _ bindings => bindings

/-- The bound names, in order. -/
def names (environment : Environment) : List Name :=
  environment.bindings.map Binding.name

/-- The binding of a key. -/
def binding? (environment : Environment) (key : Key) : Option (Binding Environment) :=
  environment.bindings.find? fun binding => binding.name.key? = some key

/-- The binding of a name. -/
def lookup (environment : Environment) (name : Name) :
    Except Fault (Option (Binding Environment)) := do
  return environment.binding? (← name.key)

/-- Put a binding among others. A name that is bound keeps its place and spelling. -/
def putBinding (key : Key) (added : Binding Environment) :
    List (Binding Environment) → List (Binding Environment)
  | [] => [added]
  | first :: rest =>
    if first.name.key? = some key then { added with name := first.name } :: rest
    else first :: putBinding key added rest

/-- The environment with one more binding. -/
def bind (environment : Environment) (name : Name) (type : TypeExpr) (read : Environment) :
    Except Fault Environment := do
  let key ← name.key
  return .mk environment.depth (putBinding key ⟨name, type, read⟩ environment.bindings)

/-- The environment without a name. -/
def without (environment : Environment) (name : Name) : Environment :=
  .mk environment.depth (environment.bindings.filter fun binding => !binding.name.same name)

/-- The environment at the start of an instantiation: one level deeper and without bindings. -/
def enter (environment : Environment) : Environment :=
  .mk (environment.depth + 1) []

/-- The environment as it is shown in a log line. -/
def display (environment : Environment) : String :=
  "GenericEnvironment(" ++ (Json.arr environment.names).quoted ++ ", depth=" ++
    toString environment.depth ++ ")"

mutual

/-- Follow a type as long as it is a bound parameter. The answer is the type reached and the
environment it is read in. -/
def resolve : Environment → TypeExpr → Except Fault (TypeExpr × Environment)
  | .mk depth bindings, type =>
    match type with
    | .reference name [] =>
      match name.key with
      | .error reason => .error reason
      | .ok key => (resolveIn bindings key).getD (.ok (type, .mk depth bindings))
    | _ => .ok (type, .mk depth bindings)

/-- What the binding of a key, if there is one, leads to. -/
def resolveIn : List (Binding Environment) → Key → Option (Except Fault (TypeExpr × Environment))
  | [], _ => none
  | ⟨name, type, environment⟩ :: rest, key =>
    if name.key? = some key then some (resolve environment type.unwrap) else resolveIn rest key

end

/-- The type that a type leads to through bound parameters. -/
def substitute (environment : Environment) (type : TypeExpr) : Except Fault TypeExpr := do
  return (← environment.resolve type).1

/-- Follow a type in an environment; without an environment there is nothing to follow. -/
def resolve? (environment : Option Environment) (type : TypeExpr) :
    Except Fault (TypeExpr × Option Environment) :=
  match environment with
  | none => .ok (type, none)
  | some environment => do
    let (type, environment) ← environment.resolve type
    return (type, some environment)

end Environment

end Schemata
