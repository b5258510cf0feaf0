import Schemata.Json.Display

/-!
# Failures

A `Failure` says why a document cannot be loaded, a declaration not be compiled or an expression not
be written. Each cause has its data, and `message` its wording.
-/

namespace Schemata

/-- Why a document cannot be loaded. A path says where in the document. -/
inductive LoadError where
  | notADocument
  | missingKey (path key : String)
  | unknownDeclaration (path : String) (kind : Json)
  | badProjection (path : String) (projection : Json)
  | notAType (path : String) (found : Json)

/-- The word for the kind of a value in a message. -/
def Json.kindName : Json → String
  | .null => "NoneType"
  | .bool _ => "bool"
  | .int _ => "int"
  | .float _ => "float"
  | .str _ => "str"
  | .arr _ => "list"
  | .obj _ => "dict"

/-- The wording of an error of loading. -/
def LoadError.message : LoadError → String
  | .notADocument => "Type AST document must be an object with a 'declarations' list"
  | .missingKey path key => path ++ ": missing required key '" ++ key ++ "'"
  | .unknownDeclaration path kind =>
    path ++ ": unknown declaration kind '" ++ kind.display ++ "'"
  | .badProjection path projection =>
    path ++ ": projection must be 'Omit' or 'Pick', got '" ++ projection.display ++ "'"
  | .notAType path found => path ++ ": expected a type node object, got " ++ found.kindName

/-- Why a declaration or a type cannot be compiled. -/
inductive CompileError where
  /-- The keys of a projection are not texts; `keyKind` is the kind of the first that is not. -/
  | unsupportedProjection (projection keyKind : String)
  | genericInterface
  | genericAlias
  /-- An interface extends others and has an index signature. -/
  | extendedIndexSignature
  /-- A reserved interface has not exactly one parameter. -/
  | reservedArity (name : Name)
  /-- An indexed access does not end on a named type; `root` is the text of what it ends on. -/
  | indexedAccess (root : Json)
  /-- Instantiations are nested beyond the limit. -/
  | genericDepth (name : Name) (limit : Json)
  | unknownDeclaration

/-- The wording of an error of compilation. -/
def CompileError.message : CompileError → String
  | .unsupportedProjection projection keyKind =>
    projection ++ "<T, K> unknown syntax: (" ++ keyKind ++ " as K not supported)"
  | .genericInterface => "Interface with generics are not supported!"
  | .genericAlias => "Type with generics are not supported!"
  | .extendedIndexSignature => "interface with `extends` and index signature are not supported!"
  | .reservedArity name =>
    "maybeTypeNames interface " ++ name.display ++ " must have exactly one generic parameter"
  | .indexedAccess root => "Unknown indexed access object type: " ++ root.display
  | .genericDepth name limit =>
    "Generic instantiation of '" ++ name.display ++ "' exceeds the maximum depth of " ++
      limit.display
  | .unknownDeclaration => "Unknown declaration kind: Declaration"

/-- Why an expression cannot be written. -/
inductive RenderError where
  /-- The expression has neither form nor target; `kind` says which. -/
  | noSourceForm (kind : String)

/-- The wording of an error of writing. -/
def RenderError.message : RenderError → String
  | .noSourceForm kind => "Cannot render " ++ kind

/-- Why a step of the work did not succeed. -/
inductive Failure where
  | load (error : LoadError)
  | compile (error : CompileError)
  | render (error : RenderError)
  | fault (reason : Fault)

/-- A result that can only be missed by a fault, among results that can be missed in other ways. -/
def Failure.lift {α : Type} : Except Fault α → Except Failure α
  | .ok value => .ok value
  | .error reason => .error (.fault reason)

instance : MonadLift (Except Fault) (Except Failure) := ⟨Failure.lift⟩

/-- A message with the declaration it is about, if that is given. -/
def about (declaration : Name) (message : String) : String :=
  if declaration.truthy then declaration.display ++ ": " ++ message else message

end Schemata
