import Schemata.Failure
import Schemata.TypeExpr

/-!
# Documents

A document is a value that spells a source unit. `readType` reads a type expression from the object
that spells it, `readDeclaration` a declaration, and `SourceUnit.ofDocument` the whole unit. The
first thing that is wrong, in reading order, is reported with its path in the document.
-/

namespace Schemata.Document

/-- Why a value that is no object does not give the value of a key. -/
def withoutKey (value : Json) (key path : String) : Failure :=
  match value.holds key with
  | .ok false => .load (.missingKey path key)
  | .ok true => .fault .wrongKind
  | .error reason => .fault reason

/-- The value of a key that an object has to have. -/
def requireField (fields : List (String × Json)) (key path : String) : Except Failure Json :=
  match Json.field? key fields with
  | some value => .ok value
  | none => .error (.load (.missingKey path key))

/-- The value of a key that a value has to have. -/
def require (value : Json) (key path : String) : Except Failure Json :=
  match value with
  | .obj fields => requireField fields key path
  | other => .error (withoutKey other key path)

/-- Whether a flag is set; it has a default. -/
def flag (default : Bool) (fields : List (String × Json)) (key : String) : Bool :=
  ((Json.field? key fields).map Json.truthy).getD default

/-- The annotations of a declaration or member. -/
def readTags (fields : List (String × Json)) : Except Failure Tags :=
  match Json.field? "tags" fields with
  | none => .ok []
  | some (.obj tags) => .ok (tags.map fun (name, value) => (name, value.display))
  | some other => if other.truthy then .error (.fault .noPart) else .ok []

/-- What a value lists when it is no list: nothing, or things of which the first is wrong. -/
def readStray {α : Type} (value : Json) (wrong : Json → Failure) : Except Failure (List α) :=
  match value.elements with
  | .error reason => .error (.fault reason)
  | .ok [] => .ok []
  | .ok (first :: _) => .error (wrong first)

/-- A named type. Without arguments, a name with a dot is a member of an enumeration: the part after
the last dot, of the enumeration that the part before it names. -/
def namedType (name : Name) (arguments : List TypeExpr) : Except Failure TypeExpr := do
  if (← name.holds ".") && arguments.isEmpty then
    match name with
    | .str text =>
      let back := text.toList.reverse
      let member := (back.takeWhile (· ≠ '.')).reverse
      let owner := ((back.dropWhile (· ≠ '.')).drop 1).reverse
      return .enumMember (.str (String.ofList owner)) (.str (String.ofList member))
    | _ => throw (.fault .noPart)
  else return .reference name arguments

/-- A predefined type, or an unsupported one when the word is not known. -/
def keywordType : Json → Except Failure TypeExpr
  | .str word =>
    match Keyword.ofWord? word with
    | some keyword => .ok (.keyword keyword)
    | none => .ok (.unsupported (.str "keyword") (.str word))
  | .arr _ => .error (.fault .wrongKind)
  | .obj _ => .error (.fault .wrongKind)
  | value => .ok (.unsupported (.str "keyword") value)

mutual

/-- The type that a value spells. -/
def readType (path : String) : Json → Except Failure TypeExpr
  | .obj fields => do
    let kind ← requireField fields "kind" path
    match kind with
    | .str "keyword" => keywordType (← requireField fields "keyword" path)
    | .str "reference" => do
      let name ← requireField fields "name" path
      namedType name (← readTypesField "typeArguments" (path ++ ".typeArguments") fields)
    | .str "enumMember" => do
      let enumName ← requireField fields "enumName" path
      return .enumMember enumName (← requireField fields "memberName" path)
    | .str "literal" => return .literal ((Json.field? "value" fields).getD .null)
    | .str "object" => do
      let members ← readMembersField (path ++ ".members") fields
      return .object members (← readIndexField path fields)
    | .str "array" =>
      return .array (← readTypeField "elementType" path (path ++ ".elementType") fields)
    | .str "tuple" => return .tuple (← readTypesField "elements" (path ++ ".elements") fields)
    | .str "rest" => return .spread (← readTypeField "type" path (path ++ ".type") fields)
    | .str "namedMember" => do
      let name ← requireField fields "name" path
      let type ← readTypeField "type" path (path ++ ".type") fields
      return .named name type (flag false fields "optional")
    | .str "union" => return .union (← readTypesField "types" (path ++ ".types") fields)
    | .str "intersection" =>
      return .intersection (← readTypesField "types" (path ++ ".types") fields)
    | .str "function" => do
      let parameters ← readParametersField (path ++ ".parameters") fields
      return .function parameters (← readTypeField "returnType" path path fields)
    | .str "templateLiteral" => do
      let spans ← readSpansField path fields
      return .template ((Json.field? "head" fields).getD (.str "")) spans
    | .str "indexedAccess" => do
      let base ← readTypeField "objectType" path (path ++ ".objectType") fields
      return .indexed base (← readTypeField "indexType" path (path ++ ".indexType") fields)
    | .str "parenthesized" => return .paren (← readTypeField "type" path (path ++ ".type") fields)
    | other => return .unsupported other ((Json.field? "text" fields).getD (.str ""))
  | value => .error (.load (.notAType path value))

/-- The type in a field that has to be there. -/
def readTypeField (key path inner : String) : List (String × Json) → Except Failure TypeExpr
  | [] => .error (.load (.missingKey path key))
  | (name, value) :: rest =>
    if name = key then readType inner value else readTypeField key path inner rest

/-- The type in a field that may be missing or null. -/
def readOptionField (key path : String) :
    List (String × Json) → Except Failure (Option TypeExpr)
  | [] => .ok none
  | (name, value) :: rest =>
    if name = key then
      match value with
      | .null => .ok none
      | other => do return some (← readType path other)
    else readOptionField key path rest

/-- The types in a field that may be missing. -/
def readTypesField (key path : String) : List (String × Json) → Except Failure (List TypeExpr)
  | [] => .ok []
  | (name, value) :: rest =>
    if name = key then
      match value with
      | .arr items => readTypes path items
      | other => readStray other fun first => .load (.notAType path first)
    else readTypesField key path rest

/-- The types that the items of a list spell. -/
def readTypes (path : String) : List Json → Except Failure (List TypeExpr)
  | [] => .ok []
  | item :: rest => do
    let first ← readType path item
    return first :: (← readTypes path rest)

/-- The members in a field that may be missing. -/
def readMembersField (path : String) :
    List (String × Json) → Except Failure (List (Member TypeExpr))
  | [] => .ok []
  | (name, value) :: rest =>
    if name = "members" then
      match value with
      | .arr items => readMembers path items
      | other => readStray other fun first => withoutKey first "name" path
    else readMembersField path rest

/-- The members that the items of a list spell. -/
def readMembers (path : String) : List Json → Except Failure (List (Member TypeExpr))
  | [] => .ok []
  | .obj fields :: rest => do
    let name ← requireField fields "name" path
    let type ← readOptionField "type" path fields
    let tags ← readTags fields
    let first : Member TypeExpr :=
      ⟨name.display, type, flag false fields "optional", flag false fields "readonly", tags⟩
    return first :: (← readMembers path rest)
  | value :: _ => .error (withoutKey value "name" path)

/-- The index signature in a field that may be missing or empty. -/
def readIndexField (path : String) :
    List (String × Json) → Except Failure (Option (IndexSignature TypeExpr))
  | [] => .ok none
  | (name, value) :: rest =>
    if name = "indexSignature" then
      match value with
      | .obj (field :: fields) => do
        let keyType ← readOptionField "keyType" path (field :: fields)
        let type ← readOptionField "type" path (field :: fields)
        let keyName := (Json.field? "keyName" (field :: fields)).getD (.str "key")
        return some ⟨keyName, keyType, type⟩
      | other => if other.truthy then .error (.fault .noPart) else .ok none
    else readIndexField path rest

/-- The parameters in a field that may be missing. -/
def readParametersField (path : String) :
    List (String × Json) → Except Failure (List (Parameter TypeExpr))
  | [] => .ok []
  | (name, value) :: rest =>
    if name = "parameters" then
      match value with
      | .arr items => readParameters path items
      | other => readStray other fun _ => .fault .noPart
    else readParametersField path rest

/-- The parameters that the items of a list spell. -/
def readParameters (path : String) : List Json → Except Failure (List (Parameter TypeExpr))
  | [] => .ok []
  | .obj fields :: rest => do
    let type ← readOptionField "type" path fields
    let name := (Json.field? "name" fields).getD (.str "")
    let first : Parameter TypeExpr := ⟨name, type, flag false fields "optional"⟩
    return first :: (← readParameters path rest)
  | _ :: _ => .error (.fault .noPart)

/-- The spans in a field that may be missing. -/
def readSpansField (path : String) :
    List (String × Json) → Except Failure (List (TemplateSpan TypeExpr))
  | [] => .ok []
  | (name, value) :: rest =>
    if name = "spans" then
      match value with
      | .arr items => readSpans path items
      | other => readStray other fun first => withoutKey first "type" path
    else readSpansField path rest

/-- The spans that the items of a list spell. -/
def readSpans (path : String) : List Json → Except Failure (List (TemplateSpan TypeExpr))
  | [] => .ok []
  | .obj fields :: rest => do
    let type ← readTypeField "type" path (path ++ ".spans") fields
    let first : TemplateSpan TypeExpr := ⟨type, (Json.field? "literal" fields).getD (.str "")⟩
    return first :: (← readSpans path rest)
  | value :: _ => .error (withoutKey value "type" path)

end

/-- What a field lists; a missing field lists nothing. -/
def listed (fields : List (String × Json)) (key : String) : Except Failure (List Json) :=
  match Json.field? key fields with
  | none => .ok []
  | some value => Failure.lift value.elements

/-- A parameter of a generic declaration. -/
def readGenericParameter (path : String) (item : Json) : Except Failure GenericParameter :=
  match item with
  | .obj fields => do
    let name ← requireField fields "name" (path ++ ".typeParameters")
    let bound ← readOptionField "constraint" path fields
    return ⟨name, bound, ← readOptionField "default" path fields⟩
  | other => .error (withoutKey other "name" (path ++ ".typeParameters"))

/-- The projection of a heritage clause. -/
def readProjection (path : String) : Json → Except Failure (Option Projection)
  | .null => .ok none
  | .str "Omit" => .ok (some .omit)
  | .str "Pick" => .ok (some .pick)
  | other => .error (.load (.badProjection path other))

/-- A heritage clause. -/
def readHeritage (path : String) : Json → Except Failure Heritage
  | .obj fields => do
    let projection ← readProjection path ((Json.field? "projection" fields).getD .null)
    let name ← requireField fields "name" path
    return ⟨name, projection, ← readOptionField "keys" path fields⟩
  | _ => .error (.fault .noPart)

/-- A member of an enumeration. -/
def readEnumerator (path : String) (item : Json) : Except Failure Enumerator := do
  let name ← require item "name" path
  return ⟨name, (item.get? "initializer").getD .null⟩

/-- A declaration. -/
def readDeclaration (path : String) (value : Json) : Except Failure Declaration :=
  match value with
  | .obj fields => do
    let kind ← requireField fields "kind" path
    let name ← requireField fields "name" path
    let tags ← readTags fields
    let exported := flag true fields "exported"
    match kind with
    | .str "interface" => do
      let parameters ← (← listed fields "typeParameters").mapM (readGenericParameter path)
      let heritage ← (← listed fields "extends").mapM (readHeritage (path ++ ".extends"))
      let members ← readMembersField (path ++ ".members") fields
      let index ← readIndexField path fields
      return .interface ⟨name, tags, exported, parameters, heritage, members, index⟩
    | .str "alias" => do
      let parameters ← (← listed fields "typeParameters").mapM (readGenericParameter path)
      let type ← readTypeField "type" path (path ++ ".type") fields
      return .typeAlias ⟨name, tags, exported, parameters, type⟩
    | .str "enum" => do
      let members ← (← listed fields "members").mapM (readEnumerator (path ++ ".members"))
      return .enumeration ⟨name, tags, exported, members⟩
    | other => throw (.load (.unknownDeclaration path other))
  | other => .error (withoutKey other "kind" path)

/-- Declarations, numbered from a given index on. -/
def readDeclarations (index : Nat) : List Json → Except Failure (List Declaration)
  | [] => .ok []
  | item :: rest => do
    let first ← readDeclaration ("declarations[" ++ toString index ++ "]") item
    return first :: (← readDeclarations (index + 1) rest)

end Schemata.Document

namespace Schemata

/-- The source unit that a document spells. The path is used when the document gives none. -/
def SourceUnit.ofDocument (document : Json) (path : Json) : Except Failure SourceUnit :=
  match document with
  | .obj fields =>
    match Json.field? "declarations" fields with
    | some (.arr items) => do
      let declarations ← Document.readDeclarations 0 items
      let imports ← Document.listed fields "imports"
      return ⟨(Json.field? "path" fields).getD path, declarations, imports.map Json.display⟩
    | _ => .error (.load .notADocument)
  | _ => .error (.load .notADocument)

end Schemata
