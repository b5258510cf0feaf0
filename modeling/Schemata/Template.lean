import Schemata.Program
import Schemata.TypeExpr.Text

/-!
# Template literal types

A template literal type stands for the texts that arise when every type in it is replaced by one of
its literal values. `Program.harvest` finds the values of one span, and `Program.expand` all texts,
in the order of the values with the last span changing fastest.
-/

namespace Schemata

/-- The text of a literal inside a template. -/
def literalText : Json → String
  | .null => "null"
  | .bool value => if value then "true" else "false"
  | .float value =>
    match value.toInt? with
    | some integer => toString integer
    | none => (Json.float value).display
  | value => value.display

/-- The texts that a type can stand for, and whether it can also be null. -/
structure Values where
  texts : List String
  hasNull : Bool

namespace Program

/-- The literal arms of a union; the others are passed over. -/
def harvestUnion (environment : Environment) : List TypeExpr → Except Fault Values
  | [] => .ok ⟨[], false⟩
  | arm :: rest => do
    let arm ← environment.substitute arm
    let ⟨texts, hasNull⟩ ← harvestUnion environment rest
    match arm.unwrap with
    | .literal .null => return ⟨texts, true⟩
    | .literal value => return ⟨literalText value :: texts, hasNull⟩
    | _ => return ⟨texts, hasNull⟩

/-- The values of the members of an enumeration, each of which has to have one. -/
def harvestMembers (enumName : Name) : List Enumerator → Compilation (Option (List String))
  | [] => return some []
  | member :: rest => do
    match member.initializer with
    | .null => do
      Compilation.warn (.enumeratorWithoutValue enumName member.name)
      let _ ← harvestMembers enumName rest
      return none
    | value => return (← harvestMembers enumName rest).map (literalText value :: ·)

/-- The value of a member of an enumeration. -/
def enumeratorText? (program : Program) (enumName memberName : Name) :
    Except Fault (Option String) := do
  match ← program.find enumName with
  | some (.enumeration declared) =>
    let found := declared.members.find? fun member =>
      member.name.same memberName && !member.initializer matches .null
    return found.map fun member => literalText member.initializer
  | _ => return none

/-- The texts that a named type without arguments stands for. -/
def harvestNamed (program : Program) (name : Name) : Compilation (Option Values) := do
  let unknown : Compilation (Option Values) := do
    Compilation.warn (.unknownSpan name)
    return none
  match ← program.find name with
  | some (.typeAlias ⟨_, _, _, [], type⟩) =>
    match type.unwrap with
    | .union arms => return some (← harvestUnion .empty arms)
    | .literal .null => unknown
    | .literal value => return some ⟨[literalText value], false⟩
    | _ => unknown
  | some (.enumeration declared) =>
    return (← harvestMembers declared.name declared.members).map (⟨·, false⟩)
  | _ => unknown

/-- The texts that the type of a span stands for; none when they cannot be told, with a warning. -/
def harvest (program : Program) (environment : Environment) (type : TypeExpr) :
    Compilation (Option Values) := do
  let (type, environment) ← environment.resolve type
  match type.unwrap with
  | .literal value => return some ⟨[literalText value], false⟩
  | .union arms => return some (← harvestUnion environment arms)
  | .enumMember enumName memberName =>
    match ← program.enumeratorText? enumName memberName with
    | some text => return some ⟨[text], false⟩
    | none =>
      Compilation.warn (.unknownEnumerator enumName memberName)
      return none
  | .reference name [] => program.harvestNamed name
  | other => do
    Compilation.warn (.unsupportedSpan (← other.text))
    return none

/-- The values of all spans, each with the text after it. All spans are looked at, also after one
whose values cannot be told. -/
def harvestSpans (program : Program) (environment : Environment) :
    List (TemplateSpan TypeExpr) → Compilation (Option (List (Values × Json)))
  | [] => return some []
  | span :: rest => do
    let values ← program.harvest environment span.type
    let others ← program.harvestSpans environment rest
    return do return (← values, span.literal) :: (← others)

/-- All texts made of a value of every span and the text after it. -/
def products : List (Values × Json) → Except Fault (List String)
  | [] => .ok [""]
  | (values, after) :: rest => do
    let tails ← products rest
    let after ← after.text
    return values.texts.flatMap fun text => tails.map fun tail => text ++ after ++ tail

/-- The texts of a template literal type; none when they cannot be told or there is none, with a
warning. -/
def expand (program : Program) (environment : Environment) (head : Json)
    (spans : List (TemplateSpan TypeExpr)) : Compilation (Option Values) := do
  match ← program.harvestSpans environment spans with
  | none => return none
  | some harvested =>
    if harvested.any (·.1.texts.isEmpty) then
      Compilation.warn (.emptyTemplate (← (TypeExpr.template head spans).text))
      return none
    else
      let head ← head.text
      let texts ← products harvested
      return some ⟨texts.map (head ++ ·), harvested.any (·.1.hasNull)⟩

end Program

/-- The schema of the texts of a template literal type. -/
def Values.schema (values : Values) (modifiers : List Modifier) : Schema :=
  let modifiers := modifiers ++ (if values.hasNull then [⟨"nullable", [], false⟩] else [])
  match values.texts with
  | [text] => Schema.combinator "literal" [.value (.str text)] modifiers
  | texts =>
    let literals := texts.map fun text => Schema.call "literal" [.value (.str text)]
    Schema.combinator "union" [.array literals] modifiers

end Schemata
