import Schemata.Proofs.Recasting

/-!
# Syntax without tags

`untagged` takes all tags off types, bound types and declarations, at every depth, and
`Program.untagged` is the program of the source unit without tags. A type stays of the same kind and
is shown by the same text, so that taking tags off is a recasting where tags are skipped.
-/

namespace Schemata

open List

namespace TypeExpr

mutual

/-- The type without the tags of the members that are written in it. -/
def untagged : TypeExpr → TypeExpr
  | .reference name arguments => .reference name (untaggedAll arguments)
  | .object members index => .object (untaggedMembers members) (untaggedIndex index)
  | .array element => .array element.untagged
  | .spread type => .spread type.untagged
  | .named name type optional => .named name type.untagged optional
  | .tuple elements => .tuple (untaggedAll elements)
  | .union arms => .union (untaggedAll arms)
  | .intersection arms => .intersection (untaggedAll arms)
  | .function parameters result => .function (untaggedParameters parameters) result.untagged
  | .template head spans => .template head (untaggedSpans spans)
  | .indexed base index => .indexed base.untagged index.untagged
  | .paren type => .paren type.untagged
  | .keyword word => .keyword word
  | .literal value => .literal value
  | .enumMember enumName memberName => .enumMember enumName memberName
  | .unsupported kind text => .unsupported kind text

/-- The types without tags. -/
def untaggedAll : List TypeExpr → List TypeExpr
  | [] => []
  | type :: rest => type.untagged :: untaggedAll rest

/-- A type that may be missing, without tags. -/
def untaggedOption : Option TypeExpr → Option TypeExpr
  | none => none
  | some type => some type.untagged

/-- The members without tags. -/
def untaggedMembers : List (Member TypeExpr) → List (Member TypeExpr)
  | [] => []
  | ⟨name, type, optional, readonly, _⟩ :: rest =>
    ⟨name, untaggedOption type, optional, readonly, []⟩ :: untaggedMembers rest

/-- The index signature without tags in its types. -/
def untaggedIndex : Option (IndexSignature TypeExpr) → Option (IndexSignature TypeExpr)
  | none => none
  | some ⟨name, key, type⟩ => some ⟨name, untaggedOption key, untaggedOption type⟩

/-- The parameters of a function without tags in their types. -/
def untaggedParameters : List (Parameter TypeExpr) → List (Parameter TypeExpr)
  | [] => []
  | ⟨name, type, optional⟩ :: rest =>
    ⟨name, untaggedOption type, optional⟩ :: untaggedParameters rest

/-- The spans of a template without tags in their types. -/
def untaggedSpans : List (TemplateSpan TypeExpr) → List (TemplateSpan TypeExpr)
  | [] => []
  | ⟨type, after⟩ :: rest => ⟨type.untagged, after⟩ :: untaggedSpans rest

end

end TypeExpr

/-- The member without tags. -/
def Member.untagged (member : Member TypeExpr) : Member TypeExpr :=
  { member with type := member.type.map TypeExpr.untagged, tags := [] }

/-- The index signature without tags in its types. -/
def IndexSignature.untagged (signature : IndexSignature TypeExpr) : IndexSignature TypeExpr :=
  { signature with
    keyType := signature.keyType.map TypeExpr.untagged
    type := signature.type.map TypeExpr.untagged }

/-- The parameter of a function without tags in its type. -/
def Parameter.untagged (parameter : Parameter TypeExpr) : Parameter TypeExpr :=
  { parameter with type := parameter.type.map TypeExpr.untagged }

/-- The span of a template without tags in its type. -/
def TemplateSpan.untagged (span : TemplateSpan TypeExpr) : TemplateSpan TypeExpr :=
  { span with type := span.type.untagged }

/-- The parameter of a declaration without tags in its types. -/
def GenericParameter.untagged (parameter : GenericParameter) : GenericParameter :=
  { parameter with
    bound := parameter.bound.map TypeExpr.untagged
    default := parameter.default.map TypeExpr.untagged }

/-- The clause without tags in its keys. -/
def Heritage.untagged (clause : Heritage) : Heritage :=
  { clause with keys := clause.keys.map TypeExpr.untagged }

/-- The interface without tags. -/
def Interface.untagged (declared : Interface) : Interface :=
  { declared with
    tags := []
    parameters := declared.parameters.map GenericParameter.untagged
    heritage := declared.heritage.map Heritage.untagged
    members := declared.members.map Member.untagged
    index := declared.index.map IndexSignature.untagged }

/-- The alias without tags. -/
def Alias.untagged (declared : Alias) : Alias :=
  { declared with
    tags := []
    parameters := declared.parameters.map GenericParameter.untagged
    type := declared.type.untagged }

/-- The declaration without tags. -/
def Declaration.untagged : Declaration → Declaration
  | .interface declared => .interface declared.untagged
  | .typeAlias declared => .typeAlias declared.untagged
  | .enumeration declared => .enumeration { declared with tags := [] }

/-- The source unit without tags. -/
def SourceUnit.untagged (unit : SourceUnit) : SourceUnit :=
  { unit with declarations := unit.declarations.map Declaration.untagged }

namespace Environment

mutual

/-- The environment without tags in the types that it binds. -/
def untagged : Environment → Environment
  | .mk depth bindings => .mk depth (untaggedBindings bindings)

/-- The bindings without tags in the bound types. -/
def untaggedBindings : List (Binding Environment) → List (Binding Environment)
  | [] => []
  | ⟨name, type, environment⟩ :: rest =>
    ⟨name, type.untagged, environment.untagged⟩ :: untaggedBindings rest

end

end Environment

/-- The binding without tags in the bound type. -/
def Binding.untagged (binding : Binding Environment) : Binding Environment :=
  ⟨binding.name, binding.type.untagged, binding.environment.untagged⟩

namespace TypeExpr

section Equations

theorem untagged_all_eq (types : List TypeExpr) : untaggedAll types = types.map untagged :=
  eq_map_of_rec rfl (fun _ _ => rfl) types

theorem untagged_option_eq (t : Option TypeExpr) : untaggedOption t = t.map untagged := by
  cases t <;> rfl

theorem untagged_members_eq (ms : List (Member TypeExpr)) :
    untaggedMembers ms = ms.map Member.untagged :=
  eq_map_of_rec rfl (fun _ _ => by rw [untaggedMembers, untagged_option_eq]; rfl) ms

theorem untagged_index_eq (index : Option (IndexSignature TypeExpr)) :
    untaggedIndex index = index.map IndexSignature.untagged := by
  cases index with
  | none => rfl
  | some =>
    rw [untaggedIndex, untagged_option_eq, untagged_option_eq]
    rfl

theorem untagged_parameters_eq (params : List (Parameter TypeExpr)) :
    untaggedParameters params = params.map Parameter.untagged :=
  eq_map_of_rec rfl (fun _ _ => by rw [untaggedParameters, untagged_option_eq]; rfl) params

theorem untagged_spans_eq (spans : List (TemplateSpan TypeExpr)) :
    untaggedSpans spans = spans.map TemplateSpan.untagged :=
  eq_map_of_rec rfl (fun _ _ => rfl) spans

theorem untagged_reference (name : Name) (args : List TypeExpr) :
    (reference name args).untagged = .reference name (args.map untagged) := by
  rw [untagged, untagged_all_eq]

theorem untagged_object (ms : List (Member TypeExpr)) (index : Option (IndexSignature TypeExpr)) :
    (object ms index).untagged =
      .object (ms.map Member.untagged) (index.map IndexSignature.untagged) := by
  rw [untagged, untagged_members_eq, untagged_index_eq]

/-- Tags are taken off the members of a type and off its parts. -/
theorem untagged_eq_map (t : TypeExpr) : t.untagged = t.mapParts untagged fun _ => [] := by
  cases t with
  | reference => exact untagged_reference _ _
  | object => exact untagged_object _ _
  | tuple | union | intersection =>
    rw [untagged, untagged_all_eq]
    rfl
  | function =>
    rw [untagged, untagged_parameters_eq]
    rfl
  | template =>
    rw [untagged, untagged_spans_eq]
    rfl
  | _ => rfl

end Equations

/-- Taking tags off changes nothing that a type is apart from its parts and tags. -/
theorem same_kind_untagged {types : TypeExpr → TypeExpr → Prop} (t : TypeExpr)
    (h : ∀ part, part.In t → types part part.untagged) :
    t.SameKind types (fun _ after => after = []) t.untagged := by
  rw [untagged_eq_map]
  refine same_kind_map (fun _ => rfl) (fun elt _ => elt.untagged_eq_map) (fun elt helt => ?_)
    (fun part hpart => h part (.inr (.part hpart)))
    fun part hpart inner hi => h inner (.inr (.deeper (.part hi) hpart))
  cases elt <;> exact helt

section Text

mutual

/-- Tags do not stand in the text of a type. -/
theorem text_untagged (t : TypeExpr) : t.untagged.text = t.text := by
  match t with
  | .reference name [] => rfl
  | .reference name (a :: rest) =>
    have hargs := texts_untagged (a :: rest)
    rw [untaggedAll] at hargs
    rw [untagged, untaggedAll, text, text, hargs]
  | .object ms none => rw [untagged, untaggedIndex, text, text, member_texts_untagged]
  | .object ms (some ⟨name, key, t⟩) =>
    rw [untagged, untaggedIndex, text, text, member_texts_untagged, option_text_untagged,
      option_text_untagged]
  | .array t | .spread t | .named _ t _ | .paren t => rw [untagged, text, text, text_untagged t]
  | .tuple ts | .union ts | .intersection ts => rw [untagged, text, text, texts_untagged ts]
  | .function params result =>
    rw [untagged, text, text, parameter_texts_untagged, text_untagged result]
  | .template head spans => rw [untagged, text, text, span_texts_untagged]
  | .indexed base index =>
    rw [untagged, text, text, text_untagged base, text_untagged index]
  | .keyword _ | .literal _ | .enumMember _ _ | .unsupported _ _ => rfl

theorem texts_untagged (types : List TypeExpr) : texts (untaggedAll types) = texts types := by
  match types with
  | [] => rfl
  | type :: rest => rw [untaggedAll, texts, texts, text_untagged type, texts_untagged rest]

theorem option_text_untagged (t : Option TypeExpr) :
    optionText (untaggedOption t) = optionText t := by
  match t with
  | none => rfl
  | some t => rw [untaggedOption, optionText, optionText, text_untagged t]

theorem member_texts_untagged (ms : List (Member TypeExpr)) :
    memberTexts (untaggedMembers ms) = memberTexts ms := by
  match ms with
  | [] => rfl
  | ⟨name, t, optional, readonly, tags⟩ :: rest =>
    rw [untaggedMembers, memberTexts, memberTexts, option_text_untagged t,
      member_texts_untagged rest]

theorem parameter_texts_untagged (params : List (Parameter TypeExpr)) :
    parameterTexts (untaggedParameters params) = parameterTexts params := by
  match params with
  | [] => rfl
  | ⟨name, t, optional⟩ :: rest =>
    rw [untaggedParameters, parameterTexts, parameterTexts, option_text_untagged t,
      parameter_texts_untagged rest]

theorem span_texts_untagged (spans : List (TemplateSpan TypeExpr)) :
    spanTexts (untaggedSpans spans) = spanTexts spans := by
  match spans with
  | [] => rfl
  | ⟨t, after⟩ :: rest =>
    rw [untaggedSpans, spanTexts, spanTexts, text_untagged t, span_texts_untagged rest]

end

end Text

end TypeExpr

theorem Declaration.name_untagged (decl : Declaration) : decl.untagged.name = decl.name := by
  cases decl <;> rfl

/-- A declaration is recast when its tags are taken off. -/
theorem Declaration.recast_untagged (decl : Declaration) :
    Declaration.Recast TypeExpr.untagged (fun _ after => after = []) decl decl.untagged := by
  have hparams (params : List GenericParameter) :
      Forall₂ (GenericParameter.Recast TypeExpr.untagged) params
        (params.map GenericParameter.untagged) := by
    rw [forall₂_map_right_iff, forall₂_same]
    exact fun _ _ => ⟨rfl, rfl⟩
  cases decl with
  | typeAlias => exact .typeAlias rfl rfl (hparams _) rfl
  | interface =>
    refine .interface rfl rfl (hparams _) ?_ (TypeExpr.untagged_object _ _).symm
    rw [Interface.untagged, forall₂_map_right_iff, forall₂_same]
    exact fun _ _ => ⟨rfl, rfl, rfl⟩
  | enumeration => exact .enumeration rfl rfl

namespace Environment

theorem untagged_bindings_eq (bindings : List (Binding Environment)) :
    untaggedBindings bindings = bindings.map Binding.untagged :=
  eq_map_of_rec rfl (fun _ _ => rfl) bindings

/-- Environments without tags. -/
def untaggedMapping : Mapping where
  type := TypeExpr.untagged
  environment := untagged
  levels := 0
  bindings := by
    rintro ⟨depth, bindings⟩
    exact untagged_bindings_eq bindings
  depth := by
    rintro ⟨depth, bindings⟩
    rfl

end Environment

/-- The program of the source unit without tags, where another setting says whether tags are
skipped. -/
def Program.untagged (program : Program) (flag : Json) : Program where
  unit := program.unit.untagged
  settings := { program.settings with skipAnnotations := flag }

end Schemata
