import Schemata.Proofs.Faults
import Schemata.Proofs.Renaming

/-!
# Types but for parentheses

`bare` takes the parentheses off types, bound types and declarations, at every depth. Two places
keep theirs: an element of a tuple that is spread or labelled, and the type of the keys of a record.
Types of the same bare form are the same but for parentheses, and `same_form` says what they are
inside of them. A parameter in parentheses is concealed from a rule that follows parameters before
it takes parentheses off. Where both of two such types are concealed or neither is, they lead to
types of the same bare form, `resolve_conforms`.
-/

namespace Schemata

open List

variable {name : Name} {decl : Declaration}

namespace TypeExpr

/-- Whether the type is in parentheses. -/
def isWrapped : TypeExpr → Bool
  | .paren _ => true
  | _ => false

/-- The type, in parentheses if so asked. -/
def wrapIf (wrapped : Bool) (type : TypeExpr) : TypeExpr :=
  if wrapped then .paren type else type

mutual

/-- The type without parentheses, but for those around a spread or labelled element of a tuple and
around the type of the keys of a record. -/
def bare : TypeExpr → TypeExpr
  | .paren type => type.bare
  | .reference name arguments => .reference name (bareArguments (name.isText "Record") arguments)
  | .object members index => .object (bareMembers members) (bareIndex index)
  | .array element => .array element.bare
  | .spread type => .spread type.bare
  | .named name type optional => .named name type.bare optional
  | .tuple elements => .tuple (bareElements elements)
  | .union arms => .union (bareAll arms)
  | .intersection arms => .intersection (bareAll arms)
  | .function parameters result => .function (bareParameters parameters) result.bare
  | .template head spans => .template head (bareSpans spans)
  | .indexed base index => .indexed base.bare index.bare
  | .keyword word => .keyword word
  | .literal value => .literal value
  | .enumMember enumName memberName => .enumMember enumName memberName
  | .unsupported kind text => .unsupported kind text

/-- The arguments of a name without parentheses, but for those around the first one of a record. -/
def bareArguments (record : Bool) : List TypeExpr → List TypeExpr
  | [] => []
  | first :: rest => first.bare.wrapIf (record && first.isWrapped) :: bareAll rest

/-- The types without parentheses. -/
def bareAll : List TypeExpr → List TypeExpr
  | [] => []
  | type :: rest => type.bare :: bareAll rest

/-- The elements of a tuple without parentheses, but for those around a spread or labelled one. -/
def bareElements : List TypeExpr → List TypeExpr
  | [] => []
  | type :: rest => type.bare.wrapIf (type.isWrapped && type.unwrap.isElement) :: bareElements rest

/-- A type that may be missing, without parentheses. -/
def bareOption : Option TypeExpr → Option TypeExpr
  | none => none
  | some type => some type.bare

/-- The members without parentheses in their types. -/
def bareMembers : List (Member TypeExpr) → List (Member TypeExpr)
  | [] => []
  | ⟨name, type, optional, readonly, tags⟩ :: rest =>
    ⟨name, bareOption type, optional, readonly, tags⟩ :: bareMembers rest

/-- The index signature without parentheses in its types. -/
def bareIndex : Option (IndexSignature TypeExpr) → Option (IndexSignature TypeExpr)
  | none => none
  | some ⟨name, key, type⟩ => some ⟨name, bareOption key, bareOption type⟩

/-- The parameters of a function without parentheses in their types. -/
def bareParameters : List (Parameter TypeExpr) → List (Parameter TypeExpr)
  | [] => []
  | ⟨name, type, optional⟩ :: rest => ⟨name, bareOption type, optional⟩ :: bareParameters rest

/-- The spans of a template without parentheses in their types. -/
def bareSpans : List (TemplateSpan TypeExpr) → List (TemplateSpan TypeExpr)
  | [] => []
  | ⟨type, after⟩ :: rest => ⟨type.bare, after⟩ :: bareSpans rest

end

/-- An element of a tuple without parentheses, unless it is spread or labelled. -/
def bareElement (type : TypeExpr) : TypeExpr :=
  type.bare.wrapIf (type.isWrapped && type.unwrap.isElement)

end TypeExpr

/-- The member without parentheses in its type. -/
def Member.bare (member : Member TypeExpr) : Member TypeExpr :=
  { member with type := member.type.map TypeExpr.bare }

/-- The index signature without parentheses in its types. -/
def IndexSignature.bare (signature : IndexSignature TypeExpr) : IndexSignature TypeExpr :=
  { signature with
    keyType := signature.keyType.map TypeExpr.bare
    type := signature.type.map TypeExpr.bare }

/-- The parameter of a function without parentheses in its type. -/
def Parameter.bare (parameter : Parameter TypeExpr) : Parameter TypeExpr :=
  { parameter with type := parameter.type.map TypeExpr.bare }

/-- The span of a template without parentheses in its type. -/
def TemplateSpan.bare (span : TemplateSpan TypeExpr) : TemplateSpan TypeExpr :=
  { span with type := span.type.bare }

/-- The parameter of a declaration without parentheses in its types. -/
def GenericParameter.bare (parameter : GenericParameter) : GenericParameter :=
  { parameter with
    bound := parameter.bound.map TypeExpr.bare
    default := parameter.default.map TypeExpr.bare }

/-- The clause without parentheses in its keys. -/
def Heritage.bare (clause : Heritage) : Heritage :=
  { clause with keys := clause.keys.map TypeExpr.bare }

/-- The interface without parentheses in its types. -/
def Interface.bare (declared : Interface) : Interface :=
  { declared with
    parameters := declared.parameters.map GenericParameter.bare
    heritage := declared.heritage.map Heritage.bare
    members := declared.members.map Member.bare
    index := declared.index.map IndexSignature.bare }

/-- The alias without parentheses in its types. -/
def Alias.bare (declared : Alias) : Alias :=
  { declared with
    parameters := declared.parameters.map GenericParameter.bare
    type := declared.type.bare }

/-- The declaration without parentheses in its types. -/
def Declaration.bare : Declaration → Declaration
  | .interface declared => .interface declared.bare
  | .typeAlias declared => .typeAlias declared.bare
  | .enumeration declared => .enumeration declared

/-- The source unit without parentheses in its types. -/
def SourceUnit.bare (unit : SourceUnit) : SourceUnit :=
  { unit with declarations := unit.declarations.map Declaration.bare }

namespace Environment

mutual

/-- The environment without parentheses in the types that it binds. -/
def bare : Environment → Environment
  | .mk depth bindings => .mk depth (bareBindings bindings)

/-- The bindings without parentheses in the bound types. -/
def bareBindings : List (Binding Environment) → List (Binding Environment)
  | [] => []
  | ⟨name, type, environment⟩ :: rest => ⟨name, type.bare, environment.bare⟩ :: bareBindings rest

end

end Environment

/-- The binding without parentheses in the bound type. -/
def Binding.bare (binding : Binding Environment) : Binding Environment :=
  ⟨binding.name, binding.type.bare, binding.environment.bare⟩

section Images

variable {α β : Type} {f : α → β} {xs others : List α}

/-- Lists with the same image agree item by item. -/
theorem forall₂_of_map_eq (h : others.map f = xs.map f) :
    Forall₂ (fun x other => f other = f x) xs others := by
  rw [← forall₂_eq_eq_eq, forall₂_map_left_iff, forall₂_map_right_iff] at h
  exact h.flip

theorem map_eq_of_agree (h : Forall₂ (fun x other => f other = f x) xs others) :
    others.map f = xs.map f := by
  rw [← forall₂_eq_eq_eq, forall₂_map_left_iff, forall₂_map_right_iff]
  exact h.flip

theorem length_of_map_eq (h : others.map f = xs.map f) :
    others.length = xs.length := (forall₂_of_map_eq h).length_eq.symm

theorem is_empty_of_map_eq (h : others.map f = xs.map f) : others.isEmpty = xs.isEmpty := by
  rw [← isEmpty_map, h, isEmpty_map]

/-- Values with the same image agree if they are there. -/
theorem rel_of_map_eq {found other : Option α} (h : other.map f = found.map f) :
    Option.Rel (fun found other => f other = f found) found other := by
  cases found with
  | none =>
    cases other with
    | none => exact .none
    | some => cases h
  | some =>
    cases other with
    | none => cases h
    | some => exact .some (Option.some.inj h)

/-- Results with the same image agree. -/
theorem concurs_of_map_eq {ε : Type} {found other : Except ε α} (h : other.map f = found.map f) :
    Concurs Eq (fun found other => f other = f found) found other := by
  cases found with
  | error =>
    cases other with
    | error => exact .error (Except.error.inj h).symm
    | ok => cases h
  | ok =>
    cases other with
    | error => cases h
    | ok => exact .ok (Except.ok.inj h)

end Images

namespace TypeExpr

variable {type other : TypeExpr}

section Equations

theorem bare_all_eq (types : List TypeExpr) : bareAll types = types.map bare :=
  eq_map_of_rec rfl (fun _ _ => rfl) types

theorem bare_elements_eq (types : List TypeExpr) : bareElements types = types.map bareElement :=
  eq_map_of_rec rfl (fun _ _ => rfl) types

theorem bare_option_eq (t : Option TypeExpr) : bareOption t = t.map bare := by
  cases t <;> rfl

theorem bare_members_eq (ms : List (Member TypeExpr)) : bareMembers ms = ms.map Member.bare :=
  eq_map_of_rec rfl (fun _ _ => by rw [bareMembers, bare_option_eq]; rfl) ms

theorem bare_index_eq (index : Option (IndexSignature TypeExpr)) :
    bareIndex index = index.map IndexSignature.bare := by
  cases index with
  | none => rfl
  | some =>
    rw [bareIndex, bare_option_eq, bare_option_eq]
    rfl

theorem bare_parameters_eq (params : List (Parameter TypeExpr)) :
    bareParameters params = params.map Parameter.bare :=
  eq_map_of_rec rfl (fun _ _ => by rw [bareParameters, bare_option_eq]; rfl) params

theorem bare_spans_eq (spans : List (TemplateSpan TypeExpr)) :
    bareSpans spans = spans.map TemplateSpan.bare :=
  eq_map_of_rec rfl (fun _ _ => rfl) spans

end Equations

/-- Parentheses around a type do not matter for its bare form. -/
theorem bare_unwrap (t : TypeExpr) : t.unwrap.bare = t.bare := by
  fun_induction unwrap t with
  | case1 t ih => rw [ih, bare]
  | case2 => rfl

/-- Types of the same bare form. -/
def SameBare (type other : TypeExpr) : Prop :=
  other.bare = type.bare

/-- A bare type is not in parentheses. -/
theorem bare_ne_paren (t inner : TypeExpr) : t.bare ≠ .paren inner := by
  rw [← bare_unwrap]
  cases ht : t.unwrap with
  | paren other => exact absurd ht (t.unwrap_ne_paren other)
  | _ => exact fun h => by cases h

/-- Where parentheses are kept, both types have them or neither has. -/
theorem wrap_bare_inj {wrapped otherWrapped : Bool}
    (h : other.bare.wrapIf otherWrapped = type.bare.wrapIf wrapped) :
    other.bare = type.bare ∧ otherWrapped = wrapped := by
  cases wrapped <;> cases otherWrapped
  · exact ⟨h, rfl⟩
  · exact absurd h.symm (type.bare_ne_paren _)
  · exact absurd h (other.bare_ne_paren _)
  · exact ⟨TypeExpr.paren.inj h, rfl⟩

/-- What types of the same bare form are inside of parentheses: types of the same kind, with parts
of the same bare form. -/
inductive SameForm : TypeExpr → TypeExpr → Prop where
  | keyword (word : Keyword) : SameForm (.keyword word) (.keyword word)
  | reference (name : Name) {arguments others : List TypeExpr}
      (harguments : others.map bare = arguments.map bare)
      (hkey : name.isText "Record" = true →
        others.head?.map isWrapped = arguments.head?.map isWrapped) :
      SameForm (.reference name arguments) (.reference name others)
  | literal (value : Json) : SameForm (.literal value) (.literal value)
  | enumMember (enumName memberName : Name) :
      SameForm (.enumMember enumName memberName) (.enumMember enumName memberName)
  | object {members others : List (Member TypeExpr)}
      {index otherIndex : Option (IndexSignature TypeExpr)}
      (hmembers : others.map Member.bare = members.map Member.bare)
      (hindex : otherIndex.map IndexSignature.bare = index.map IndexSignature.bare) :
      SameForm (.object members index) (.object others otherIndex)
  | array {element other : TypeExpr} (h : other.bare = element.bare) :
      SameForm (.array element) (.array other)
  | spread {type other : TypeExpr} (h : other.bare = type.bare) :
      SameForm (.spread type) (.spread other)
  | named (name : Name) (optional : Bool) {type other : TypeExpr} (h : other.bare = type.bare) :
      SameForm (.named name type optional) (.named name other optional)
  | tuple {elements others : List TypeExpr}
      (h : others.map bareElement = elements.map bareElement) :
      SameForm (.tuple elements) (.tuple others)
  | union {arms others : List TypeExpr} (h : others.map bare = arms.map bare) :
      SameForm (.union arms) (.union others)
  | intersection {arms others : List TypeExpr} (h : others.map bare = arms.map bare) :
      SameForm (.intersection arms) (.intersection others)
  | function {parameters others : List (Parameter TypeExpr)} {result otherResult : TypeExpr}
      (hparameters : others.map Parameter.bare = parameters.map Parameter.bare)
      (hresult : otherResult.bare = result.bare) :
      SameForm (.function parameters result) (.function others otherResult)
  | template (head : Json) {spans others : List (TemplateSpan TypeExpr)}
      (h : others.map TemplateSpan.bare = spans.map TemplateSpan.bare) :
      SameForm (.template head spans) (.template head others)
  | indexed {base otherBase index otherIndex : TypeExpr} (hbase : otherBase.bare = base.bare)
      (hindex : otherIndex.bare = index.bare) :
      SameForm (.indexed base index) (.indexed otherBase otherIndex)
  | unsupported (kind text : Json) : SameForm (.unsupported kind text) (.unsupported kind text)

/-- Arguments of the same bare form agree one by one, with their parentheses if they are kept. -/
theorem bare_arguments_inj {record : Bool} {args others : List TypeExpr}
    (h : bareArguments record others = bareArguments record args) :
    others.map bare = args.map bare ∧
      (record = true → others.head?.map isWrapped = args.head?.map isWrapped) := by
  cases args with
  | nil =>
    cases others with
    | nil => exact ⟨rfl, fun _ => rfl⟩
    | cons => cases h
  | cons =>
    cases others with
    | nil => cases h
    | cons =>
      rw [bareArguments, bareArguments, bare_all_eq, bare_all_eq] at h
      injection h with ha hr
      obtain ⟨hbare, hwrapped⟩ := wrap_bare_inj ha
      refine ⟨by rw [map_cons, map_cons, hbare, hr], fun hrecord => ?_⟩
      rw [hrecord, Bool.true_and, Bool.true_and] at hwrapped
      rw [head?_cons, head?_cons, Option.map_some, Option.map_some, hwrapped]

/-- Types of the same bare form are of the same kind inside of parentheses. -/
theorem same_form (h : other.bare = type.bare) : SameForm type.unwrap other.unwrap := by
  rw [← bare_unwrap type, ← bare_unwrap other] at h
  have ht := type.unwrap_ne_paren
  have hother := other.unwrap_ne_paren
  generalize type.unwrap = type at h ht
  generalize other.unwrap = other at h hother
  cases type <;> cases other
  case reference.reference otherName _ =>
    obtain ⟨rfl, hargs⟩ := TypeExpr.reference.inj h
    obtain ⟨hargs, hk⟩ := bare_arguments_inj hargs
    exact .reference otherName hargs hk
  case object.object =>
    rw [bare, bare, bare_members_eq, bare_members_eq, bare_index_eq, bare_index_eq] at h
    injection h with hms hidx
    exact .object hms hidx
  case tuple.tuple =>
    rw [bare, bare, bare_elements_eq, bare_elements_eq] at h
    exact .tuple (TypeExpr.tuple.inj h)
  case union.union =>
    rw [bare, bare, bare_all_eq, bare_all_eq] at h
    exact .union (TypeExpr.union.inj h)
  case intersection.intersection =>
    rw [bare, bare, bare_all_eq, bare_all_eq] at h
    exact .intersection (TypeExpr.intersection.inj h)
  case function.function =>
    rw [bare, bare, bare_parameters_eq, bare_parameters_eq] at h
    injection h with hparams hres
    exact .function hparams hres
  case template.template otherHead _ =>
    rw [bare, bare, bare_spans_eq, bare_spans_eq] at h
    injection h with hhead hspans
    exact hhead ▸ .template otherHead hspans
  case array.array => exact .array (TypeExpr.array.inj h)
  case spread.spread => exact .spread (TypeExpr.spread.inj h)
  case named.named otherName _ otherOptional =>
    obtain ⟨rfl, hi, rfl⟩ := TypeExpr.named.inj h
    exact .named otherName otherOptional hi
  case indexed.indexed =>
    obtain ⟨hbase, hidx⟩ := TypeExpr.indexed.inj h
    exact .indexed hbase hidx
  -- The rest is of different kinds, or has no other types in it.
  all_goals first
    | exact absurd rfl (ht _)
    | exact absurd rfl (hother _)
    | cases h <;> constructor

theorem unwrap_of_not_wrapped (h : type.isWrapped = false) : type.unwrap = type := by
  cases type with
  | paren => cases h
  | _ => rfl

theorem element_not_wrapped (h : type.isElement = true) : type.isWrapped = false := by
  cases type with
  | paren => cases h
  | _ => rfl

/-- An element that is spread or labelled is one with other parentheses in it too. -/
theorem element_of_kept {t other : TypeExpr}
    (hkept : (other.isWrapped && other.unwrap.isElement) = (t.isWrapped && t.unwrap.isElement))
    (hforms : other.unwrap.isElement = t.unwrap.isElement) (h : t.isElement = true) :
    other.isWrapped = false ∧ other.isElement = true := by
  have hwrapped := element_not_wrapped h
  rw [unwrap_of_not_wrapped hwrapped, h] at hforms
  rw [hwrapped, hforms, Bool.false_and, Bool.and_true] at hkept
  exact ⟨hkept, unwrap_of_not_wrapped hkept ▸ hforms⟩

/-- Elements of the same bare form are both spread, both labelled, or neither. -/
theorem same_element (h : other.bareElement = type.bareElement) : SameSlot SameBare type other := by
  obtain ⟨hbare, hkept⟩ := wrap_bare_inj h
  have hform := same_form hbare
  have hforms : other.unwrap.isElement = type.unwrap.isElement := by
    generalize type.unwrap = type at hform
    generalize other.unwrap = other at hform
    cases hform <;> rfl
  cases ht : type.isElement with
  | true =>
    obtain ⟨hother, -⟩ := element_of_kept hkept hforms ht
    rw [unwrap_of_not_wrapped (element_not_wrapped ht), unwrap_of_not_wrapped hother] at hform
    cases hform with
    | spread hi => exact .spread (congrArg TypeExpr.spread hi) hi
    | named name optional hi => exact .named name optional hi
    | _ => cases ht
  | false =>
    cases hother : other.isElement with
    | true =>
      obtain ⟨-, hboth⟩ := element_of_kept hkept.symm hforms.symm hother
      rw [ht] at hboth
      cases hboth
    | false => exact .plain hbare ht hother

/-- Types of the same form are of the same kind, with parts that are related if they have the same
bare form. -/
theorem SameForm.same_kind {types : TypeExpr → TypeExpr → Prop} {t other : TypeExpr}
    (h : SameForm t other)
    (hts : ∀ part ∈ t.parts, ∀ other, SameBare part other → types part other)
    (hi : ∀ part ∈ t.parts, ∀ inner ∈ part.parts, ∀ other, SameBare inner other →
      types inner other) :
    t.SameKind types Eq other := by
  have hall {α : Type} {f : α → α} {related : α → α → Prop} {xs others : List α}
      (h : others.map f = xs.map f)
      (hxs : ∀ x ∈ xs, ∀ other, f other = f x → related x other) :
      Forall₂ related xs others :=
    ((forall₂_and_left _ _).2 ⟨fun _ hx => hx, forall₂_of_map_eq h⟩).imp
      fun x other hpair => hxs x hpair.1 other hpair.2
  have hoption {found otherFound : Option TypeExpr}
      (h : otherFound.map bare = found.map bare) (hf : ∀ part ∈ found, part ∈ t.parts) :
      Option.Rel types found otherFound := by
    cases rel_of_map_eq h with
    | none => exact .none
    | some hbare => exact .some (hts _ (hf _ rfl) _ hbare)
  cases h with
  | keyword word => exact .keyword word
  | reference name hargs => exact .reference (fun _ => rfl) (hall hargs hts)
  | literal v => exact .literal v
  | enumMember enumName memberName => exact .enumMember enumName memberName
  | object hms hidx =>
    refine .object (hall hms fun m hm other hbare => ?_) ?_
    · exact ⟨(congrArg Member.name hbare :), (congrArg Member.optional hbare :),
        (congrArg Member.tags hbare.symm :), hoption (congrArg Member.type hbare)
          fun part hpart => mem_parts_member hm hpart⟩
    · cases rel_of_map_eq hidx with
      | none => exact .none
      | some hbare =>
        exact .some (hoption (congrArg IndexSignature.type hbare) fun part => mem_parts_index)
  | array hbare => exact .array (hts _ (mem_singleton.2 rfl) _ hbare)
  | spread => exact .spread _ _
  | named => exact .named _ _ _ _ _ _
  | tuple helts =>
    refine .tuple (hall helts fun elt helt other hbare => ?_)
    cases same_element hbare with
    | spread hbare hinside =>
      exact .spread (hts _ helt _ hbare) (hi _ helt _ (mem_singleton.2 rfl) _ hinside)
    | named name optional hinside =>
      exact .named name optional (hi _ helt _ (mem_singleton.2 rfl) _ hinside)
    | plain hbare ht hother => exact .plain (hts _ helt _ hbare) ht hother
  | union harms => exact .union (hall harms hts)
  | intersection harms => exact .intersection (hall harms hts)
  | function hparams hres =>
    refine .function (hall hparams fun param hparam other hbare => ?_)
      (hts _ (by simp [parts]) _ hres)
    exact ⟨(congrArg Parameter.optional hbare :), hoption (congrArg Parameter.type hbare)
      fun part hpart => mem_parts_parameter hparam hpart⟩
  | template head hspans =>
    refine .template head (hall hspans fun span hspan other hbare => ?_)
    exact ⟨(congrArg TemplateSpan.literal hbare :),
      hts _ (mem_map_of_mem hspan) _ (congrArg TemplateSpan.type hbare :)⟩
  | indexed hbase hidx =>
    exact .indexed (hts _ mem_cons_self _ hbase) (hts _ (by simp [parts]) _ hidx)
  | unsupported kind text => exact .unsupported kind text

/-- A name without arguments is one with other parentheses too. -/
theorem unwrap_eq_name (h : other.bare = type.bare) (hn : type.unwrap = .reference name []) :
    other.unwrap = .reference name [] := by
  have hform := same_form h
  rw [hn] at hform
  generalize other.unwrap = other at hform
  cases hform with
  | reference name hargs => rw [map_eq_nil_iff.1 hargs]

section WellTyped

theorem object_types_bare (ms : List (Member TypeExpr)) (index : Option (IndexSignature TypeExpr)) :
    (objectTypes ms index).map bare =
      objectTypes (ms.map Member.bare) (index.map IndexSignature.bare) := by
  unfold objectTypes
  rw [map_append, map_filterMap, filterMap_map]
  congr 1
  cases index with
  | none => rfl
  | some sig =>
    obtain ⟨name, key, type⟩ := sig
    cases key <;> cases type <;> rfl

/-- Types of the same form are made of types of the same bare forms. -/
theorem SameForm.parts_bare (h : SameForm type other) :
    other.parts.map bare = type.parts.map bare := by
  cases h with
  | reference name hargs => exact hargs
  | object hms hidx =>
    rw [parts, parts, object_types_bare, object_types_bare, hms, hidx]
  | tuple helts =>
    refine map_eq_of_agree ((forall₂_of_map_eq helts).imp fun elt other helt => ?_)
    exact (wrap_bare_inj helt).1
  | union harms | intersection harms => exact harms
  | function hparams hres =>
    have hts (params : List (Parameter TypeExpr)) :
        (params.filterMap Parameter.type).map bare =
          (params.map Parameter.bare).filterMap Parameter.type := by
      rw [map_filterMap, filterMap_map]
      rfl
    rw [parts, parts, map_append, map_append, hts, hts, hparams, map_singleton, map_singleton, hres]
  | template head hspans =>
    refine map_eq_of_agree ?_
    rw [parts, parts, forall₂_map_left_iff, forall₂_map_right_iff]
    exact (forall₂_of_map_eq hspans).imp fun span other hspan =>
      (congrArg TemplateSpan.type hspan :)
  | indexed hbase hidx =>
    exact congrArg₂ (fun base index => [base, index]) hbase hidx
  | array hbare | spread hbare | named _ _ hbare => exact congrArg (· :: []) hbare
  | _ => rfl

theorem SameForm.own_texts (h : SameForm type other) (ht : type.OwnTexts) : other.OwnTexts := by
  cases h with
  | @template head spans others hspans =>
    refine ⟨ht.1, fun span hspan => ?_⟩
    have hmem := mem_map_of_mem (f := TemplateSpan.bare) hspan
    rw [hspans] at hmem
    obtain ⟨found, hf, heq⟩ := mem_map.1 hmem
    have hliteral : found.literal = span.literal := (congrArg TemplateSpan.literal heq :)
    exact hliteral ▸ ht.2 found hf
  | _ => exact ht

theorem well_typed_of_unwrap (h : type.unwrap.WellTyped) : type.WellTyped := by
  fun_induction unwrap type with
  | case1 type ih => exact .intro trivial fun part hpart => mem_singleton.1 hpart ▸ ih h
  | case2 => exact h

/-- A type stays well-typed with other parentheses. -/
theorem WellTyped.of_bare (ht : type.WellTyped) (h : other.bare = type.bare) : other.WellTyped := by
  induction ht generalizing other with
  | @intro type own parts ih =>
    cases hwrapped : type.isWrapped with
    | true =>
      cases type with
      | paren inner => exact ih inner (mem_singleton.2 rfl) h
      | _ => cases hwrapped
    | false =>
      have hform := same_form h
      rw [unwrap_of_not_wrapped hwrapped] at hform
      refine well_typed_of_unwrap (.intro (hform.own_texts own) fun part hpart => ?_)
      have hmem := mem_map_of_mem (f := bare) hpart
      rw [hform.parts_bare] at hmem
      obtain ⟨found, hf, hbare⟩ := mem_map.1 hmem
      exact ih found hf hbare.symm

end WellTyped

end TypeExpr

namespace Declaration

variable {other : Declaration}

theorem name_bare (decl : Declaration) : decl.bare.name = decl.name := by
  cases decl <;> rfl

/-- What declarations of the same bare form are. -/
inductive SameForm : Declaration → Declaration → Prop where
  | interface {declared other : Interface} (h : other.bare = declared.bare) :
      SameForm (.interface declared) (.interface other)
  | typeAlias {declared other : Alias} (h : other.bare = declared.bare) :
      SameForm (.typeAlias declared) (.typeAlias other)
  | enumeration (declared : Enumeration) : SameForm (.enumeration declared) (.enumeration declared)

theorem same_form (h : other.bare = decl.bare) : SameForm decl other := by
  cases decl <;> cases other
  case interface.interface => exact .interface (Declaration.interface.inj h)
  case typeAlias.typeAlias => exact .typeAlias (Declaration.typeAlias.inj h)
  all_goals cases h <;> constructor

theorem SameForm.name_eq (h : SameForm decl other) : other.name = decl.name := by
  cases h with
  | interface h => exact (congrArg Interface.name h :)
  | typeAlias h => exact (congrArg Alias.name h :)
  | enumeration => rfl

theorem SameForm.parameters_eq (h : SameForm decl other) :
    other.parameters.map GenericParameter.bare = decl.parameters.map GenericParameter.bare := by
  cases h with
  | interface h => exact (congrArg Interface.parameters h :)
  | typeAlias h => exact (congrArg Alias.parameters h :)
  | enumeration => rfl

end Declaration

/-- Types, each read in an environment, that are the same but for parentheses. -/
structure Coincide (first second : TypeExpr × Environment) : Prop where
  type : second.1.bare = first.1.bare
  environment : second.2.bare = first.2.bare

section Coincide

variable {t other : TypeExpr} {a b : Environment}

theorem Coincide.form (h : Coincide (t, a) (other, b)) :
    TypeExpr.SameForm t.unwrap other.unwrap := TypeExpr.same_form h.type

theorem Coincide.unwrap (h : Coincide (t, a) (other, b)) :
    Coincide (t.unwrap, a) (other.unwrap, b) := by
  refine ⟨?_, h.environment⟩
  rw [TypeExpr.bare_unwrap, TypeExpr.bare_unwrap]
  exact h.type

theorem Coincide.symm (h : Coincide (t, a) (other, b)) :
    Coincide (other, b) (t, a) := ⟨h.type.symm, h.environment.symm⟩

end Coincide

/-- A type and the environment that it is read in are well-typed unless it is excused. -/
def TypedUnless (excused : Prop) (type : TypeExpr) (environment : Environment) : Prop :=
  ¬excused → type.WellTyped ∧ environment.WellTyped

namespace TypedUnless

variable {excused : Prop} {t : TypeExpr} {env : Environment}

theorem part (h : TypedUnless excused t env) {part : TypeExpr}
    (hpart : part ∈ t.parts) : TypedUnless excused part env :=
  fun hexc => ⟨(h hexc).1.part hpart, (h hexc).2⟩

theorem unwrap (h : TypedUnless excused t env) : TypedUnless excused t.unwrap env :=
  fun hexc => ⟨(h hexc).1.unwrap, (h hexc).2⟩

theorem shown (h : TypedUnless excused t env) {other : TypeExpr}
    (hbare : other.bare = t.bare) : TypeExpr.Shown excused t other :=
  fun hexc => ⟨(h hexc).1, (h hexc).1.of_bare hbare⟩

theorem resolved (h : TypedUnless excused t env) {found : TypeExpr} {inner : Environment}
    (hres : env.resolve t = .ok (found, inner)) : TypedUnless excused found inner := by
  intro hexc
  obtain ⟨reached, otherInner, hreached, htyped⟩ := (h hexc).2.resolve_ok (h hexc).1
  cases hres.symm.trans hreached
  exact htyped

end TypedUnless

namespace Environment

section Bindings

theorem bare_bindings_eq (bindings : List (Binding Environment)) :
    bareBindings bindings = bindings.map Binding.bare :=
  eq_map_of_rec rfl (fun _ _ => rfl) bindings

/-- Bare forms of environments. -/
def bareMapping : Mapping where
  type := TypeExpr.bare
  environment := bare
  levels := 0
  bindings := by
    rintro ⟨depth, bindings⟩
    exact bare_bindings_eq bindings
  depth := by
    rintro ⟨depth, bindings⟩
    rfl

theorem binding_bare (env : Environment) (key : Key) :
    env.bare.binding? key = (env.binding? key).map Binding.bare := bareMapping.binding_eq env key

theorem bind_bare (env : Environment) (name : Name) (t : TypeExpr) (read : Environment) :
    env.bare.bind name t.bare read.bare = (env.bind name t read).map bare :=
  bareMapping.bind_eq env name t read

theorem without_bare (env : Environment) (name : Name) :
    env.bare.without name = (env.without name).bare := bareMapping.without_eq env name

theorem enter_same_bare {a b : Environment} (h : b.bare = a.bare) :
    b.enter.bare = a.enter.bare := by
  have henter (env : Environment) : env.bare.enter = env.enter.bare := bareMapping.enter_eq env
  rw [← henter, ← henter, h]

variable {first second : Environment}

theorem depth_eq_of_bare (h : second.bare = first.bare) : second.depth = first.depth := by
  have hdepth (env : Environment) : env.bare.depth = env.depth := bareMapping.depth env
  rw [← hdepth, h, hdepth]

/-- Environments of the same bare form bind the same names, to types that coincide. -/
theorem bindings_coincide (h : second.bare = first.bare) (key : Key) :
    BoundAlike Coincide first second key key := by
  have hmap : (second.binding? key).map Binding.bare = (first.binding? key).map Binding.bare := by
    rw [← binding_bare, ← binding_bare, h]
  refine rel_imp (rel_of_map_eq hmap) fun _ _ _ _ heq => ?_
  injection heq with _ ht henv
  exact ⟨ht, henv⟩

end Bindings

/-- Whether a type is a bound parameter in parentheses, which is not seen by what follows parameters
before it takes parentheses off. -/
def conceals (environment : Environment) (type : TypeExpr) : Bool :=
  type.isWrapped &&
    match type.unwrap with
    | .reference name [] => (name.key?.bind environment.binding?).isSome
    | _ => false

section Resolve

/-- Types that coincide lead to types that do so and are not in parentheses, when parentheses are
taken off first. -/
theorem resolve_unwrap_concurs {t other : TypeExpr} {first second : Environment}
    (h : Coincide (t, first) (other, second)) :
    Concurs Eq (fun found reached =>
        Coincide found reached ∧ TypeExpr.SameForm found.1 reached.1)
      (first.resolve t.unwrap) (second.resolve other.unwrap) := by
  by_cases hn : ∃ name, t.unwrap = .reference name []
  · obtain ⟨name, hn⟩ := hn
    rw [hn, TypeExpr.unwrap_eq_name h.type hn, resolve_name, resolve_name]
    refine concurs_bind (concurs_refl _) fun key _ heq => ?_
    subst heq
    have hbindings := bindings_coincide h.environment key
    unfold BoundAlike at hbindings
    dsimp only at hbindings
    cases hb : first.binding? key with
    | none =>
      rw [hb] at hbindings
      generalize second.binding? key = found at hbindings
      cases hbindings
      exact .ok ⟨⟨rfl, h.environment⟩, .reference name rfl fun _ => rfl⟩
    | some b =>
      have hsmaller := size_of_binding (mem_of_find?_eq_some hb)
      rw [hb] at hbindings
      generalize second.binding? key = found at hbindings
      cases hbindings with
      | some hbound => exact resolve_unwrap_concurs hbound
  · have hother : ∀ name, other.unwrap ≠ .reference name [] := fun name heq =>
      hn ⟨name, TypeExpr.unwrap_eq_name h.type.symm heq⟩
    rw [resolve_of_ne fun name heq => hn ⟨name, heq⟩, resolve_of_ne hother]
    exact .ok ⟨h.unwrap, h.form⟩
termination_by sizeOf first

variable {excused : Prop} {t other : TypeExpr} {a b : Environment}

/-- A type in parentheses leads to itself. -/
theorem resolve_of_wrapped (env : Environment) (h : t.isWrapped = true) :
    env.resolve t = .ok (t, env) := by
  refine resolve_of_ne fun name heq => ?_
  rw [heq] at h
  cases h

/-- A name that is seen in parentheses is not bound, or it has no key. -/
theorem unbound_of_shown {env : Environment} (hwrapped : t.isWrapped = true)
    (hn : t.unwrap = .reference name []) (hshown : env.conceals t = false) :
    name.key = .error .wrongKind ∨ ∃ key, name.key = .ok key ∧ env.binding? key = none := by
  rw [conceals, hwrapped, hn, Bool.true_and] at hshown
  dsimp only at hshown
  unfold Json.key
  cases hk : name.key? with
  | none => exact .inl rfl
  | some key =>
    rw [hk, Option.bind_some] at hshown
    exact .inr ⟨key, rfl, Option.isSome_eq_false_iff.1 hshown |> Option.isNone_iff_eq_none.1⟩

/-- A name that is seen in parentheses leads to what it leads to without them, unless it has no
key. -/
theorem name_conforms (h : b.bare = a.bare) (hwrapped : other.isWrapped = true)
    (hn : other.unwrap = .reference name []) (hshown : b.conceals other = false)
    (htext : ¬excused → name.IsText) :
    Conforms excused Coincide (a.resolve (.reference name [])) (b.resolve other) := by
  rw [resolve_of_wrapped b hwrapped, resolve_name]
  rcases unbound_of_shown hwrapped hn hshown with hk | ⟨key, hk, hunbound⟩
  · rw [hk]
    refine .inr ⟨by_contra fun hexc => ?_, .inl rfl⟩
    obtain ⟨key, hf⟩ := (htext hexc).key_ok
    rw [hk] at hf
    cases hf
  · have hbindings := bindings_coincide h key
    rw [BoundAlike, hunbound] at hbindings
    generalize ha : a.binding? key = found at hbindings
    cases hbindings
    rw [hk]
    dsimp only [Bind.bind, Except.bind]
    rw [ha]
    refine conforms_ok ⟨?_, h⟩
    rw [← TypeExpr.bare_unwrap other, hn]

/-- Types that coincide lead to types that do so, when both are concealed or neither is. -/
theorem resolve_conforms (h : Coincide (t, a) (other, b)) (hcon : b.conceals other = a.conceals t)
    (htyped : TypedUnless excused t a) :
    Conforms excused Coincide (a.resolve t) (b.resolve other) := by
  by_cases hn : ∃ name, t.unwrap = .reference name []
  · obtain ⟨name, hn⟩ := hn
    have htext (hexc : ¬excused) : name.IsText := by
      have htyped := (htyped hexc).1.unwrap
      rw [hn] at htyped
      exact htyped.own
    have hotherName := TypeExpr.unwrap_eq_name h.type hn
    -- A name in parentheses leads to itself; without them it may be bound.
    cases hwrapped : t.isWrapped with
    | true =>
      cases hother : other.isWrapped with
      | true =>
        rw [resolve_of_wrapped a hwrapped, resolve_of_wrapped b hother]
        exact conforms_ok h
      | false =>
        rw [TypeExpr.unwrap_of_not_wrapped hother] at hotherName
        have hshown : a.conceals t = false := by
          rw [← hcon, conceals, hother, Bool.false_and]
        rw [hotherName]
        refine conforms_symm (fun _ _ => Coincide.symm) ?_
        exact name_conforms h.environment.symm hwrapped hn hshown htext
    | false =>
      cases hother : other.isWrapped with
      | true =>
        have hshown : b.conceals other = false := by
          rw [hcon, conceals, hwrapped, Bool.false_and]
        rw [TypeExpr.unwrap_of_not_wrapped hwrapped] at hn
        rw [hn]
        exact name_conforms h.environment hother hotherName hshown htext
      | false =>
        have hresults := (resolve_unwrap_concurs h).imp fun _ _ _ _ hf => hf.1
        rw [TypeExpr.unwrap_of_not_wrapped hwrapped,
          TypeExpr.unwrap_of_not_wrapped hother] at hresults
        exact .inl hresults
  · have hnot {found : TypeExpr} (hf : found.bare = t.bare) (name : Name) :
        found ≠ .reference name [] := fun heq =>
      hn ⟨name, TypeExpr.unwrap_eq_name hf.symm (by rw [heq]; rfl)⟩
    rw [resolve_of_ne (hnot rfl), resolve_of_ne (hnot h.type)]
    exact conforms_ok h

end Resolve

/-- A type leads to a literal, through parentheses and bound parameters. -/
inductive LeadsToLiteral (value : Json) : Environment → TypeExpr → Prop where
  | literal (environment : Environment) : LeadsToLiteral value environment (.literal value)
  | paren {environment type} (h : LeadsToLiteral value environment type) :
      LeadsToLiteral value environment (.paren type)
  | parameter {environment : Environment} {name : Name} {key} {binding : Binding Environment}
      (hkey : name.key = .ok key) (hbinding : environment.binding? key = some binding)
      (h : LeadsToLiteral value binding.environment binding.type) :
      LeadsToLiteral value environment (.reference name [])

section Literals

variable {env : Environment} {t : TypeExpr} {v : Json}

theorem LeadsToLiteral.of_unwrap (h : LeadsToLiteral v env t.unwrap) : LeadsToLiteral v env t := by
  fun_induction TypeExpr.unwrap t with
  | case1 t ih => exact .paren (ih h)
  | case2 => exact h

/-- The literal that a type leads to is found when parentheses are taken off first. -/
theorem LeadsToLiteral.resolve (h : LeadsToLiteral v env t) :
    ∃ inner, env.resolve t.unwrap = .ok (.literal v, inner) := by
  induction h with
  | literal env => exact ⟨env, resolve_of_ne fun _ heq => nomatch heq⟩
  | paren h ih => exact ih
  | parameter hk hb h ih =>
    obtain ⟨inner, hi⟩ := ih
    refine ⟨inner, (resolve_reference _ hk).trans ?_⟩
    rw [hb]
    exact hi

/-- A literal that is found is one that the type leads to. -/
theorem leads_to_literal_of_resolve {env inner : Environment} {t : TypeExpr}
    (h : env.resolve t.unwrap = .ok (.literal v, inner)) : LeadsToLiteral v env t := by
  refine .of_unwrap ?_
  rcases resolve_cases h with ⟨hf, -⟩ | ⟨name, key, b, hn, hk, hb, h⟩
  · rw [← hf]
    exact .literal env
  · have hsmaller := size_of_binding (mem_of_find?_eq_some hb)
    rw [hn]
    exact .parameter hk hb (leads_to_literal_of_resolve h)
termination_by sizeOf env

/-- What is followed before its parentheses are taken off ends at a literal exactly if it leads to
that and does not conceal a parameter. -/
theorem substitute_literal_iff :
    (∃ found, env.substitute t = .ok found ∧ found.unwrap = .literal v) ↔
      LeadsToLiteral v env t ∧ env.conceals t = false := by
  have hsubstitute {found : TypeExpr} {inner : Environment}
      (h : env.resolve t = .ok (found, inner)) :
      env.substitute t = .ok found := by
    rw [substitute, h]
    rfl
  cases hwrapped : t.isWrapped with
  | false =>
    have hshown : env.conceals t = false := by
      rw [conceals, hwrapped, Bool.false_and]
    have hun := TypeExpr.unwrap_of_not_wrapped hwrapped
    refine ⟨fun ⟨found, hf, hliteral⟩ => ⟨?_, hshown⟩, fun ⟨h, _⟩ => ?_⟩
    · obtain ⟨⟨found, inner⟩, hres, heq⟩ := bind_eq_ok_iff.1 hf
      cases heq
      rw [← hun] at hres
      rw [← (resolve_end hres).1, hliteral] at hres
      exact leads_to_literal_of_resolve hres
    · obtain ⟨inner, hi⟩ := h.resolve
      rw [hun] at hi
      exact ⟨_, hsubstitute hi, rfl⟩
  | true =>
    -- A type in parentheses is not followed, so the literal has to be inside of them.
    have hself := hsubstitute (resolve_of_wrapped env hwrapped)
    refine ⟨fun ⟨found, hf, hliteral⟩ => ?_, fun ⟨h, hshown⟩ => ⟨t, hself, ?_⟩⟩
    · cases hself.symm.trans hf
      refine ⟨.of_unwrap (hliteral ▸ .literal env), ?_⟩
      rw [conceals, hliteral, Bool.and_false]
    · obtain ⟨inner, hi⟩ := h.resolve
      by_cases hn : ∃ name, t.unwrap = .reference name []
      · obtain ⟨name, hn⟩ := hn
        rw [hn] at hi
        rcases unbound_of_shown hwrapped hn hshown with hk | ⟨key, hk, hunbound⟩
        · rw [resolve_name, hk] at hi
          cases hi
        · rw [resolve_reference _ hk, hunbound] at hi
          cases hi
      · rw [resolve_of_ne fun name heq => hn ⟨name, heq⟩] at hi
        injection hi with hi
        exact (Prod.mk.inj hi).1

end Literals

end Environment

end Schemata
