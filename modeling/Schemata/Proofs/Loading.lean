import Schemata.Document
import Schemata.Proofs.Calls

/-!
# Loading what was written

`SourceUnit.document` writes a source unit as the document that spells it. A field that holds its
default may be left out; the parameter `keep` says which of these are written all the same. Only the
last field of an index signature stays. The readers of `Schemata.Document` look fields up by their
key, so each of them is an operation on `Json.field?`, and what it finds in a written object is
decided by the keys alone. `document_loads` says that reading a written document gives back the
source unit with all its fields.
-/

namespace Schemata

open List

variable {α : Type}

/-- Whether the value is null. -/
def Json.isNull : Json → Bool
  | .null => true
  | _ => false

namespace Document

/-- A field that may be left out when it holds its default. -/
def spare (keep : String → Bool) (key : String) (isDefault : Bool) (value : Json) :
    List (String × Json) :=
  if isDefault && !keep key then [] else [(key, value)]

/-- The field of a list. -/
abbrev listField (keep : String → Bool) (key : String) (items : List Json) : List (String × Json) :=
  spare keep key items.isEmpty (.arr items)

/-- The field of a flag. -/
abbrev flagField (keep : String → Bool) (key : String) (default value : Bool) :
    List (String × Json) :=
  spare keep key (value == default) (.bool value)

/-- The field of a text that is empty by default. -/
abbrev textField (keep : String → Bool) (key : String) (value : Json) : List (String × Json) :=
  spare keep key (value.isText "") value

/-- The field of annotations. -/
abbrev tagsField (keep : String → Bool) (tags : Tags) : List (String × Json) :=
  spare keep "tags" tags.isEmpty (.obj (tags.map fun (name, text) => (name, .str text)))

end Document

open Document (spare listField flagField textField tagsField)

section Writing

variable (keep : String → Bool)

mutual

/-- The value that spells a type. -/
def TypeExpr.document : TypeExpr → Json
  | .keyword k => .obj [("kind", .str "keyword"), ("keyword", .str k.word)]
  | .reference name arguments =>
    .obj (("kind", .str "reference") :: ("name", name) ::
      listField keep "typeArguments" (TypeExpr.documents arguments))
  | .literal value =>
    .obj (("kind", .str "literal") :: spare keep "value" value.isNull value)
  | .enumMember enumName memberName =>
    .obj [("kind", .str "enumMember"), ("enumName", enumName), ("memberName", memberName)]
  | .object members index =>
    .obj (("kind", .str "object") ::
      (listField keep "members" (TypeExpr.memberDocuments members) ++ TypeExpr.indexField index))
  | .array element => .obj [("kind", .str "array"), ("elementType", element.document)]
  | .spread type => .obj [("kind", .str "rest"), ("type", type.document)]
  | .named name type optional =>
    .obj (("kind", .str "namedMember") :: ("name", name) :: ("type", type.document) ::
      flagField keep "optional" false optional)
  | .tuple elements =>
    .obj (("kind", .str "tuple") :: listField keep "elements" (TypeExpr.documents elements))
  | .union arms =>
    .obj (("kind", .str "union") :: listField keep "types" (TypeExpr.documents arms))
  | .intersection arms =>
    .obj (("kind", .str "intersection") :: listField keep "types" (TypeExpr.documents arms))
  | .function parameters result =>
    .obj (("kind", .str "function") :: ("returnType", result.document) ::
      listField keep "parameters" (TypeExpr.parameterDocuments parameters))
  | .template head spans =>
    .obj (("kind", .str "templateLiteral") ::
      (textField keep "head" head ++ listField keep "spans" (TypeExpr.spanDocuments spans)))
  | .indexed base index =>
    .obj [("kind", .str "indexedAccess"), ("objectType", base.document),
      ("indexType", index.document)]
  | .paren type => .obj [("kind", .str "parenthesized"), ("type", type.document)]
  | .unsupported (.str "keyword") text => .obj [("kind", .str "keyword"), ("keyword", text)]
  | .unsupported kind text => .obj (("kind", kind) :: textField keep "text" text)

/-- The field of a type that may be left out. -/
def TypeExpr.optionField (key : String) : Option TypeExpr → List (String × Json)
  | none => spare keep key true .null
  | some type => [(key, type.document)]

/-- The values that spell types. -/
def TypeExpr.documents : List TypeExpr → List Json
  | [] => []
  | type :: rest => type.document :: TypeExpr.documents rest

/-- The values that spell members. -/
def TypeExpr.memberDocuments : List (Member TypeExpr) → List Json
  | [] => []
  | ⟨name, type, optional, readonly, tags⟩ :: rest =>
    .obj (("name", .str name) :: (TypeExpr.optionField "type" type ++
      (flagField keep "optional" false optional ++ (flagField keep "readonly" false readonly ++
        tagsField keep tags)))) :: TypeExpr.memberDocuments rest

/-- The field of an index signature. -/
def TypeExpr.indexField : Option (IndexSignature TypeExpr) → List (String × Json)
  | none => spare keep "indexSignature" true .null
  | some ⟨keyName, keyType, type⟩ =>
    -- An object without fields would be read as no index signature.
    let types := TypeExpr.optionField "keyType" keyType ++ TypeExpr.optionField "type" type
    [("indexSignature", .obj (
      spare keep "keyName" (keyName.isText "key" && !types.isEmpty) keyName ++ types))]

/-- The values that spell parameters. -/
def TypeExpr.parameterDocuments : List (Parameter TypeExpr) → List Json
  | [] => []
  | ⟨name, type, optional⟩ :: rest =>
    .obj (textField keep "name" name ++ (TypeExpr.optionField "type" type ++
      flagField keep "optional" false optional)) :: TypeExpr.parameterDocuments rest

/-- The values that spell the spans of a template. -/
def TypeExpr.spanDocuments : List (TemplateSpan TypeExpr) → List Json
  | [] => []
  | ⟨type, after⟩ :: rest =>
    .obj (("type", type.document) :: textField keep "literal" after) ::
      TypeExpr.spanDocuments rest

end

/-- The value that spells a parameter of a generic declaration. -/
def GenericParameter.document (parameter : GenericParameter) : Json :=
  .obj (("name", parameter.name) :: (TypeExpr.optionField keep "constraint" parameter.bound ++
    TypeExpr.optionField keep "default" parameter.default))

/-- The value that spells a heritage clause. -/
def Heritage.document (clause : Heritage) : Json :=
  let projection :=
    (clause.projection.map fun projection => Json.str projection.typeName).getD .null
  .obj (("name", clause.name) :: (spare keep "projection" clause.projection.isNone projection ++
    TypeExpr.optionField keep "keys" clause.keys))

/-- The value that spells a member of an enumeration. -/
def Enumerator.document (member : Enumerator) : Json :=
  .obj (("name", member.name) ::
    spare keep "initializer" member.initializer.isNull member.initializer)

/-- The value that spells a declaration. -/
def Declaration.document : Declaration → Json
  | .interface declared =>
    .obj (("kind", .str "interface") :: ("name", declared.name) :: (tagsField keep declared.tags ++
      (flagField keep "exported" true declared.exported ++
      (listField keep "typeParameters" (declared.parameters.map (GenericParameter.document keep)) ++
      (listField keep "extends" (declared.heritage.map (Heritage.document keep)) ++
      (listField keep "members" (TypeExpr.memberDocuments keep declared.members) ++
        TypeExpr.indexField keep declared.index))))))
  | .typeAlias declared =>
    .obj (("kind", .str "alias") :: ("name", declared.name) ::
      ("type", declared.type.document keep) :: (tagsField keep declared.tags ++
      (flagField keep "exported" true declared.exported ++
        listField keep "typeParameters"
          (declared.parameters.map (GenericParameter.document keep)))))
  | .enumeration declared =>
    .obj (("kind", .str "enum") :: ("name", declared.name) :: (tagsField keep declared.tags ++
      (flagField keep "exported" true declared.exported ++
        listField keep "members" (declared.members.map (Enumerator.document keep)))))

/-- The document that spells a source unit. -/
def SourceUnit.document (unit : SourceUnit) : Json :=
  .obj (("path", unit.path) ::
    ("declarations", .arr (unit.declarations.map (Declaration.document keep))) ::
    listField keep "imports" (unit.imports.map Json.str))

end Writing

/-- The words for the kinds of types. -/
def typeKinds : List String :=
  ["keyword", "reference", "enumMember", "literal", "object", "array", "tuple", "rest",
    "namedMember", "union", "intersection", "function", "templateLiteral", "indexedAccess",
    "parenthesized"]

/-- The outermost construct of the type has a spelling. The name of a reference is a text, with a
dot only before arguments. An unsupported construct is a word that names no predefined type, or of a
kind that is not one of those above. -/
def TypeExpr.HasSpelling : TypeExpr → Prop
  | .reference name arguments =>
    ∃ text, name = .str text ∧ (arguments = [] → '.' ∉ text.toList)
  | .unsupported kind text =>
    (kind = .str "keyword" ∧ ∃ word, text = .str word ∧ Keyword.ofWord? word = none) ∨
      ∀ word ∈ typeKinds, kind ≠ .str word
  | _ => True

/-- A type in which everything has a spelling. -/
inductive TypeExpr.IsSpellable : TypeExpr → Prop where
  | intro {type : TypeExpr} (htype : type.HasSpelling)
      (hparts : ∀ part ∈ type.parts, IsSpellable part) : IsSpellable type

/-- The types of a parameter of a generic declaration. -/
def GenericParameter.writtenTypes (parameter : GenericParameter) : List TypeExpr :=
  parameter.bound.toList ++ parameter.default.toList

/-- All types that are written in a declaration. -/
def Declaration.writtenTypes : Declaration → List TypeExpr
  | .interface declared =>
    objectTypes declared.members declared.index ++
      (declared.parameters.flatMap GenericParameter.writtenTypes ++
        declared.heritage.filterMap Heritage.keys)
  | .typeAlias declared =>
    declared.type :: declared.parameters.flatMap GenericParameter.writtenTypes
  | .enumeration _ => []

/-- A source unit in which everything has a spelling. -/
def SourceUnit.IsSpellable (unit : SourceUnit) : Prop :=
  ∀ declaration ∈ unit.declarations, ∀ type ∈ declaration.writtenTypes, type.IsSpellable

namespace Document

variable {key name : String} {fields : List (String × Json)} {t : TypeExpr} {keep : String → Bool}

@[simp]
theorem field_append (fields rest : List (String × Json)) :
    Json.field? key (fields ++ rest) = (Json.field? key fields).or (Json.field? key rest) := by
  induction fields with
  | nil => rfl
  | cons field fields ih =>
    obtain ⟨name, v⟩ := field
    by_cases hn : name = key
    · simp [Json.field?, hn]
    · simp [Json.field?, hn, ih]

@[simp]
theorem field_spare_ne (h : name ≠ key) (isDefault : Bool) (v : Json) :
    Json.field? key (spare keep name isDefault v) = none := by
  unfold spare
  split
  · rfl
  · rw [Json.field?, if_neg h]
    rfl

/-- The field is there, or it is left out and holds its default. -/
theorem field_spare_self (keep : String → Bool) (key : String) (isDefault : Bool) (v : Json) :
    Json.field? key (spare keep key isDefault v) = some v ∨
      isDefault = true ∧ Json.field? key (spare keep key isDefault v) = none := by
  unfold spare
  split
  · rename_i hspare
    exact .inr ⟨(Bool.and_eq_true_iff.1 hspare).1, rfl⟩
  · exact .inl (if_pos rfl)

@[simp]
theorem field_option_ne (h : name ≠ key) (t : Option TypeExpr) :
    Json.field? key (TypeExpr.optionField keep name t) = none := by
  cases t with
  | none => exact field_spare_ne h true .null
  | some =>
    rw [TypeExpr.optionField, Json.field?, if_neg h]
    rfl

@[simp]
theorem field_index_ne (h : "indexSignature" ≠ key) (index : Option (IndexSignature TypeExpr)) :
    Json.field? key (TypeExpr.indexField keep index) = none := by
  cases index with
  | none => exact field_spare_ne h true .null
  | some =>
    rw [TypeExpr.indexField, Json.field?, if_neg h]
    rfl

/-- A reader of the fields of an object that looks at the first field of one key only. -/
structure Selects {α : Type} (key : String) (read : List (String × Json) → α) : Prop where
  skip : ∀ name value rest, name ≠ key → read ((name, value) :: rest) = read rest
  found : ∀ value rest, read ((key, value) :: rest) = read [(key, value)]

/-- Such a reader depends on the value of its key. -/
theorem Selects.congr {read : List (String × Json) → α} (h : Selects key read)
    {fields others : List (String × Json)} (heq : Json.field? key fields = Json.field? key others) :
    read fields = read others := by
  have hread (fields : List (String × Json)) :
      read fields = read ((Json.field? key fields).toList.map (key, ·)) := by
    induction fields with
    | nil => rfl
    | cons field fields ih =>
      obtain ⟨name, v⟩ := field
      by_cases hn : name = key
      · subst hn
        simp [h.found v fields, Json.field?]
      · rw [h.skip _ _ _ hn, ih, Json.field?, if_neg hn]
  rw [hread fields, heq, ← hread]

theorem selects_of_cons {α : Type} {read : List (String × Json) → α} (found : Json → α)
    (h : ∀ name v rest, read ((name, v) :: rest) =
      if name = key then found v else read rest) : Selects key read where
  skip name v rest hn := by rw [h, if_neg hn]
  found v rest := by rw [h, h, if_pos rfl, if_pos rfl]

theorem selects_type (key path inner : String) : Selects key (readTypeField key path inner) :=
  selects_of_cons _ fun _ _ _ => by rw [readTypeField.eq_def]

theorem selects_option (key path : String) : Selects key (readOptionField key path) :=
  selects_of_cons _ fun _ _ _ => by rw [readOptionField.eq_def]

theorem selects_types (key path : String) : Selects key (readTypesField key path) :=
  selects_of_cons _ fun _ _ _ => by rw [readTypesField.eq_def]

theorem selects_members (path : String) : Selects "members" (readMembersField path) :=
  selects_of_cons _ fun _ _ _ => by rw [readMembersField.eq_def]

theorem selects_index (path : String) : Selects "indexSignature" (readIndexField path) :=
  selects_of_cons _ fun _ _ _ => by rw [readIndexField.eq_def]

theorem selects_parameters (path : String) : Selects "parameters" (readParametersField path) :=
  selects_of_cons _ fun _ _ _ => by rw [readParametersField.eq_def]

theorem selects_spans (path : String) : Selects "spans" (readSpansField path) :=
  selects_of_cons _ fun _ _ _ => by rw [readSpansField.eq_def]

variable (keep)

/-- The type is read back wherever it stands. -/
def IsRead (keep : String → Bool) (type : TypeExpr) : Prop :=
  ∀ path, readType path (type.document keep) = .ok type

theorem read_types {types : List TypeExpr} (h : ∀ t ∈ types, IsRead keep t) (path : String) :
    readTypes path (TypeExpr.documents keep types) = .ok types := by
  induction types with
  | nil => rw [TypeExpr.documents, readTypes]
  | cons t rest ih =>
    obtain ⟨ht, hr⟩ := forall_mem_cons.1 h
    rw [TypeExpr.documents, readTypes, ht path, ih hr]
    rfl

theorem documents_is_empty (types : List TypeExpr) :
    (TypeExpr.documents keep types).isEmpty = types.isEmpty := by
  cases types <;> simp [TypeExpr.documents]

/-- What is read from a list, it is read from its field also when that is left out. -/
theorem read_spare {read : List (String × Json) → Except Failure (List α)} {xs : List α}
    {isDefault : Bool} {v : Json} (hf : read [(key, v)] = .ok xs)
    (hmissing : isDefault = true → read [] = .ok xs) :
    read (spare keep key isDefault v) = .ok xs := by
  unfold spare
  split
  · rename_i hspare
    exact hmissing (Bool.and_eq_true_iff.1 hspare).1
  · exact hf

theorem read_types_field {types : List TypeExpr} (h : ∀ t ∈ types, IsRead keep t)
    (path : String) (hfields : Json.field? key fields =
      Json.field? key (listField keep key (TypeExpr.documents keep types))) :
    readTypesField key path fields = .ok types := by
  rw [(selects_types key path).congr hfields]
  refine read_spare keep ?_ fun hnil => ?_
  · rw [readTypesField, if_pos rfl, read_types keep h]
  · rw [documents_is_empty, List.isEmpty_iff] at hnil
    rw [hnil, readTypesField]

theorem document_obj (t : TypeExpr) : ∃ fields, t.document keep = .obj fields := by
  unfold TypeExpr.document
  split <;> exact ⟨_, rfl⟩

theorem read_option_field {t : Option TypeExpr} (h : ∀ inner ∈ t, IsRead keep inner) (path : String)
    (hfields : Json.field? key fields = Json.field? key (TypeExpr.optionField keep key t)) :
    readOptionField key path fields = .ok t := by
  rw [(selects_option key path).congr hfields]
  cases t with
  | none =>
    unfold TypeExpr.optionField spare
    split
    · rw [readOptionField]
    · rw [readOptionField, if_pos rfl]
  | some t =>
    obtain ⟨fields, hfields⟩ := document_obj keep t
    have hread := h t rfl path
    rw [TypeExpr.optionField, hfields, readOptionField, if_pos rfl, ← hfields, hread]
    · rfl
    · simp

theorem read_type_field (h : IsRead keep t) (path inner : String)
    (hfields : Json.field? key fields = some (t.document keep)) :
    readTypeField key path inner fields = .ok t := by
  have hone : Json.field? key fields = Json.field? key [(key, t.document keep)] := by
    rw [hfields, Json.field?, if_pos rfl]
  rw [(selects_type key path inner).congr hone, readTypeField, if_pos rfl, h]

theorem read_flag (key : String) (v default : Bool)
    (h : Json.field? key fields = Json.field? key (flagField keep key default v)) :
    flag default fields key = v := by
  rw [flag, h]
  rcases field_spare_self keep key (v == default) (.bool v) with hfield | ⟨hdefault, hfield⟩
  · rw [hfield]
    rfl
  · rw [hfield, beq_iff_eq.1 hdefault]
    rfl

/-- A value that is left out only when it is the default is found by that default. -/
theorem read_default {key : String} {isDefault : Bool} {v default : Json}
    (hdefault : isDefault = true → v = default)
    (h : Json.field? key fields = Json.field? key (spare keep key isDefault v)) :
    (Json.field? key fields).getD default = v := by
  rw [h]
  rcases field_spare_self keep key isDefault v with hfield | ⟨hspare, hfield⟩
  · rw [hfield]
    rfl
  · rw [hfield, hdefault hspare]
    rfl

theorem eq_of_isText {v : Json} {text : String} (h : v.isText text = true) : v = .str text := by
  cases v <;> simp_all [Json.isText, Json.text?]

theorem read_text (key : String) (v : Json)
    (h : Json.field? key fields = Json.field? key (textField keep key v)) :
    (Json.field? key fields).getD (.str "") = v :=
  read_default keep eq_of_isText h

theorem read_null (key : String) (v : Json)
    (h : Json.field? key fields = Json.field? key (spare keep key v.isNull v)) :
    (Json.field? key fields).getD .null = v := by
  refine read_default keep (fun hnull => ?_) h
  cases v <;> first | rfl | cases hnull

theorem read_tags (tags : Tags)
    (h : Json.field? "tags" fields = Json.field? "tags" (tagsField keep tags)) :
    readTags fields = .ok tags := by
  rw [readTags, h]
  rcases field_spare_self keep "tags" tags.isEmpty (.obj (tags.map fun (name, text) =>
    (name, .str text))) with hfield | ⟨hdefault, hfield⟩
  · rw [hfield]
    simp [Json.display, Function.comp_def]
  · rw [hfield, List.isEmpty_iff.1 hdefault]

theorem forall_mem_filterMap_cons {α β : Type} {f : α → Option β} {holds : β → Prop} {x : α}
    {rest : List α} : (∀ v ∈ (x :: rest).filterMap f, holds v) ↔
      (∀ v ∈ f x, holds v) ∧ ∀ v ∈ rest.filterMap f, holds v := by
  rw [filterMap_cons]
  cases f x <;> simp

theorem read_members {ms : List (Member TypeExpr)}
    (h : ∀ t ∈ ms.filterMap Member.type, IsRead keep t) (path : String) :
    readMembers path (TypeExpr.memberDocuments keep ms) = .ok ms := by
  induction ms with
  | nil => rw [TypeExpr.memberDocuments, readMembers]
  | cons m rest ih =>
    obtain ⟨name, t, optional, readonly, tags⟩ := m
    obtain ⟨ht, hr⟩ := forall_mem_filterMap_cons.1 h
    have hr := ih hr
    rw [TypeExpr.memberDocuments, readMembers, hr, requireField, Json.field?, if_pos rfl,
      read_option_field keep ht path (by simp [Json.field?]),
      read_tags keep tags (by simp [Json.field?]),
      read_flag keep "optional" optional false (by simp [Json.field?]),
      read_flag keep "readonly" readonly false (by simp [Json.field?])]
    rfl

theorem read_members_field {ms : List (Member TypeExpr)}
    (h : ∀ t ∈ ms.filterMap Member.type, IsRead keep t) (path : String)
    (hfields : Json.field? "members" fields =
      Json.field? "members" (listField keep "members" (TypeExpr.memberDocuments keep ms))) :
    readMembersField path fields = .ok ms := by
  rw [(selects_members path).congr hfields]
  refine read_spare keep ?_ fun hnil => ?_
  · rw [readMembersField, if_pos rfl, read_members keep h]
  · cases ms with
    | nil => rw [readMembersField]
    | cons => simp [TypeExpr.memberDocuments] at hnil

theorem read_index_field {index : Option (IndexSignature TypeExpr)}
    (h : ∀ t ∈ index.toList.flatMap IndexSignature.types, IsRead keep t) (path : String)
    (hfields : Json.field? "indexSignature" fields =
      Json.field? "indexSignature" (TypeExpr.indexField keep index)) :
    readIndexField path fields = .ok index := by
  rw [(selects_index path).congr hfields]
  cases index with
  | none =>
    unfold TypeExpr.indexField spare
    split
    · rw [readIndexField]
    · rw [readIndexField, if_pos rfl]
      · rfl
      · simp
  | some sig =>
    obtain ⟨keyName, keyType, t⟩ := sig
    have hk : ∀ inner ∈ keyType, IsRead keep inner := fun inner hi =>
      h inner (by cases hi; simp [IndexSignature.types])
    have ht : ∀ inner ∈ t, IsRead keep inner := fun inner hi =>
      h inner (by cases hi; simp [IndexSignature.types])
    rw [TypeExpr.indexField]
    generalize htypes : TypeExpr.optionField keep "keyType" keyType ++
      TypeExpr.optionField keep "type" t = types
    generalize hshown : spare keep "keyName" (keyName.isText "key" && !types.isEmpty) keyName ++
      types = shown
    have hname : (Json.field? "keyName" shown).getD (.str "key") = keyName := by
      have hfield : Json.field? "keyName" shown = Json.field? "keyName"
          (spare keep "keyName" (keyName.isText "key" && !types.isEmpty) keyName) := by
        simp [← hshown, ← htypes]
      exact read_default keep (fun hspare => eq_of_isText (Bool.and_eq_true_iff.1 hspare).1) hfield
    have hread : readOptionField "keyType" path shown = .ok keyType ∧
        readOptionField "type" path shown = .ok t :=
      ⟨read_option_field keep hk path (by simp [← hshown, ← htypes]),
        read_option_field keep ht path (by simp [← hshown, ← htypes])⟩
    cases shown with
    | nil =>
      obtain ⟨hspare, rfl⟩ := append_eq_nil_iff.1 hshown
      simp [spare] at hspare
    | cons =>
      rw [readIndexField, if_pos rfl, hread.1, hread.2, hname]
      rfl

theorem read_parameters {params : List (Parameter TypeExpr)}
    (h : ∀ t ∈ params.filterMap Parameter.type, IsRead keep t) (path : String) :
    readParameters path (TypeExpr.parameterDocuments keep params) = .ok params := by
  induction params with
  | nil => rw [TypeExpr.parameterDocuments, readParameters]
  | cons param rest ih =>
    obtain ⟨name, t, optional⟩ := param
    obtain ⟨ht, hr⟩ := forall_mem_filterMap_cons.1 h
    have hr := ih hr
    rw [TypeExpr.parameterDocuments, readParameters, hr,
      read_option_field keep ht path (by simp), read_text keep "name" name (by simp),
      read_flag keep "optional" optional false (by simp)]
    rfl

theorem read_parameters_field {params : List (Parameter TypeExpr)}
    (h : ∀ t ∈ params.filterMap Parameter.type, IsRead keep t) (path : String)
    (hfields : Json.field? "parameters" fields = Json.field? "parameters"
      (listField keep "parameters" (TypeExpr.parameterDocuments keep params))) :
    readParametersField path fields = .ok params := by
  rw [(selects_parameters path).congr hfields]
  refine read_spare keep ?_ fun hnil => ?_
  · rw [readParametersField, if_pos rfl, read_parameters keep h]
  · cases params with
    | nil => rw [readParametersField]
    | cons => simp [TypeExpr.parameterDocuments] at hnil

theorem read_spans {spans : List (TemplateSpan TypeExpr)}
    (h : ∀ t ∈ spans.map TemplateSpan.type, IsRead keep t) (path : String) :
    readSpans path (TypeExpr.spanDocuments keep spans) = .ok spans := by
  induction spans with
  | nil => rw [TypeExpr.spanDocuments, readSpans]
  | cons span rest ih =>
    obtain ⟨t, after⟩ := span
    obtain ⟨ht, hr⟩ := forall_mem_cons.1 h
    rw [TypeExpr.spanDocuments, readSpans, ih hr, readTypeField, if_pos rfl, ht,
      read_text keep "literal" after (by simp [Json.field?])]
    rfl

theorem read_spans_field {spans : List (TemplateSpan TypeExpr)}
    (h : ∀ t ∈ spans.map TemplateSpan.type, IsRead keep t) (path : String)
    (hfields : Json.field? "spans" fields =
      Json.field? "spans" (listField keep "spans" (TypeExpr.spanDocuments keep spans))) :
    readSpansField path fields = .ok spans := by
  rw [(selects_spans path).congr hfields]
  refine read_spare keep ?_ fun hnil => ?_
  · rw [readSpansField, if_pos rfl, read_spans keep h]
  · cases spans with
    | nil => rw [readSpansField]
    | cons => simp [TypeExpr.spanDocuments] at hnil

theorem keyword_of_word (keyword : Keyword) : Keyword.ofWord? keyword.word = some keyword := by
  cases keyword <;> decide

theorem occurs_in_dot (cs : List Char) : Json.occursIn ['.'] cs = true ↔ '.' ∈ cs := by
  induction cs with
  | nil => simp [Json.occursIn]
  | cons c cs ih => simp [Json.occursIn, ih, List.isPrefixOf]

theorem named_type {text : String} {args : List TypeExpr} (h : args = [] → '.' ∉ text.toList) :
    namedType (.str text) args = .ok (.reference (.str text) args) := by
  have hdot : (Json.occursIn ['.'] text.toList && args.isEmpty) = false := by
    rw [Bool.and_eq_false_iff, isEmpty_eq_false_iff]
    by_cases hnil : args = []
    · exact .inl (Bool.eq_false_iff.2 fun hoccurs => h hnil ((occurs_in_dot _).1 hoccurs))
    · exact .inr hnil
  change (if (Json.occursIn ['.'] text.toList && args.isEmpty) = true then _ else _) = _
  rw [hdot]
  rfl

theorem bind_ok {β : Type} (v : α) (next : α → Except Failure β) :
    (Except.ok v >>= next) = next v := rfl

theorem pure_eq (v : α) : (pure v : Except Failure α) = .ok v := rfl

/-- A type in which everything has a spelling is read back. -/
theorem spellable_read (h : t.IsSpellable) : IsRead keep t := by
  induction h with
  | @intro t ht _ ih =>
    intro path
    cases t with
    | keyword =>
      rw [TypeExpr.document, readType]
      simp [requireField, Json.field?, bind_ok, keywordType, keyword_of_word]
    | reference name args =>
      obtain ⟨text, rfl, hdot⟩ := ht
      have hargs : ∀ t ∈ args, IsRead keep t := ih
      rw [TypeExpr.document, readType]
      simp [requireField, Json.field?, bind_ok, read_types_field keep hargs, named_type hdot]
    | literal v =>
      rw [TypeExpr.document, readType]
      simp [requireField, Json.field?, bind_ok, pure_eq, read_null keep "value" v rfl]
    | enumMember =>
      rw [TypeExpr.document, readType]
      simp [requireField, Json.field?, bind_ok, pure_eq]
    | object ms index =>
      have hms : ∀ t ∈ ms.filterMap Member.type, IsRead keep t :=
        fun t ht => ih t (mem_append_left _ ht)
      have hidx : ∀ t ∈ index.toList.flatMap IndexSignature.types, IsRead keep t :=
        fun t ht => ih t (mem_append_right _ ht)
      rw [TypeExpr.document, readType]
      simp [requireField, Json.field?, bind_ok, pure_eq, read_members_field keep hms,
        read_index_field keep hidx]
    | array t | spread t | paren t =>
      have ht : IsRead keep t := ih t (mem_singleton.2 rfl)
      rw [TypeExpr.document, readType]
      simp [requireField, Json.field?, bind_ok, pure_eq, read_type_field keep ht]
    | named name t optional =>
      have ht : IsRead keep t := ih t (mem_singleton.2 rfl)
      rw [TypeExpr.document, readType]
      simp [requireField, Json.field?, bind_ok, pure_eq, read_type_field keep ht,
        read_flag keep "optional" optional false]
    | tuple types | union types | intersection types =>
      have htypes : ∀ t ∈ types, IsRead keep t := ih
      rw [TypeExpr.document, readType]
      simp [requireField, Json.field?, bind_ok, pure_eq, read_types_field keep htypes]
    | function params result =>
      have hparams : ∀ t ∈ params.filterMap Parameter.type, IsRead keep t :=
        fun t ht => ih t (mem_append_left _ ht)
      have hres : IsRead keep result := ih result (mem_append_right _ (mem_singleton.2 rfl))
      rw [TypeExpr.document, readType]
      simp [requireField, Json.field?, bind_ok, pure_eq, read_parameters_field keep hparams,
        read_type_field keep hres]
    | template head spans =>
      have hspans : ∀ t ∈ spans.map TemplateSpan.type, IsRead keep t := ih
      rw [TypeExpr.document, readType]
      simp [requireField, Json.field?, bind_ok, pure_eq, read_spans_field keep hspans,
        read_text keep "head" head rfl]
    | indexed base index =>
      have hbase : IsRead keep base := ih base mem_cons_self
      have hidx : IsRead keep index := ih index (by simp [TypeExpr.parts])
      rw [TypeExpr.document, readType]
      simp [requireField, Json.field?, bind_ok, pure_eq, read_type_field keep hbase,
        read_type_field keep hidx]
    | unsupported kind text =>
      rcases ht with ⟨rfl, word, rfl, hword⟩ | hkind
      · rw [TypeExpr.document, readType]
        simp [requireField, Json.field?, bind_ok, keywordType, hword]
      · have hword (word : String) (h : word ∈ typeKinds) : kind = .str word → False := hkind word h
        rw [TypeExpr.document, readType]
        · simp only [requireField, Json.field?, if_true, bind_ok]
          split
          all_goals try exact (hword _ (by decide) rfl).elim
          simp [pure_eq, read_text keep "text" text rfl]
        · exact hword "keyword" (by decide)

theorem read_listed (xs : List Json)
    (h : Json.field? key fields = Json.field? key (listField keep key xs)) :
    listed fields key = .ok xs := by
  rw [listed, h]
  rcases field_spare_self keep key xs.isEmpty (.arr xs) with hfield | ⟨hdefault, hfield⟩
  · rw [hfield]
    rfl
  · rw [hfield, List.isEmpty_iff.1 hdefault]

theorem read_all {write : α → Json} {read : Json → Except Failure α} {xs : List α}
    (h : ∀ x ∈ xs, read (write x) = .ok x) : (xs.map write).mapM read = .ok xs := by
  induction xs with
  | nil => rfl
  | cons x rest ih =>
    obtain ⟨hx, hr⟩ := forall_mem_cons.1 h
    rw [map_cons, mapM_cons, hx, ih hr]
    rfl

theorem read_generic_parameter {param : GenericParameter}
    (hbound : ∀ t ∈ param.bound, IsRead keep t) (hdefault : ∀ t ∈ param.default, IsRead keep t)
    (path : String) : readGenericParameter path (param.document keep) = .ok param := by
  rw [GenericParameter.document, readGenericParameter]
  simp [requireField, Json.field?, bind_ok, pure_eq, read_option_field keep hbound,
    read_option_field keep hdefault]

theorem read_heritage {c : Heritage} (h : ∀ t ∈ c.keys, IsRead keep t)
    (path : String) : readHeritage path (c.document keep) = .ok c := by
  obtain ⟨name, proj, keys⟩ := c
  have hproj : readProjection path ((Json.field? "projection" (spare keep "projection"
      proj.isNone ((proj.map fun proj => Json.str proj.typeName).getD
      .null))).getD .null) = .ok proj := by
    rcases field_spare_self keep "projection" proj.isNone ((proj.map fun proj =>
      Json.str proj.typeName).getD .null) with hfield | ⟨hdefault, hfield⟩
    · rw [hfield]
      cases proj with
      | none => rfl
      | some proj => cases proj <;> rfl
    · rw [hfield, Option.isNone_iff_eq_none.1 hdefault]
      rfl
  rw [Heritage.document, readHeritage]
  simp [requireField, Json.field?, bind_ok, pure_eq, hproj, read_option_field keep h]

theorem read_enumerator (m : Enumerator) (path : String) :
    readEnumerator path (m.document keep) = .ok m := by
  obtain ⟨name, initializer⟩ := m
  rw [Enumerator.document, readEnumerator]
  simp [require, requireField, Json.get?, Json.field?, bind_ok, pure_eq,
    read_null keep "initializer" initializer rfl]

/-- A declaration is read back when its types are. -/
theorem read_declaration {decl : Declaration} (h : ∀ t ∈ decl.writtenTypes, IsRead keep t)
    (path : String) : readDeclaration path (decl.document keep) = .ok decl := by
  have hparams {params : List GenericParameter}
      (h : ∀ t ∈ params.flatMap GenericParameter.writtenTypes, IsRead keep t) :
      (params.map (GenericParameter.document keep)).mapM (readGenericParameter path) = .ok params :=
    read_all fun param hparam => by
      have hts (t : TypeExpr) (ht : t ∈ param.writtenTypes) : IsRead keep t :=
        h t (mem_flatMap.2 ⟨param, hparam, ht⟩)
      exact read_generic_parameter keep
        (fun t ht => hts t (mem_append_left _ (Option.mem_toList.2 ht)))
        (fun t ht => hts t (mem_append_right _ (Option.mem_toList.2 ht))) path
  cases decl with
  | interface d =>
    obtain ⟨name, tags, exported, params, heritage, ms, index⟩ := d
    simp only [Declaration.writtenTypes, objectTypes, forall_mem_append] at h
    obtain ⟨⟨hms, hidx⟩, hts, hkeys⟩ := h
    have hher : (heritage.map (Heritage.document keep)).mapM
        (readHeritage (path ++ ".extends")) = .ok heritage :=
      read_all fun c hc => read_heritage keep (fun t ht =>
        hkeys t (mem_filterMap.2 ⟨c, hc, ht⟩)) _
    rw [Declaration.document, readDeclaration]
    simp [requireField, Json.field?, bind_ok, pure_eq, read_tags keep tags,
      read_flag keep "exported" exported true, hparams hts, hher,
      read_listed keep (params.map (GenericParameter.document keep)),
      read_listed keep (heritage.map (Heritage.document keep)),
      read_members_field keep hms, read_index_field keep hidx]
  | typeAlias d =>
    obtain ⟨name, tags, exported, params, t⟩ := d
    obtain ⟨ht, hts⟩ := forall_mem_cons.1 h
    rw [Declaration.document, readDeclaration]
    simp [requireField, Json.field?, bind_ok, pure_eq, read_tags keep tags,
      read_flag keep "exported" exported true, hparams hts,
      read_listed keep (params.map (GenericParameter.document keep)),
      read_type_field keep ht]
  | enumeration d =>
    obtain ⟨name, tags, exported, ms⟩ := d
    have hms : (ms.map (Enumerator.document keep)).mapM
        (readEnumerator (path ++ ".members")) = .ok ms :=
      read_all fun m _ => read_enumerator keep m _
    rw [Declaration.document, readDeclaration]
    simp [requireField, Json.field?, bind_ok, pure_eq, read_tags keep tags,
      read_flag keep "exported" exported true, hms,
      read_listed keep (ms.map (Enumerator.document keep))]

theorem read_declarations {declarations : List Declaration}
    (h : ∀ decl ∈ declarations, ∀ t ∈ decl.writtenTypes, IsRead keep t) (index : Nat) :
    readDeclarations index (declarations.map (Declaration.document keep)) = .ok declarations := by
  induction declarations generalizing index with
  | nil => rfl
  | cons decl rest ih =>
    obtain ⟨hdecl, hr⟩ := forall_mem_cons.1 h
    rw [map_cons, readDeclarations, read_declaration keep hdecl, ih hr]
    rfl

end Document

/-- The document that spells a source unit is loaded as that source unit, whichever fields with
default values are written. An index signature without types is written with the name of its key. -/
theorem document_loads (keep : String → Bool) {unit : SourceUnit} (h : unit.IsSpellable)
    (path : Json) : SourceUnit.ofDocument (unit.document keep) path = .ok unit := by
  have hdeclarations := Document.read_declarations keep (fun declaration hdeclaration type htype =>
    Document.spellable_read keep (h declaration hdeclaration type htype)) 0
  rw [SourceUnit.document, SourceUnit.ofDocument]
  simp [Json.field?, Document.bind_ok, Document.pure_eq, hdeclarations,
    Document.read_listed keep (unit.imports.map Json.str), Json.display, Function.comp_def]

/-- An interface with a parameter, heritage and an index signature, an alias and an enumeration. -/
def inventory : SourceUnit where
  path := .str "src/inventory.ts"
  declarations := [
    .interface {
      name := .str "Stock"
      tags := [("strict", "")]
      exported := false
      parameters := [⟨.str "T", some (.reference (.str "Item") []), some (.literal .null)⟩]
      heritage := [⟨.str "Base", some .omit, some (.union [.literal (.str "id")])⟩]
      members := [⟨"count", some (.keyword .number), true, true, [("minimum", "0")]⟩,
        ⟨"other", none, false, false, []⟩]
      index := some ⟨.str "key", some (.keyword .string), none⟩ },
    .typeAlias {
      name := .str "Listener"
      tags := []
      exported := true
      parameters := []
      type := .function [⟨.str "event", some (.unsupported (.str "conditional") (.str "T")), true⟩]
        (.unsupported (.str "keyword") (.str "symbol")) },
    .enumeration ⟨.str "Color", [], true, [⟨.str "Red", .null⟩, ⟨.str "Blue", .int 7⟩]⟩]
  imports := ["Item"]

/-- A document in which every field with a default value is left out is loaded. -/
theorem inventory_loads : inventory.IsSpellable ∧
    SourceUnit.ofDocument (inventory.document fun _ => false) (.str "") = .ok inventory := by
  have hleaf {type : TypeExpr} (htype : type.HasSpelling) (hparts : type.parts = []) :
      type.IsSpellable := .intro htype (by simp [hparts])
  have hspellable : inventory.IsSpellable := by
    simp only [SourceUnit.IsSpellable, inventory, List.forall_mem_cons]
    refine ⟨?_, ?_, by simp [Declaration.writtenTypes], by simp⟩
    · simp only [Declaration.writtenTypes, objectTypes, IndexSignature.types,
        GenericParameter.writtenTypes,
        List.filterMap_cons, List.filterMap_nil, List.flatMap_cons, List.flatMap_nil, Option.toList,
        List.cons_append, List.nil_append, List.append_nil, List.forall_mem_cons]
      refine ⟨hleaf trivial rfl, hleaf trivial rfl, hleaf ⟨"Item", rfl, fun _ => by decide⟩ rfl,
        hleaf trivial rfl, .intro trivial ?_, by simp⟩
      exact List.forall_mem_singleton.2 (hleaf trivial rfl)
    · refine List.forall_mem_singleton.2 (.intro trivial ?_)
      simp only [TypeExpr.parts, List.filterMap_cons, List.filterMap_nil, List.cons_append,
        List.nil_append, List.forall_mem_cons]
      exact ⟨hleaf (.inr (by simp [typeKinds])) rfl,
        hleaf (.inl ⟨rfl, "symbol", rfl, by decide⟩) rfl, by simp⟩
  exact ⟨hspellable, document_loads _ hspellable _⟩

end Schemata
