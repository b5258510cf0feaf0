import Schemata.Proofs.Comparison
import Schemata.Proofs.Mentions

/-!
# Likeness of types in their environments

A `Likeness` compares what two programs do with types that are related in their environments. Such
types, without their parentheses, lead through bound parameters to related types of the same kind.
From that the rules of compilation that look through bound parameters agree: the keys of projections
and records, the arms of unions, the spans of templates, the elements of arrays, and the path of an
indexed access. Some rules follow parameters before they take parentheses off; they agree on types
that are seen alike, `Likeness.Sees`.
-/

namespace Schemata

open List
open Traced (lift_bind lift_lift)

/-- What a program may differ in from another one that it is compared with: its source unit, and the
settings that say whether tags are skipped and how deep instantiations may be nested. -/
structure Version where
  unit : SourceUnit
  skip : Json
  limit : Json

namespace Program

/-- Another version of a program. -/
def under (program : Program) (version : Version) : Program where
  unit := version.unit
  settings :=
    { program.settings with skipAnnotations := version.skip, depthLimit := version.limit }

/-- The program of another source unit under the same settings. -/
def withUnit (program : Program) (unit : SourceUnit) : Program :=
  { program with unit := unit }

/-- The version of a program with another source unit. -/
def version (program : Program) (unit : SourceUnit) : Version :=
  ⟨unit, program.settings.skipAnnotations, program.settings.depthLimit⟩

theorem version_tags (program : Program) (unit : SourceUnit) {before after : Tags}
    (h : before = after) :
    (program.under (program.version unit)).tags after = program.tags before := by
  rw [h]
  rfl

theorem version_unit_tags (program : Program) {before after : Tags} (h : before = after) :
    (program.under (program.version program.unit)).tags after = program.tags before :=
  program.version_tags program.unit h

end Program

/-- Types that bound parameters lead to, which are related and of the same kind. -/
structure LeadTogether (relates : TypeExpr × Environment → TypeExpr × Environment → Prop)
    (tags : Tags → Tags → Prop) (found reached : TypeExpr × Environment) : Prop where
  related : relates found reached
  kind : found.1.SameKind (fun part other => relates (part, found.2) (other, reached.2)) tags
    reached.1
  name : found.1.SameName reached.1

/-- A way to compare what two versions of a program do with related types. -/
structure Likeness (program : Program) (version : Version) extends Comparison where
  /-- Types that are related in their environments. -/
  relates : TypeExpr × Environment → TypeExpr × Environment → Prop
  /-- Tags that are read as the same. -/
  tags : Tags → Tags → Prop
  tags_eq : ∀ {before after : Tags}, tags before after →
    (program.under version).tags after = program.tags before
  any : ∀ {type other first second}, relates (type, first) (other, second) →
    relates (.keyword .any, first) (.keyword .any, second)
  text : ∀ {type other first second}, relates (type, first) (other, second) →
    agrees shows type.text other.text
  null : ∀ {type other first second}, relates (type, first) (other, second) →
    other.isNull = type.isNull
  resolves : ∀ {type other first second}, relates (type, first) (other, second) →
    Follows forgives (LeadTogether relates tags) (first.resolve type.unwrap)
      (second.resolve other.unwrap)

namespace Likeness

variable {program : Program} {version : Version} (like : Likeness program version)
  {first second : Environment} {type other : TypeExpr}

/-- Types that are related in two given environments. -/
def At (first second : Environment) (type other : TypeExpr) : Prop :=
  like.relates (type, first) (other, second)

theorem warned {α : Type} (h : like.At first second type other) (warning : Json → Warning)
    (next : Compilation α) :
    like.compares Eq (do Compilation.warn (warning (← type.text)); next)
      (do Compilation.warn (warning (← other.text)); next) :=
  like.compares_warned (like.text h) warning next

section Keys

variable {others keys : Option TypeExpr}

/-- Related types, without their parentheses, lead to related types of the same kind. -/
theorem resolves_some (h : like.At first second type other) :
    like.agrees (fun found reached => ∃ inner otherInner,
        found.2 = some inner ∧ reached.2 = some otherInner ∧
        LeadTogether like.relates like.tags (found.1, inner) (reached.1, otherInner))
      (Environment.resolve? (some first) type.unwrap)
      (Environment.resolve? (some second) other.unwrap) := by
  refine like.agrees_bind (like.agrees_of_follows (like.resolves h)) fun found reached hf => ?_
  exact like.agrees_ok ⟨found.2, reached.2, rfl, rfl, hf⟩

/-- Indices take the same. -/
theorem index_key (h : like.At first second type other) :
    like.agrees Eq (IndexKey.ofType (some first) type) (IndexKey.ofType (some second) other) := by
  refine like.agrees_bind (like.resolves_some h) ?_
  rintro ⟨found, _⟩ ⟨reached, _⟩ ⟨inner, otherInner, rfl, rfl, hf⟩
  have htext : like.agrees Eq (do let _ ← found.text; return IndexKey.unsupported)
      (do let _ ← reached.text; return IndexKey.unsupported) :=
    like.agrees_bind (like.text hf.related) fun _ _ _ => like.agrees_ok rfl
  have hkind := hf.kind
  dsimp only at hkind ⊢
  cases hkind with
  | keyword | literal => exact like.agrees_refl _
  | _ => exact htext

variable {proj : String}

/-- The keys that some arms stand for. -/
theorem literal_keys {arms others : List TypeExpr}
    (h : Forall₂ (like.At first second) arms others) :
    like.compares Eq (liftM (Program.literalKeys proj (some first) arms))
      (liftM (Program.literalKeys proj (some second) others)) := by
  induction h with
  | nil => exact like.compares_refl _
  | cons harm hr ih =>
    rw [Program.literalKeys, Program.literalKeys, lift_bind, lift_bind, lift_lift, lift_lift]
    refine like.compares_bind (like.compares_lift (like.resolves_some harm)) ?_
    rintro ⟨found, _⟩ ⟨reached, _⟩ - - ⟨inner, otherInner, rfl, rfl, hf⟩
    have hkind := hf.kind
    dsimp only at hkind ⊢
    cases hkind with
    | literal v =>
      cases v with
      | str =>
        dsimp only
        rw [lift_bind, lift_bind]
        exact like.compares_then ih fun _ _ => like.compares_refl _
      | _ => exact like.compares_fail _
    | _ => exact like.compares_fail _

/-- Projections have the same keys. -/
theorem projection_keys (h : Option.Rel (like.At first second) keys others) :
    like.compares Eq (liftM (Program.projectionKeys proj keys (some first)))
      (liftM (Program.projectionKeys proj others (some second))) := by
  cases h with
  | none => exact like.compares_fail _
  | some hk =>
    rw [Program.projectionKeys, Program.projectionKeys, lift_bind, lift_bind, lift_lift, lift_lift]
    refine like.compares_bind (like.compares_lift (like.resolves_some hk)) ?_
    rintro ⟨found, _⟩ ⟨reached, _⟩ - - ⟨inner, otherInner, rfl, rfl, hf⟩
    have hone := @literal_keys _ _ like _ _ proj _ _ (.cons hf.related .nil)
    have hkind := hf.kind
    dsimp only at hkind ⊢
    cases hkind with
    | union harms => exact like.literal_keys harms
    | _ => exact hone

theorem project {target : Schema} (h : Option.Rel (like.At first second) keys others) :
    like.compares Eq (liftM (Program.project target proj keys (some first)))
      (liftM (Program.project target proj others (some second))) := by
  rw [Program.project, Program.project, lift_bind, lift_bind]
  exact like.compares_then (like.projection_keys h) fun _ _ => like.compares_refl _

end Keys

/-- Types that bound parameters lead to, which are related and of the same kind inside of their
parentheses. -/
structure Ends (found reached : TypeExpr × Environment) : Prop where
  related : like.At found.2 reached.2 found.1.unwrap reached.1.unwrap
  kind : found.1.unwrap.SameKind (like.At found.2 reached.2) like.tags reached.1.unwrap

/-- Types that lead to related types, with their parentheses on. -/
def Sees (first second : Environment) (type other : TypeExpr) : Prop :=
  like.agrees like.Ends (first.resolve type) (second.resolve other)

/-- The types that two types lead to through bound parameters. -/
def SeesType (found reached : TypeExpr) : Prop :=
  ∃ inner otherInner, like.Ends (found, inner) (reached, otherInner)

section Seen

theorem substitutes (h : like.Sees first second type other) :
    like.agrees like.SeesType (first.substitute type) (second.substitute other) :=
  like.agrees_bind h fun found reached hends => like.agrees_ok ⟨found.2, reached.2, hends⟩

/-- Types of the same kind inside of their parentheses. -/
def Switches (found reached : TypeExpr) : Prop :=
  ∃ types, found.unwrap.SameKind types like.tags reached.unwrap

/-- Reserved interfaces are switched by types of the same kind, if what is bound to their parameters
or else stands for them by default is seen alike. -/
theorem switch_type {param otherParameter : GenericParameter}
    (hn : otherParameter.name = param.name)
    (hbound : ∀ key, param.name.key = .ok key → Option.Rel (fun b other =>
      like.Sees b.environment other.environment b.type other.type)
      (first.binding? key) (second.binding? key))
    (hdefault : ∀ key, param.name.key = .ok key → first.binding? key = none →
      Option.Rel (like.Sees first second) param.default otherParameter.default) :
    like.agrees like.Switches (Program.switchType param first)
      (Program.switchType otherParameter second) := by
  have hswitches {first second : Environment} {type other : TypeExpr}
      (h : like.Sees first second type other) :
      like.agrees like.Switches (first.substitute type) (second.substitute other) :=
    like.agrees_mono (like.substitutes h) fun _ _ ⟨_, _, hends⟩ => ⟨_, hends.kind⟩
  unfold Program.switchType Environment.lookup
  rw [hn]
  cases hk : param.name.key with
  | error reason => exact like.agrees_error reason
  | ok key =>
    have hrel := hbound key hk
    have hdefault := hdefault key hk
    dsimp only [bind, Except.bind, pure, Except.pure]
    generalize first.binding? key = b at hrel hdefault
    generalize second.binding? key = otherBinding at hrel
    cases hrel with
    | some hseen => exact hswitches hseen
    | none =>
      have hdefault := hdefault rfl
      dsimp only
      generalize param.default = default at hdefault
      generalize otherParameter.default = otherDefault at hdefault
      cases hdefault with
      | some hseen => exact hswitches hseen
      | none => exact like.agrees_ok ⟨Eq, .literal _⟩

/-- A reserved interface is switched off together if types of the same kind switch it. -/
theorem off_context {param otherParameter : GenericParameter}
    (h : like.agrees like.Switches (Program.switchType param first)
      (Program.switchType otherParameter second)) :
    like.agrees Eq (Program.offContext program param first)
      (Program.offContext (program.under version) otherParameter second) := by
  refine like.agrees_bind h ?_
  rintro found reached ⟨types, hkind⟩
  generalize found.unwrap = found at hkind
  generalize reached.unwrap = reached at hkind
  cases hkind <;> exact like.agrees_refl _

/-- The elements of arrays that are seen alike are related. -/
theorem element_type (h : like.Sees first second type other) :
    like.agrees (Option.Rel like.relates) (Program.elementType first type)
      (Program.elementType second other) := by
  refine like.agrees_bind h fun found reached hends => like.agrees_ok ?_
  obtain ⟨found, inner⟩ := found
  obtain ⟨reached, otherInner⟩ := reached
  have hkind := hends.kind
  unfold Program.elementOf?
  dsimp only at hkind ⊢
  generalize found.unwrap = found at hkind
  generalize reached.unwrap = reached at hkind
  cases hkind with
  | array helt => exact .some helt
  | reference hn hargs =>
    cases hargs with
    | nil => exact .none
    | cons harg =>
      rw [hn (cons_ne_nil _ _)]
      dsimp only
      split
      · exact .some harg
      · exact .none
  | _ => exact .none

variable {arms others : List TypeExpr}

/-- Unions have the same literal arms. -/
theorem harvest_union (h : Forall₂ (like.Sees first second) arms others) :
    like.agrees Eq (Program.harvestUnion first arms) (Program.harvestUnion second others) := by
  induction h with
  | nil => exact like.agrees_refl _
  | cons harm hr ih =>
    refine like.agrees_bind (like.substitutes harm) ?_
    rintro found reached ⟨inner, otherInner, hends⟩
    refine like.agrees_bind ih fun later _ heq => ?_
    subst heq
    have hkind := hends.kind
    dsimp only at hkind
    generalize found.unwrap = found at hkind
    generalize reached.unwrap = reached at hkind
    cases hkind <;> exact like.agrees_refl _

/-- The arms of unions are told apart in the same way. -/
theorem discriminated {field : String} (h : Forall₂ (like.Sees first second) arms others) :
    like.compares Eq (Program.discriminated first field arms)
      (Program.discriminated second field others) := by
  induction h with
  | nil => exact like.compares_refl _
  | cons harm hr ih =>
    refine like.compares_bind (like.compares_lift (like.substitutes harm)) ?_
    rintro found reached - - ⟨inner, otherInner, hends⟩
    have hrel := hends.related
    have hkind := hends.kind
    dsimp only at hrel hkind ⊢
    generalize found.unwrap = found at hrel hkind
    generalize reached.unwrap = reached at hrel hkind
    cases hkind with
    | reference => exact ih
    | @object ms others index otherIndex hms =>
      have hm := find_member_alike hms (.str field)
      dsimp only
      generalize findMember? ms (.str field) = m at hm
      generalize findMember? others (.str field) = otherMember at hm
      cases hm with
      | none => exact like.warned hrel (.armWithoutField · field) _
      | some => exact ih
    | _ => exact like.warned hrel .armNotAnObject _

/-- Names, inside of parentheses, that stand for the same texts. -/
def Harvested (type other : TypeExpr) : Prop :=
  ∀ name otherName, type.unwrap = .reference name [] → other.unwrap = .reference otherName [] →
    like.compares Eq (program.harvestNamed name) ((program.under version).harvestNamed otherName)

/-- Types of spans that are seen alike. So are the arms of the unions that they lead to. -/
def SeesSpan (first second : Environment) (type other : TypeExpr) : Prop :=
  like.agrees (fun found reached => like.Ends found reached ∧ like.Harvested found.1 reached.1 ∧
      ∀ arms others, found.1.unwrap = .union arms → reached.1.unwrap = .union others →
        List.Forall₂ (like.Sees found.2 reached.2) arms others)
    (first.resolve type) (second.resolve other)

/-- Members of enumerations, as far as they are related to themselves, stand for the same texts. -/
def SameEnumerators : Prop :=
  ∀ enumName memberName, (∃ inner otherInner, like.At inner otherInner
    (.enumMember enumName memberName) (.enumMember enumName memberName)) →
      like.agrees Eq (program.enumeratorText? enumName memberName)
        ((program.under version).enumeratorText? enumName memberName)

/-- Spans stand for the same texts if members of enumerations do. -/
theorem harvest (hm : like.SameEnumerators) (h : like.SeesSpan first second type other) :
    like.compares Eq (program.harvest first type)
      ((program.under version).harvest second other) := by
  refine like.compares_bind (like.compares_lift h) ?_
  rintro ⟨found, inner⟩ ⟨reached, otherInner⟩ - - ⟨⟨hrel, hkind⟩, hnamed, harmsSeen⟩
  unfold Harvested at hnamed
  dsimp only at hrel hkind hnamed harmsSeen ⊢
  generalize found.unwrap = found at hrel hkind hnamed harmsSeen
  generalize reached.unwrap = reached at hrel hkind hnamed harmsSeen
  cases hkind with
  | reference _ hargs =>
    cases hargs with
    | nil => exact hnamed _ _ rfl rfl
    | cons => exact like.warned hrel .unsupportedSpan _
  | union =>
    refine like.compares_then (like.compares_lift (like.harvest_union (harmsSeen _ _ rfl rfl)))
      fun values _ => ?_
    exact like.compares_refl _
  | literal => exact like.compares_refl _
  | enumMember =>
    refine like.compares_then (like.compares_lift (hm _ _ ⟨_, _, hrel⟩)) fun text _ => ?_
    exact like.compares_refl _
  | _ => exact like.warned hrel .unsupportedSpan _

/-- Templates stand for the same texts if their spans do. -/
theorem expand {head : Json} {spans others : List (TemplateSpan TypeExpr)}
    (htemplate : like.At first second (.template head spans) (.template head others))
    (h : Forall₂ (fun span other => other.literal = span.literal ∧
      like.compares Eq (program.harvest first span.type)
        ((program.under version).harvest second other.type)) spans others) :
    like.compares Eq (program.expand first head spans)
      ((program.under version).expand second head others) := by
  have hspans : like.compares Eq (program.harvestSpans first spans)
      ((program.under version).harvestSpans second others) := by
    clear htemplate
    induction h with
    | nil => exact like.compares_refl _
    | cons hspan hr ih =>
      rw [Program.harvestSpans, Program.harvestSpans, hspan.1]
      refine like.compares_then hspan.2 fun values _ => ?_
      exact like.compares_then ih fun others _ => like.compares_refl _
  refine like.compares_then hspans fun harvested _ => ?_
  cases harvested with
  | none => exact like.compares_refl _
  | some =>
    dsimp only
    split
    · exact like.warned htemplate .emptyTemplate _
    · exact like.compares_refl _

end Seen

section Chains

variable {like} {written : TypeExpr → TypeExpr → Prop} {chain otherChain : Chain}

/-- Chains whose indices take the same, of related roots. -/
inductive Chains (like : Likeness program version) (written : TypeExpr → TypeExpr → Prop) :
    Chain → Chain → Prop where
  | broken (reason : Fault) : Chains like written (.broken reason) (.broken reason)
  | forgiven {reason other} (h : like.forgives) : Chains like written (.broken reason) other
  | root {inner otherInner type other}
      (h : LeadTogether like.relates like.tags (type, inner) (other, otherInner))
      (hwritten : written type other) : Chains like written (.root type) (.root other)
  | index {inner otherInner access otherAccess key otherKey object otherObject}
      (h : like.At inner otherInner access otherAccess) (hkey : like.agrees Eq key otherKey)
      (hobject : Chains like written object otherObject) :
      Chains like written (.index access key object) (.index otherAccess otherKey otherObject)

/-- Related types have related chains if their roots are written alike. -/
theorem chains (h : like.At first second type other)
    (hroot : ∀ {found reached inner otherInner}, found ∈ (first.chain type).root? →
      found.unwrap = found →
      LeadTogether like.relates like.tags (found, inner) (reached, otherInner) →
        written found reached) :
    like.Chains written (first.chain type) (second.chain other) := by
  -- The base of an index is smaller than the type that leads to the index.
  induction htask : (type, first) using Environment.smaller_well_founded.induction generalizing
      type other first second with
  | h task ih =>
    subst htask
    have hresults := like.resolves h
    rw [first.chain_eq] at hroot
    rw [first.chain_eq, second.chain_eq]
    generalize hf : first.resolve type.unwrap = result at hresults hroot
    generalize second.resolve other.unwrap = otherResult at hresults
    cases hresults with
    | error => exact .broken _
    | any hforgives => exact .forgiven hforgives
    | @ok found reached hleads =>
      obtain ⟨found, inner⟩ := found
      obtain ⟨reached, otherInner⟩ := reached
      have hkind := hleads.kind
      have hun := (Environment.resolve_end hf).1
      dsimp only at hkind hroot ⊢
      cases hkind with
      | indexed hbase hidx =>
        refine .index hleads.related (like.index_key hidx) ?_
        exact ih _ (Environment.smaller_of_index hf) hbase hroot rfl
      | _ => exact .root hleads (hroot rfl hun hleads)

end Chains

/-- What is looked up for types as they are written, at the root of an indexed access. -/
structure Search where
  /-- Types as they are written, which have members and elements in the same places. -/
  written : TypeExpr → TypeExpr → Prop
  members : ∀ {type other : TypeExpr} (key : Json), written type other →
    like.compares (Option.Rel written) (program.memberType (some type) key)
      ((program.under version).memberType (some other) key)
  elements : ∀ {type other : TypeExpr}, written type other →
    (program.under version).elementSegment (some other) = program.elementSegment (some type)
  roots : ∀ {name arguments others inner otherInner},
    like.relates (.reference name arguments, inner) (.reference name others, otherInner) →
      like.compares (Option.Rel written) (program.chainType (.root (.reference name arguments)))
        ((program.under version).chainType (.root (.reference name others)))

namespace Search

variable {like} {search : like.Search} {chain otherChain : Chain}

theorem member_type {container other : Option TypeExpr} (key : Json)
    (h : Option.Rel search.written container other) :
    like.compares (Option.Rel search.written) (program.memberType container key)
      ((program.under version).memberType other key) := by
  cases h with
  | none => exact like.compares_pure .none
  | some hwritten => exact search.members key hwritten

section Chains

variable (h : like.Chains search.written chain otherChain)

include h

/-- Chains that are related denote declared types that are written alike. -/
theorem chain_type :
    like.compares (Option.Rel search.written) (program.chainType chain)
      ((program.under version).chainType otherChain) := by
  induction h with
  | broken => exact like.compares_fail _
  | forgiven hforgives => exact like.compares_any _ _ hforgives
  | root hleads =>
    have hrelated := hleads.related
    have hkind := hleads.kind
    have hn := hleads.name
    dsimp only at hkind hn
    cases hkind with
    | reference _ =>
      cases hn _ _ _ _ rfl rfl
      exact search.roots hrelated
    | _ => exact like.compares_pure .none
  | index haccess hk hobj ih =>
    refine like.compares_then (like.compares_lift hk) fun taken _ => ?_
    cases taken with
    | property name =>
      have hi := like.compares_bind ih fun container other _ _ hrel =>
        member_type (.str name) hrel
      cases hobj with
      | root hleads hwritten => exact search.members _ hwritten
      | index | broken => exact hi
      | forgiven hforgives => exact like.compares_any _ _ hforgives
    | _ => exact like.compares_pure .none

theorem check_object :
    like.compares Eq (Program.checkObject chain) (Program.checkObject otherChain) := by
  cases h with
  | broken => exact like.compares_fail _
  | forgiven hforgives => exact like.compares_any _ _ hforgives
  | root hleads =>
    have hrel := hleads.related
    have hkind := hleads.kind
    dsimp only at hkind
    cases hkind with
    | reference _ => exact like.compares_refl _
    | _ => exact like.compares_rejected (like.text hrel)
  | index => exact like.compares_refl _

theorem segment {access otherAccess : TypeExpr} (haccess : like.At first second access otherAccess)
    (taken : IndexKey) :
    like.compares Eq (program.segment access taken chain)
      ((program.under version).segment otherAccess taken otherChain) := by
  cases taken with
  | property | position => exact like.compares_refl _
  | unsupported => exact like.warned haccess .unsupportedIndex _
  | element =>
    refine like.compares_bind (chain_type h) fun type other _ _ hrel => ?_
    have hsegment : (program.under version).elementSegment other = program.elementSegment type := by
      cases hrel with
      | none => rfl
      | some hwritten => exact search.elements hwritten
    rw [hsegment]
    refine like.compares_then (like.compares_refl _) fun segment _ => ?_
    cases segment with
    | none => exact like.warned haccess .unresolvedAccess _
    | some => exact like.compares_refl _

/-- Accesses have the same path. -/
theorem access_chain (later : List String) :
    like.compares Eq (program.accessChain chain later)
      ((program.under version).accessChain otherChain later) := by
  induction h generalizing later with
  | broken => exact like.compares_fail _
  | forgiven hforgives => exact like.compares_any _ _ hforgives
  | root hleads => exact like.compares_rejected (like.text hleads.related)
  | index haccess hk hobj ih =>
    refine like.compares_then (like.compares_lift hk) fun taken _ => ?_
    refine like.compares_then (check_object hobj) fun _ _ => ?_
    refine like.compares_then (segment hobj haccess taken) fun segment _ => ?_
    cases segment with
    | none => exact like.compares_refl _
    | some =>
      cases hobj with
      | forgiven hforgives => exact like.compares_any _ _ hforgives
      | root hleads =>
        have hkind := hleads.kind
        have hn := hleads.name
        dsimp only at hkind hn
        cases hkind with
        | reference _ =>
          cases hn _ _ _ _ rfl rfl
          exact like.compares_refl _
        | _ => exact ih _
      | index | broken => exact ih _

end Chains

/-- Types that are related have paths that are compared, if their roots are written alike. -/
theorem access (search : like.Search) (h : like.At first second type other)
    (hroot : ∀ {found reached inner otherInner}, found ∈ (first.chain type).root? →
      found.unwrap = found →
      LeadTogether like.relates like.tags (found, inner) (reached, otherInner) →
        search.written found reached) :
    like.compares Eq (program.accessChain (first.chain type) [])
      ((program.under version).accessChain (second.chain other) []) :=
  access_chain (chains h hroot) []

end Search

end Likeness

end Schemata
