import Schemata.Proofs.Correspondence
import Schemata.Proofs.Everywhere
import Schemata.Proofs.Lockstep

/-!
# Recasting types

A `Recasting` changes all types of a program in a way that the rules of compilation do not see: a
type stays of the same kind and is shown by the same text, and a name stands for the declaration
that is recast. It need only do so for the types that stay in a set of names. A type that is recast
leads through bound parameters to a type that is recast, so that compilation gives the same,
`Recasting.compile`, unless the limit on the depth of instantiations stops it.
-/

namespace Schemata

open List

section Names

variable (names : Name → Prop)

/-- The name in a type itself, outside of its parts, is one of a set: the name of a type, or of the
enumeration of a member. -/
def TypeExpr.OwnName : TypeExpr → Prop
  | .reference name _ => names name
  | .enumMember enumName _ => names enumName
  | _ => True

/-- All names that a type mentions are in a set. -/
def TypeExpr.StaysIn (type : TypeExpr) : Prop :=
  type.Everywhere (TypeExpr.OwnName names)

/-- All names that bound types mention are in a set. -/
def Environment.StaysIn (environment : Environment) : Prop :=
  environment.Everywhere (TypeExpr.OwnName names)

/-- All names that a declaration mentions in its body, in the defaults of its parameters and as
interfaces that it extends are in a set. Names in the bounds of parameters and in the keys of a
projection are never looked up. -/
structure Declaration.StaysIn (declaration : Declaration) : Prop where
  types : ∀ type ∈ declaration.types, type.StaysIn names
  heritage : ∀ declared, declaration = .interface declared →
    ∀ clause ∈ declared.heritage, names clause.name

end Names

section All

/-- Every type mentions names only. -/
theorem TypeExpr.stays_in_all (t : TypeExpr) : t.StaysIn fun _ => True := by
  intro inner _
  cases inner <;> trivial

theorem Environment.stays_in_all (env : Environment) : env.StaysIn fun _ => True := by
  refine everywhere_of_bindings fun b hb => ?_
  have hsmaller := size_of_binding hb
  exact ⟨b.type.stays_in_all, stays_in_all b.environment⟩
termination_by sizeOf env

theorem Declaration.stays_in_all (decl : Declaration) : decl.StaysIn fun _ => True :=
  ⟨fun t _ => t.stays_in_all, fun _ _ _ _ => trivial⟩

end All

/-- Two computations give related values or fail in the same way, and tell the same of the events
that are told. Where there is a limit, it may stop the second one. -/
def Keeps {α β : Type} (limited : Prop) (told : Event → Bool) (related : α → β → Prop)
    (first : Compilation α) (second : Compilation β) : Prop :=
  (limited → second.Unstopped) →
    Concurs Eq related first.result second.result ∧
      second.trace.filter told = first.trace.filter told

section Keeps

variable {α β γ δ : Type} {limited : Prop} {told : Event → Bool} {related : α → β → Prop}
  {result : γ → δ → Prop}

theorem keeps_refl (comp : Compilation α) : Keeps limited told Eq comp comp :=
  fun _ => ⟨concurs_refl _, rfl⟩

theorem keeps_bind {a : Compilation α} {b : Compilation β} {next : α → Compilation γ}
    {otherNext : β → Compilation δ} (ha : Keeps limited told related a b)
    (hnext : ∀ v other, a.result = .ok v → b.result = .ok other →
      related v other → Keeps limited told result (next v) (otherNext other)) :
    Keeps limited told result (a >>= next) (b >>= otherNext) := by
  intro hlimited
  obtain ⟨hresults, htold⟩ := ha fun h => (hlimited h).of_bind
  obtain ⟨trace, found⟩ := a
  obtain ⟨otherTrace, otherFound⟩ := b
  dsimp only at hresults htold hnext
  cases hresults with
  | error heq => exact ⟨.error heq, htold⟩
  | ok hrel =>
    obtain ⟨hlast, hr⟩ := hnext _ _ rfl rfl hrel fun h => (hlimited h).after rfl
    refine ⟨hlast, ?_⟩
    rw [Traced.bind_ok, Traced.bind_ok, filter_append, filter_append, htold, hr]

theorem keeps_lift {a : Except Fault α} {b : Except Fault β} (h : Concurs Eq related a b) :
    Keeps limited told related (liftM a) (liftM b) := by
  intro _
  cases h with
  | ok hvalues => exact ⟨.ok hvalues, rfl⟩
  | error heq => exact ⟨.error (congrArg Failure.fault heq), rfl⟩

/-- Where all events are told, the computations are the same. -/
theorem Keeps.eq {a b : Compilation α} (h : Keeps limited (fun _ => true) Eq a b)
    (hlimited : limited → b.Unstopped) : b = a := by
  obtain ⟨hresults, htrace⟩ := h hlimited
  obtain ⟨trace, found⟩ := a
  obtain ⟨otherTrace, otherFound⟩ := b
  dsimp only at hresults htrace
  rw [filter_true, filter_true] at htrace
  cases hresults with
  | ok heq | error heq => rw [htrace, heq]

variable (limited told) in
/-- The comparison of computations that keep what the others give. -/
def keeping : Comparison where
  toResultComparison := sameFaults
  compares := Keeps limited told
  shows := Eq
  compares_pure h _ := ⟨.ok h, rfl⟩
  compares_refl := keeps_refl
  compares_fail _ _ := ⟨.error rfl, rfl⟩
  compares_any _ _ h := h.elim
  compares_access h _ := ⟨.error (by rw [h]), rfl⟩
  compares_note notice h := h ▸ keeps_refl _
  compares_warn warning h := h ▸ keeps_refl _
  compares_lift := keeps_lift
  compares_bind := keeps_bind

end Keeps

section Declarations

variable (type : TypeExpr → TypeExpr) (tags : Tags → Tags → Prop)

/-- The same parameter, with its default recast. -/
structure GenericParameter.Recast (parameter other : GenericParameter) : Prop where
  name : other.name = parameter.name
  default : other.default = parameter.default.map type

/-- The same clause, with its keys recast. -/
structure Heritage.Recast (clause other : Heritage) : Prop where
  name : other.name = clause.name
  projection : other.projection = clause.projection
  keys : other.keys = clause.keys.map type

/-- The same declaration, with all its types recast. -/
inductive Declaration.Recast : Declaration → Declaration → Prop where
  | typeAlias {declared other : Alias} (hname : other.name = declared.name)
      (htags : tags declared.tags other.tags)
      (hparameters : List.Forall₂ (GenericParameter.Recast type) declared.parameters
        other.parameters)
      (htype : other.type = type declared.type) :
      Recast (.typeAlias declared) (.typeAlias other)
  | interface {declared other : Interface} (hname : other.name = declared.name)
      (htags : tags declared.tags other.tags)
      (hparameters : List.Forall₂ (GenericParameter.Recast type) declared.parameters
        other.parameters)
      (hheritage : List.Forall₂ (Heritage.Recast type) declared.heritage other.heritage)
      (hbody : .object other.members other.index = type (.object declared.members declared.index)) :
      Recast (.interface declared) (.interface other)
  | enumeration {declared other : Enumeration} (hname : other.name = declared.name)
      (hmembers : other.members = declared.members) :
      Recast (.enumeration declared) (.enumeration other)

/-- A declaration is recast as itself when types stay as they are. -/
theorem Declaration.Recast.refl (decl : Declaration) : Declaration.Recast id Eq decl decl := by
  have hparams (params : List GenericParameter) :
      Forall₂ (GenericParameter.Recast id) params params :=
    forall₂_same.2 fun _ _ => ⟨rfl, (Option.map_id_apply).symm⟩
  cases decl with
  | typeAlias => exact .typeAlias rfl rfl (hparams _) rfl
  | interface =>
    exact .interface rfl rfl (hparams _)
      (forall₂_same.2 fun _ _ => ⟨rfl, rfl, (Option.map_id_apply).symm⟩) rfl
  | enumeration => exact .enumeration rfl rfl

theorem found_refl (result : Except Fault (Option Declaration)) :
    Concurs Eq (Option.Rel (Declaration.Recast id Eq)) result result := by
  refine (concurs_refl result).imp fun found _ _ _ heq => ?_
  exact heq ▸ rel_refl fun decl _ => .refl decl

/-- A type is of the same kind as itself. -/
theorem TypeExpr.same_kind_refl {types : TypeExpr → TypeExpr → Prop} (t : TypeExpr)
    (h : ∀ part, part.In t → types part part) : t.SameKind types Eq t := by
  have hself (t : TypeExpr) : t.mapParts id id = t := map_parts_same fun _ _ => rfl
  have hkind : t.SameKind types Eq (t.mapParts id id) :=
    same_kind_map (fun _ => rfl) (fun elt _ => (hself elt).symm) (fun _ helt => helt)
      (fun part hpart => h part (.inr (.part hpart)))
      fun part hpart inner hi => h inner (.inr (.deeper (.part hi) hpart))
  rwa [hself] at hkind

end Declarations

/-- A change of the types of a program that compilation does not see, if the types stay in a set of
names. -/
structure Recasting (program : Program) (version : Version) extends Environment.Mapping where
  names : Name → Prop
  tags : Tags → Tags → Prop
  /-- Whether the limit on the depth of instantiations may stop the other program. -/
  limited : Prop
  /-- The events that stay the same. -/
  told : Event → Bool
  kind : ∀ {types : TypeExpr → TypeExpr → Prop} (written : TypeExpr),
    (∀ part, part.In written → types part (type part)) → written.SameKind types tags (type written)
  reference : ∀ name arguments, type (.reference name arguments) =
    .reference name (arguments.map type)
  text : ∀ written, (type written).text = written.text
  tags_eq : ∀ {before after : Tags}, tags before after →
    (program.under version).tags after = program.tags before
  shown : levels = 0 ∨ ∀ notice, told (.notice notice) = false
  checked : ∀ name outer, Keeps limited told Eq (program.checkDepth name outer)
    ((program.under version).checkDepth name (environment outer))
  closed : ∀ name, names name → ∀ declaration, program.find name = .ok (some declaration) →
    declaration.StaysIn names
  found : ∀ name, names name → Concurs Eq (Option.Rel (Declaration.Recast type tags))
    (program.find name) ((program.under version).find name)

namespace Recasting

/-- The recasting that leaves types and environments as they are. -/
def same {program : Program} {version : Version} (names : Name → Prop) (limited : Prop)
    (tags_eq : ∀ {before after : Tags}, before = after →
      (program.under version).tags after = program.tags before)
    (checked : ∀ name outer, Keeps limited (fun _ => true) Eq (program.checkDepth name outer)
      ((program.under version).checkDepth name outer))
    (closed : ∀ name, names name → ∀ declaration, program.find name = .ok (some declaration) →
      declaration.StaysIn names)
    (found : ∀ name, names name → Concurs Eq (Option.Rel (Declaration.Recast id Eq))
      (program.find name) ((program.under version).find name)) : Recasting program version where
  type := id
  environment := id
  levels := 0
  bindings outer := outer.bindings.map_id.symm
  depth _ := rfl
  names := names
  tags := Eq
  limited := limited
  told _ := true
  kind := TypeExpr.same_kind_refl
  reference name arguments := by rw [List.map_id, id]
  text _ := rfl
  tags_eq := tags_eq
  shown := .inl rfl
  checked := checked
  closed := closed
  found := found

variable {program : Program} {version : Version} (recasting : Recasting program version)

/-- A type that stays in the names, and the type that it is recast as, in their environments. -/
structure Related (written other : TypeExpr × Environment) : Prop where
  type : other.1 = recasting.type written.1
  environment : other.2 = recasting.environment written.2
  stays : written.1.StaysIn recasting.names
  bound : written.2.StaysIn recasting.names

section Types

theorem same_kind (written : TypeExpr) :
    written.SameKind (fun part other => other = recasting.type part) recasting.tags
      (recasting.type written) := recasting.kind written fun _ _ => rfl

theorem unwrap_eq (written : TypeExpr) :
    (recasting.type written).unwrap = recasting.type written.unwrap := by
  fun_induction TypeExpr.unwrap written with
  | case1 inner ih =>
    have hkind := recasting.same_kind (.paren inner)
    generalize recasting.type (.paren inner) = other at hkind
    cases hkind with
    | paren heq =>
      rw [heq]
      exact ih
  | case2 written hparen =>
    have hkind := recasting.same_kind written
    generalize recasting.type written = other at hkind
    cases hkind with
    | paren _ => exact (hparen _ rfl).elim
    | _ => rfl

theorem null_eq (written : TypeExpr) : (recasting.type written).isNull = written.isNull := by
  have hkind := recasting.same_kind written.unwrap
  rw [TypeExpr.isNull, TypeExpr.isNull, recasting.unwrap_eq]
  generalize recasting.type written.unwrap = other at hkind
  generalize written.unwrap = written at hkind
  cases hkind <;> rfl

variable {recasting} {a b : Environment} {t other : TypeExpr}

theorem Related.leads (h : recasting.Related (t, a) (other, b)) :
    LeadTogether recasting.Related recasting.tags (t, a) (other, b) := by
  obtain ⟨ht, henv, hstays, hbound⟩ := h
  dsimp only at ht henv hstays hbound
  subst ht henv
  refine ⟨⟨rfl, rfl, hstays, hbound⟩, ?_, fun name args otherName others hn hother => ?_⟩
  · refine recasting.kind t fun part hpart => ⟨rfl, rfl, ?_, hbound⟩
    rcases hpart with rfl | hpart
    · exact hstays
    · exact hstays.within hpart
  · dsimp only at hn hother
    rw [hn, recasting.reference] at hother
    cases hother
    rfl

theorem Related.unwrap (h : recasting.Related (t, a) (other, b)) :
    recasting.Related (t.unwrap, a) (other.unwrap, b) := by
  refine ⟨?_, h.environment, h.stays.unwrap, h.bound⟩
  obtain rfl : other = recasting.type t := h.type
  exact recasting.unwrap_eq t

variable (recasting) in
/-- A type that is recast leads to what the type leads to, recast. -/
theorem resolve_eq (outer : Environment) (t : TypeExpr) :
    (recasting.environment outer).resolve (recasting.type t) =
      (outer.resolve t).map fun found =>
        (recasting.type found.1, recasting.environment found.2) := by
  by_cases hn : ∃ name, t = .reference name []
  · obtain ⟨name, rfl⟩ := hn
    rw [recasting.reference, map_nil, Environment.resolve_name, Environment.resolve_name]
    cases name.key with
    | error => rfl
    | ok key =>
      dsimp only [bind, Except.bind]
      rw [recasting.binding_eq]
      cases hb : outer.binding? key with
      | none =>
        refine congrArg Except.ok (Prod.ext ?_ rfl)
        exact (recasting.reference name []).symm
      | some b =>
        have hsmaller := Environment.size_of_binding (mem_of_find?_eq_some hb)
        have hi := resolve_eq b.environment b.type.unwrap
        rw [← recasting.unwrap_eq] at hi
        exact hi
  · rw [Environment.resolve_of_ne fun name heq => hn ⟨name, heq⟩]
    refine Environment.resolve_of_ne fun name heq => hn ⟨name, ?_⟩
    have hkind := recasting.same_kind t
    rw [heq] at hkind
    cases hkind with
    | @reference written _ args _ _ hargs =>
      cases hargs
      have hwritten := recasting.reference written []
      rw [heq] at hwritten
      cases hwritten
      rfl
termination_by sizeOf outer

theorem Related.resolves (h : recasting.Related (t, a) (other, b)) :
    Concurs Eq recasting.Related (a.resolve t) (b.resolve other) := by
  obtain ⟨ht, henv, hstays, hbound⟩ := h
  dsimp only at ht henv hstays hbound
  subst ht henv
  rw [recasting.resolve_eq]
  cases hf : a.resolve t with
  | error => exact .error rfl
  | ok =>
    obtain ⟨hfoundStays, hi⟩ := hbound.resolve hstays hf
    exact .ok ⟨rfl, rfl, hfoundStays, hi⟩

end Types

/-- What is done with types that are recast is kept. -/
def likeness : Likeness program version where
  toComparison := keeping recasting.limited recasting.told
  relates := recasting.Related
  tags := recasting.tags
  tags_eq := recasting.tags_eq
  any {_ _ _ _} h := by
    refine ⟨?_, h.environment, TypeExpr.everywhere_of_leaf rfl trivial, h.bound⟩
    have hkind := recasting.same_kind (.keyword .any)
    generalize recasting.type (.keyword .any) = other at hkind
    cases hkind
    rfl
  text {type other _ _} h := by
    obtain rfl : other = recasting.type type := h.type
    rw [recasting.text]
    exact concurs_refl _
  null {type other _ _} h := by
    obtain rfl : other = recasting.type type := h.type
    exact recasting.null_eq type
  resolves h := by
    have hresults := h.unwrap.resolves
    generalize Environment.resolve _ _ = result at hresults
    generalize Environment.resolve _ _ = otherResult at hresults
    cases hresults with
    | error heq =>
      cases heq
      exact .error _
    | ok hrelated => exact .ok hrelated.leads

section Lookup

variable {a b : Environment} {type other : TypeExpr}

/-- Types as they are written, recast. -/
def wording : Wording where
  types type other := other = recasting.type type
  tags := recasting.tags
  unwrap h := h ▸ recasting.unwrap_eq _
  kind h := by
    rw [h, recasting.unwrap_eq]
    exact recasting.same_kind _

/-- Types as they are written in the names, recast. -/
def staying : Wording where
  types type other := other = recasting.type type ∧ type.StaysIn recasting.names
  tags := recasting.tags
  unwrap h := ⟨h.1 ▸ recasting.unwrap_eq _, h.2.unwrap⟩
  kind {type _} h := by
    rw [h.1, recasting.unwrap_eq]
    refine recasting.kind type.unwrap fun part hpart => ⟨rfl, ?_⟩
    rcases hpart with rfl | hpart
    · exact h.2.unwrap
    · exact h.2.unwrap.within hpart

variable {recasting}

theorem heritage_alike {heritage others : List Heritage}
    (h : Forall₂ (Heritage.Recast recasting.type) heritage others)
    (hnames : ∀ c ∈ heritage, recasting.names c.name) :
    Forall₂ (Heritage.Alike recasting.staying.types) heritage others := by
  refine forall₂_iff_zip.2 ⟨h.length_eq, fun {c other} hpair => ?_⟩
  have hc := forall₂_zip h hpair
  refine ⟨hc.name, hc.projection, fun proj =>
    recasting.wording.projection_keys ?_, (recasting.reference c.name []).symm,
    TypeExpr.everywhere_of_leaf rfl (hnames c (of_mem_zip hpair).1)⟩
  rw [hc.keys]
  exact rel_map fun _ _ => rfl

theorem body_stays {d : Interface} (h : (Declaration.interface d).StaysIn recasting.names) :
    (TypeExpr.object d.members d.index).StaysIn recasting.names :=
  TypeExpr.everywhere_iff.2 ⟨trivial, fun part hpart =>
    h.types part (mem_append_left _ hpart)⟩

theorem alias_stays {d : Alias} (h : (Declaration.typeAlias d).StaysIn recasting.names) :
    d.type.StaysIn recasting.names := h.types _ (mem_append_left _ (mem_singleton.2 rfl))

/-- Declarations that are recast are alike. -/
theorem alike_of_recast {decl other : Declaration}
    (h : Declaration.Recast recasting.type recasting.tags decl other)
    (hstays : decl.StaysIn recasting.names) :
    decl.Alike recasting.staying.types recasting.tags other := by
  cases h with
  | enumeration hn hms => exact .enumeration hn hms
  | typeAlias _ _ hparams ht =>
    exact .typeAlias ⟨ht, alias_stays hstays⟩ (is_empty_related hparams)
  | @interface d other _ _ _ hher hbody =>
    have hkind := recasting.staying.kind ⟨hbody, body_stays hstays⟩
    dsimp only [TypeExpr.unwrap] at hkind
    cases hkind with
    | object hms =>
      exact .interface hms (heritage_alike hher (hstays.heritage d rfl))

/-- What is declared under a name is recast. -/
theorem declared {name otherName : Name} {args others : List TypeExpr}
    (h : recasting.staying.types (.reference name args) (.reference otherName others)) :
    recasting.staying.Declared program (program.under version) name otherName := by
  obtain ⟨ht, hstays⟩ := h
  rw [recasting.reference] at ht
  cases ht
  have hn : recasting.names name := hstays.here
  refine ⟨rfl, fun nameKey hk => ?_⟩
  have hf := recasting.found name hn
  have hclosed := recasting.closed name hn
  rw [Program.find_of_key _ hk] at hf hclosed
  rw [Program.find_of_key _ hk] at hf
  generalize program.declaration? nameKey = found at hf hclosed
  generalize (program.under version).declaration? nameKey = otherFound at hf
  cases hf with
  | ok hrel =>
    refine rel_imp hrel fun _ hf _ _ hrecast => ?_
    exact alike_of_recast hrecast (hclosed _ (congrArg Except.ok hf))

variable (recasting) in
/-- What is looked up at the root of an access is recast. The programs may differ in the number of
their declarations, but both searches take as many steps as they need. -/
def search : recasting.likeness.Search where
  written := recasting.staying.types
  members {type other} key h := by
    have hsteps (some : Program) (steps : Nat) (container : TypeExpr)
        (hle : some.unit.declarations.length ≤ steps) :
        some.memberType (.some container) key =
          some.memberTypeWithin key (steps + 1) [] container := by
      have hunseen : some.unseen [] ≤ some.unit.declarations.length := List.countP_le_length
      exact some.member_type_within_eq key (by omega) (by omega) container
    rw [hsteps program _ type (Nat.le_max_left _ version.unit.declarations.length),
      hsteps (program.under version) _ other
        (Nat.le_max_right program.unit.declarations.length _)]
    exact recasting.staying.member_type_within (keeping recasting.limited recasting.told)
      (fun hname => .inl (declared hname)) _ [] h
  elements {type other} h := by
    have hkind := recasting.same_kind type.unwrap
    rw [Program.elementSegment, Program.elementSegment, Option.map_some, Option.map_some, h.1,
      recasting.unwrap_eq]
    generalize type.unwrap = written at hkind
    cases written with
    | reference name arguments =>
      rw [recasting.reference]
      rfl
    | _ =>
      generalize recasting.type _ = other at hkind
      cases hkind
      rfl
  roots {name _ _ _ _} h := by
    have hname : recasting.names name := h.stays.here
    refine keeps_bind (keeps_lift (recasting.found name hname)) fun found other hfound _ hrel => ?_
    have hclosed := recasting.closed name hname
    rw [Traced.lift_ok_iff.1 hfound] at hclosed
    cases hrel with
    | none => exact (keeping _ _).compares_pure .none
    | some hrecast =>
      cases alike_of_recast hrecast (hclosed _ rfl) with
      | typeAlias htype _ => exact (keeping _ _).compares_pure (.some htype)
      | _ => exact (keeping _ _).compares_pure .none

/-- Types that are recast are seen alike. -/
theorem Related.ends (h : recasting.Related (type, a) (other, b)) :
    recasting.likeness.Ends (type, a) (other, b) := ⟨h.unwrap, h.unwrap.leads.kind⟩

theorem Related.sees (h : recasting.Related (type, a) (other, b)) :
    recasting.likeness.Sees a b type other := h.resolves.imp fun _ _ _ _ hrel => hrel.ends

theorem related_empty (h : type.StaysIn recasting.names) :
    recasting.Related (type, .empty) (recasting.type type, recasting.environment .empty) :=
  ⟨rfl, rfl, h, Environment.no_bindings_everywhere 0⟩

end Lookup

section Templates

variable {recasting} {a b : Environment} {t other : TypeExpr}

theorem harvest_unbound (depth : Nat) (arms : List TypeExpr) :
    Program.harvestUnion (.mk depth []) arms = Program.harvestUnion .empty arms := by
  induction arms with
  | nil => rfl
  | cons arm rest ih =>
    rw [Program.harvestUnion, Program.harvestUnion, Environment.substitute_unbound, ih]

/-- A name stands for the same texts. -/
theorem harvest_named {name : Name} (hn : recasting.names name) :
    Keeps recasting.limited recasting.told Eq (program.harvestNamed name)
      ((program.under version).harvestNamed name) := by
  refine keeps_bind (keeps_lift (recasting.found name hn)) fun found other hf _ hrel => ?_
  have hclosed := recasting.closed name hn
  rw [Traced.lift_ok_iff.1 hf] at hclosed
  have hunknown : Keeps recasting.limited recasting.told Eq
      (do Compilation.warn (.unknownSpan name); return (none : Option Values))
      (do Compilation.warn (.unknownSpan name); return none) := keeps_refl _
  cases hrel with
  | none => exact hunknown
  | some hrecast =>
    have hstays := hclosed _ rfl
    cases hrecast with
    | enumeration hn hms =>
      dsimp only
      rw [hn, hms]
      exact keeps_refl _
    | interface => exact hunknown
    | @typeAlias d other _ _ hparams ht =>
      have hrelated := (related_empty (alias_stays hstays)).unwrap
      rw [← ht] at hrelated
      obtain ⟨_, _, _, params, t⟩ := d
      obtain ⟨_, _, _, otherParameters, otherType⟩ := other
      cases hparams with
      | cons => exact hunknown
      | nil =>
        have hkind := hrelated.leads.kind
        dsimp only at hkind ⊢
        generalize t.unwrap = t at hkind
        generalize otherType.unwrap = otherType at hkind
        cases hkind with
        | literal v => cases v <;> exact keeps_refl _
        | union harms =>
          have hvalues := recasting.likeness.harvest_union (harms.imp fun _ _ => Related.sees)
          rw [recasting.empty_eq, harvest_unbound] at hvalues
          exact recasting.likeness.compares_then (keeps_lift hvalues) fun _ _ => keeps_refl _
        | _ => exact hunknown

theorem enumerator_text {enumName : Name} (hn : recasting.names enumName) (memberName : Name) :
    Concurs Eq Eq (program.enumeratorText? enumName memberName)
      ((program.under version).enumeratorText? enumName memberName) := by
  refine concurs_bind (recasting.found enumName hn) fun found other hrel => ?_
  cases hrel with
  | none => exact .ok rfl
  | some hrecast =>
    cases hrecast with
    | enumeration _ hms =>
      dsimp only
      rw [hms]
      exact concurs_refl _
    | _ => exact .ok rfl

variable (recasting) in
theorem clear : recasting.likeness.Clear where
  leads h := by
    refine h.resolves.imp ?_
    rintro ⟨found, inner⟩ ⟨reached, otherInner⟩ - - hf
    refine ⟨hf.ends, fun name otherName hn hother => ?_, hf.leads.kind⟩
    have hun := hf.unwrap
    rw [hun.leads.name name [] otherName [] hn hother]
    have hstays := hun.stays
    dsimp only at hn hstays
    rw [hn] at hstays
    exact harvest_named hstays.here

end Templates

section References

variable {recasting} {first : Environment} {name : Name} {args : List TypeExpr}

/-- Interfaces that are recast have the same parts. -/
theorem interfaces_of_recast {d other : Interface}
    (h : Declaration.Recast recasting.type recasting.tags (.interface d) (.interface other))
    (hstays : (Declaration.interface d).StaysIn recasting.names)
    (ha : first.StaysIn recasting.names) :
    recasting.likeness.Interfaces first (recasting.environment first) d other := by
  cases h with
  | interface hn htags _ hher hbody =>
    have hrel : recasting.Related (.object d.members d.index, first)
        (.object other.members other.index, recasting.environment first) :=
      ⟨hbody, rfl, body_stays hstays, ha⟩
    have hkind := hrel.leads.kind
    dsimp only at hkind
    cases hkind with
    | object hms hidx =>
      exact ⟨htags, hms, hidx, is_empty_related hher, extension_chain_alike rfl
        (heritage_alike hher (hstays.heritage d rfl)), recasting.likeness.any hrel⟩

theorem bound_rel (ha : first.StaysIn recasting.names) (key : Key) :
    Environment.BoundAlike recasting.Related first (recasting.environment first) key key := by
  rw [Environment.BoundAlike, recasting.binding_eq]
  refine rel_map fun b hb => ?_
  obtain ⟨ht, henv⟩ := ha.binding (mem_of_find?_eq_some hb)
  exact ⟨rfl, rfl, ht, henv⟩

theorem reserved_of_recast {d other : Interface}
    (h : Declaration.Recast recasting.type recasting.tags (.interface d) (.interface other))
    (hstays : (Declaration.interface d).StaysIn recasting.names)
    (ha : first.StaysIn recasting.names) :
    recasting.likeness.Reserved first (recasting.environment first) d other := by
  have hbody (name : Name) := interfaces_of_recast h hstays (ha.without name)
  cases h with
  | interface _ _ hparams _ _ =>
    refine recasting.likeness.reserved_of_parameters hparams
      fun {param otherParameter} hone hother hparam => ?_
    refine .switched hone hother hparam.name (recasting.likeness.switch_type hparam.name
      (fun key _ => rel_imp (bound_rel ha key) fun _ _ _ _ hbound => hbound.sees)
      fun _ _ _ => ?_) fun _ _ => ?_
    · rw [hparam.default]
      refine rel_map fun default hdefault => Related.sees ⟨rfl, rfl, hstays.types default ?_, ha⟩
      refine mem_append_right _ (mem_filterMap.2 ⟨param, ?_, hdefault⟩)
      rw [Declaration.parameters, hone]
      exact mem_singleton.2 rfl
    · rw [recasting.without_eq]
      exact hbody param.name

/-- Parameters are bound to types that are recast. -/
theorem bind_types_of_recast {params others : List GenericParameter}
    (h : Forall₂ (GenericParameter.Recast recasting.type) params others)
    (caller inner : Environment) (args : List TypeExpr) :
    Program.bindTypes (recasting.environment caller) others (args.map recasting.type)
        (recasting.environment inner) =
      (Program.bindTypes caller params args inner).map recasting.environment := by
  induction h generalizing args inner with
  | nil => cases args <;> rfl
  | @cons param other rest others hparam hr ih =>
    cases args with
    | cons arg args =>
      rw [map_cons, Program.bindTypes, Program.bindTypes, hparam.name, recasting.bind_eq]
      cases inner.bind param.name arg caller with
      | error => rfl
      | ok bound => exact ih bound args
    | nil =>
      have hn := hparam.name
      have hdefault := hparam.default
      obtain ⟨name, limit, default⟩ := param
      obtain ⟨otherName, otherLimit, otherDefault⟩ := other
      dsimp only at hn hdefault
      subst hn hdefault
      cases default with
      | none => exact ih inner []
      | some default =>
        rw [map_nil, Option.map_some, Program.bindTypes, Program.bindTypes, recasting.bind_eq]
        cases inner.bind otherName default inner with
        | error => rfl
        | ok bound => exact ih bound []

/-- A declaration that is recast is entered in an environment that is recast. -/
theorem instantiation_of_recast {decl other : Declaration}
    (hparams : Forall₂ (GenericParameter.Recast recasting.type) decl.parameters other.parameters)
    (h : recasting.Related (.reference name args, first)
      (.reference name (args.map recasting.type), recasting.environment first))
    (hstays : decl.StaysIn recasting.names) :
    recasting.likeness.compares
      (fun inner otherInner => otherInner = recasting.environment inner ∧
        inner.StaysIn recasting.names)
      (Program.instantiation decl.parameters name args first)
      (Program.instantiation other.parameters name (args.map recasting.type)
        (recasting.environment first)) := by
  refine recasting.likeness.compares_mono (recasting.likeness.instantiates h ?_
    fun {inner otherInner text otherText} hi hshows => ?_)
    fun inner otherInner hres _ hi => ⟨hi, ?_⟩
  · rw [recasting.enter_eq, bind_types_of_recast hparams]
    cases Program.bindTypes first decl.parameters args first.enter with
    | error => exact .error rfl
    | ok => exact .ok rfl
  · -- The depth is shown where an instantiation is logged.
    cases hshows
    rcases recasting.shown with hlevels | hquiet
    · have hdepth : otherInner.depth = inner.depth := by
        rw [hi, recasting.depth, hlevels, Nat.add_zero]
      have hnames : otherInner.names = inner.names := by
        rw [hi, Environment.names, Environment.names, recasting.bindings, map_map]
        rfl
      have hdisplay : otherInner.display = inner.display := by
        unfold Environment.display
        rw [hdepth, hnames]
      rw [hdisplay]
      exact keeps_refl _
    · refine fun _ => ⟨.ok rfl, ?_⟩
      simp [Compilation.note, Traced.emit, hquiet]
  · exact Program.entered_everywhere h.bound (fun arg harg => h.stays.part harg)
      (fun t ht => hstays.types t (mem_append_right _ ht))
      (Program.entered_of_instantiation hres)

/-- References that are recast are used in the same way. -/
theorem referring (h : recasting.Related (.reference name args, first)
      (.reference name (args.map recasting.type), recasting.environment first)) :
    recasting.likeness.Referring name name args (args.map recasting.type) first
      (recasting.environment first) where
  related := h
  types := by
    rw [forall₂_map_right_iff, forall₂_same]
    exact fun arg harg => ⟨rfl, rfl, h.stays.part harg, h.bound⟩
  bound := (concurs_refl _).imp fun key _ _ _ heq => heq ▸ ⟨bound_rel h.bound key, fun _ => rfl⟩
  found _ := by
    have hn : recasting.names name := h.stays.here
    refine (recasting.found name hn).found fun hf hrecast => ?_
    have hstays := recasting.closed name hn _ hf
    cases hrecast with
    | enumeration _ _ => exact .enumeration _ _
    | @typeAlias d other hn _ hparams ht =>
      have hi := @instantiation_of_recast _ _ _ _ _ _ (.typeAlias d)
        (.typeAlias other) hparams h hstays
      exact .typeAlias hn (is_empty_related hparams) fun _ =>
        recasting.likeness.compares_mono hi fun _ _ _ _ hi =>
          ⟨ht, hi.1, alias_stays hstays, hi.2⟩
    | @interface d other hn htags hparams hher hbody =>
      have hrecast : Declaration.Recast recasting.type recasting.tags (.interface d)
          (.interface other) := .interface hn htags hparams hher hbody
      have hi := @instantiation_of_recast _ _ _ _ _ _ (.interface d)
        (.interface other) hparams h hstays
      refine .interface hn (is_empty_related hparams) (fun _ => ?_) fun _ => ?_
      · refine recasting.likeness.compares_mono hi fun inner _ _ _ hi => ?_
        rw [hi.1]
        split
        · exact reserved_of_recast hrecast hstays hi.2
        · exact interfaces_of_recast hrecast hstays hi.2
      · rw [recasting.enter_eq]
        exact reserved_of_recast hrecast hstays (Environment.no_bindings_everywhere _)
  depth d := recasting.checked d first
  anyKey _ _ key hk other hother := by
    rw [head?_map, hk] at hother
    cases hother
    exact recasting.clear.any_key ⟨rfl, rfl, h.stays.part (mem_of_mem_head? hk), h.bound⟩

end References

section Compile

/-- Types that are recast have plans that are recast. -/
theorem plans {t other : TypeExpr} {a b : Environment} {ctx : Context}
    (h : recasting.Related (t, a) (other, b)) :
    recasting.likeness.compares recasting.likeness.Plans (program.plan ⟨t, a, ctx⟩)
      ((program.under version).plan ⟨other, b, ctx⟩) := by
  refine recasting.likeness.plan_of_types fun inner _ => ?_
  refine recasting.likeness.type_plan h h.leads.kind (recasting.clear.looks h h.leads.kind
    (fun _ _ ⟨_, _, hm⟩ => enumerator_text hm.stays.here _) (fun ht hother => ?_)
    fun {name args otherName others} ht hother => ?_)
  · subst ht hother
    exact recasting.search.access h fun _ _ hleads => ⟨hleads.related.type, hleads.related.stays⟩
  · subst ht
    obtain ⟨heq, henv, hstays, hbound⟩ := h
    dsimp only at heq henv hstays hbound
    subst henv
    rw [recasting.reference, hother] at heq
    cases heq
    refine recasting.likeness.use (referring ⟨?_, rfl, hstays, hbound⟩)
    exact (recasting.reference _ _).symm

/-- What a job is compiled to is kept when it is recast. -/
theorem compile {job other : Job} (h : recasting.likeness.Jobs job other) :
    Keeps recasting.limited recasting.told Eq (program.compile job)
      ((program.under version).compile other) := by
  refine recasting.likeness.compile_of_plans (fun _ _ => True) (fun _ _ _ _ => trivial)
    (fun {job other} h _ => .inr ?_) h trivial
  obtain ⟨t, a, ctx⟩ := job
  obtain ⟨otherType, b, otherContext⟩ := other
  obtain ⟨hts, hctx⟩ := h
  dsimp only at hts hctx
  subst hctx
  exact recasting.plans hts

/-- What a declaration is compiled to is kept when it is recast, if depths stay as they are. -/
theorem declaration_schema {decl other : Declaration} (hlevels : recasting.levels = 0)
    (h : Declaration.Recast recasting.type recasting.tags decl other)
    (hstays : decl.StaysIn recasting.names) :
    Keeps recasting.limited recasting.told Eq (program.declarationSchema decl)
      ((program.under version).declarationSchema other) := by
  have hempty : recasting.environment .empty = .empty := by
    rw [recasting.empty_eq, hlevels]
    rfl
  have hstaysEmpty : Environment.empty.StaysIn recasting.names :=
    Environment.no_bindings_everywhere 0
  refine recasting.likeness.declaration_schema ?_ recasting.compile
  cases h with
  | enumeration hn => exact .enumeration hn
  | typeAlias hn htags hparams ht =>
    exact .typeAlias (is_empty_related hparams) htags fun _ =>
      ⟨ht, hempty.symm, alias_stays hstays, hstaysEmpty⟩
  | @interface d other hn htags hparams hher hbody =>
    have hrecast : Declaration.Recast recasting.type recasting.tags (.interface d)
        (.interface other) := .interface hn htags hparams hher hbody
    have hinterfaces := interfaces_of_recast hrecast hstays hstaysEmpty
    have hreserved := reserved_of_recast hrecast hstays hstaysEmpty
    rw [hempty] at hinterfaces hreserved
    exact .interface hn (is_empty_related hparams) (fun _ => hinterfaces) fun _ => hreserved

end Compile

end Recasting

end Schemata
