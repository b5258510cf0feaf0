import Schemata.Proofs.Parentheses
import Schemata.Proofs.RenamedLookup

/-!
# Lookups but for parentheses

What the compiler looks up is compared here at types of the same bare form, in source units of the
same bare form, `coinciding`. The keys of a projection, the type of a member and the path of an
indexed access are the same, since parentheses are taken off before parameters are followed. The
texts of a template and the fields that tell the arms of a union apart are the same where both types
are concealed or neither is: there parameters are followed first.
-/

namespace Schemata

open List

/-- Types that are the same but for parentheses. They are well-typed unless it is excused. -/
structure CoincideTyped (excused : Prop) (first second : TypeExpr × Environment) : Prop where
  coincide : Coincide first second
  typed : TypedUnless excused first.1 first.2

section Coinciding

variable {excused : Prop} {type other : TypeExpr} {first second : Environment}

theorem CoincideTyped.leads (h : CoincideTyped excused (type, first) (other, second))
    (hform : TypeExpr.SameForm type other) :
    LeadTogether (CoincideTyped excused) Eq (type, first) (other, second) where
  related := h
  kind := by
    have henv : second.bare = first.bare := h.coincide.environment
    exact hform.same_kind (fun _ hpart _ hbare => ⟨⟨hbare, henv⟩, h.typed.part hpart⟩)
      fun _ hpart _ hi _ hbare => ⟨⟨hbare, henv⟩, (h.typed.part hpart).part hi⟩
  name name args otherName others ht hother := by
    dsimp only at ht hother
    subst ht hother
    cases hform
    rfl

theorem CoincideTyped.unwrap (h : CoincideTyped excused (type, first) (other, second)) :
    LeadTogether (CoincideTyped excused) Eq (type.unwrap, first) (other.unwrap, second) :=
  CoincideTyped.leads ⟨h.coincide.unwrap, h.typed.unwrap⟩ h.coincide.form

/-- What is done with types that are the same but for parentheses accords. -/
def coinciding (excused : Prop) (program : Program) (unit : SourceUnit) :
    Likeness program (program.version unit) where
  compares := Accords excused
  agrees := Conforms excused
  shows _ _ := True
  forgives := False
  compares_pure := accords_pure
  compares_refl := accords_refl
  compares_fail := accords_same_fail
  compares_any _ _ h := h.elim
  compares_access _ := .inl (corresponds_fail (.access _ _))
  compares_note _ _ := .inl (corresponds_note _ _)
  compares_warn _ _ := .inl (corresponds_warn _ _)
  compares_lift := accords_lift
  compares_bind := accords_bind
  agrees_ok := conforms_ok
  agrees_error _ := .inl (.error rfl)
  agrees_any _ _ h := h.elim
  agrees_bind h hnext := conforms_bind h fun value other _ _ => hnext value other
  relates := CoincideTyped excused
  tags := Eq
  tags_eq := @Program.version_tags program unit
  any h := ⟨⟨rfl, h.coincide.environment⟩, fun hexcused =>
    ⟨TypeExpr.any_well_typed, (h.typed hexcused).2⟩⟩
  text h := (h.typed.shown h.coincide.type).text_conforms
  null {type other _ _} h := by
    have hform := h.coincide.form
    unfold TypeExpr.isNull
    generalize type.unwrap = type at hform
    generalize other.unwrap = other at hform
    cases hform <;> rfl
  resolves {type other first second} h := by
    have hresults := Environment.resolve_unwrap_concurs h.coincide
    generalize hfound : first.resolve type.unwrap = result at hresults
    generalize second.resolve other.unwrap = otherResult at hresults
    cases hresults with
    | error heq =>
      cases heq
      exact .error _
    | ok hrelated =>
      exact .ok (CoincideTyped.leads ⟨hrelated.1, h.typed.unwrap.resolved hfound⟩ hrelated.2)

variable {p : Program} {unit : SourceUnit}

/-- Types that coincide are seen alike where both are concealed or neither is. -/
theorem CoincideTyped.sees (h : CoincideTyped excused (type, first) (other, second))
    (hcon : second.conceals other = first.conceals type) :
    (coinciding excused p unit).Sees first second type other := by
  refine (Environment.resolve_conforms h.coincide hcon h.typed).imp
    fun found reached hf _ hcoincide => ?_
  have hun := CoincideTyped.unwrap ⟨hcoincide, h.typed.resolved hf⟩
  exact ⟨hun.related, hun.kind⟩

theorem sees_all {types others : List TypeExpr}
    (h : Forall₂ (fun type other => CoincideTyped excused (type, first) (other, second))
      types others)
    (hcon : others.map second.conceals = types.map first.conceals) :
    Forall₂ ((coinciding excused p unit).Sees first second) types others := by
  induction h with
  | nil => exact .nil
  | cons ht hr ih =>
    obtain ⟨ha, hcon⟩ := List.cons.inj hcon
    exact .cons (ht.sees ha) (ih hcon)

end Coinciding

namespace Program

section Finding

variable {p : Program} {unit : SourceUnit}

/-- A key has declarations of the same bare form. -/
theorem declarations_coincide (h : unit.bare = p.unit.bare) (key : Key) :
    Option.Rel Declaration.SameForm (p.declaration? key) ((p.withUnit unit).declaration? key) := by
  have hfind (declarations : List Declaration) :
      (declarations.map Declaration.bare).find? (fun found => found.name.key? = some key) =
        (declarations.find? fun found => found.name.key? = some key).map Declaration.bare := by
    refine (find?_map ..).trans ?_
    simp only [Function.comp_def, Declaration.name_bare]
  have hdeclarations : unit.declarations.map Declaration.bare =
      p.unit.declarations.map Declaration.bare :=
    (congrArg SourceUnit.declarations h :)
  have hmap : ((p.withUnit unit).declaration? key).map Declaration.bare =
      (p.declaration? key).map Declaration.bare := by
    unfold declaration?
    rw [← hfind, ← hfind]
    exact congrArg (List.find? _) hdeclarations
  exact rel_imp (rel_of_map_eq hmap) fun _ _ _ _ => Declaration.same_form

/-- A name has declarations of the same bare form. -/
theorem find_concurs (h : unit.bare = p.unit.bare) (name : Name) :
    Concurs Eq (Option.Rel Declaration.SameForm) (p.find name) ((p.withUnit unit).find name) :=
  concurs_bind (concurs_refl _) fun key _ heq => heq ▸ .ok (declarations_coincide h key)

theorem count_declarations (h : unit.bare = p.unit.bare) :
    unit.declarations.length = p.unit.declarations.length :=
  length_of_map_eq (congrArg SourceUnit.declarations h)

end Finding

/-- Which of the types are concealed that the type of a span is read by: the type itself, and the
arms of a union that it leads to. -/
def spanConcealed (environment : Environment) (type : TypeExpr) : List Bool :=
  environment.conceals type ::
    match environment.resolve type with
    | .error _ => []
    | .ok (found, inner) =>
      match found.unwrap with
      | .union arms => arms.map inner.conceals
      | _ => []

section Templates

variable {excused : Prop} {p : Program} {unit : SourceUnit} {t other : TypeExpr}
  {a b : Environment}

/-- Where nothing is bound, nothing is concealed. -/
theorem conceals_of_unbound {env : Environment} (h : env.bindings = [])
    (t : TypeExpr) : env.conceals t = false := by
  unfold Environment.conceals
  cases t.unwrap with
  | reference name args =>
    cases args with
    | nil =>
      have hunbound : name.key?.bind env.binding? = none := by
        unfold Environment.binding?
        rw [h]
        cases name.key? <;> rfl
      dsimp only
      rw [hunbound, Option.isSome_none, Bool.and_false]
    | cons => exact Bool.and_false _
  | _ => exact Bool.and_false _

/-- A name stands for the same texts. -/
theorem harvest_named_accords (h : unit.bare = p.unit.bare) (hunit : ¬excused → p.unit.WellTyped)
    (name : Name) :
    Accords excused Eq (p.harvestNamed name) ((p.withUnit unit).harvestNamed name) := by
  refine accords_bind (accords_lift (.inl (find_concurs h name))) fun found other hf _ hrel => ?_
  have hf := Traced.lift_ok_iff.1 hf
  have hunknown : Accords excused Eq
      (do Compilation.warn (.unknownSpan name); return (none : Option Values))
      (do Compilation.warn (.unknownSpan name); return none) := accords_refl _
  cases hrel with
  | none => exact hunknown
  | some hform =>
    cases hform with
    | enumeration => exact accords_refl _
    | interface => exact hunknown
    | @typeAlias d other hbare =>
      have ht : other.type.bare = d.type.bare := (congrArg Alias.type hbare :)
      have hparams : other.parameters.map GenericParameter.bare =
          d.parameters.map GenericParameter.bare :=
        (congrArg Alias.parameters hbare :)
      have hts : CoincideTyped excused (d.type, .empty) (other.type, .empty) :=
        ⟨⟨ht, rfl⟩, fun hexc => ⟨(hunit hexc _ (mem_of_find hf)).body _
          (mem_singleton.2 rfl), Environment.no_bindings_well_typed 0⟩⟩
      obtain ⟨_, _, _, params, t⟩ := d
      obtain ⟨_, _, _, otherParameters, otherType⟩ := other
      cases forall₂_of_map_eq hparams with
      | cons => exact hunknown
      | nil =>
        have hkind := hts.unwrap.kind
        dsimp only at hkind ⊢
        generalize t.unwrap = t at hkind
        generalize otherType.unwrap = otherType at hkind
        cases hkind with
        | literal v => cases v <;> exact accords_refl _
        | union harms =>
          refine (coinciding excused p unit).compares_then (accords_lift
            ((coinciding excused p unit).harvest_union (sees_all harms ?_)))
            fun values _ => accords_refl _
          have hshown : Environment.empty.conceals = fun _ => false :=
            funext (conceals_of_unbound rfl)
          rw [hshown, map_const', map_const', harms.length_eq]
        | _ => exact hunknown

theorem enumerator_text_concurs (h : unit.bare = p.unit.bare) (enumName memberName : Name) :
    Concurs Eq Eq (p.enumeratorText? enumName memberName)
      ((p.withUnit unit).enumeratorText? enumName memberName) := by
  refine concurs_bind (find_concurs h enumName) fun found other hrel => ?_
  cases hrel with
  | none => exact .ok rfl
  | some hform => cases hform <;> exact .ok rfl

/-- Types of spans are seen alike where the same types are concealed. -/
theorem sees_span (h : unit.bare = p.unit.bare) (hunit : ¬excused → p.unit.WellTyped)
    (ht : CoincideTyped excused (t, a) (other, b))
    (hcon : spanConcealed b other = spanConcealed a t) :
    (coinciding excused p unit).SeesSpan a b t other := by
  obtain ⟨hhead, harmsConcealed⟩ := List.cons.inj hcon
  refine (Environment.resolve_conforms ht.coincide hhead ht.typed).imp ?_
  rintro ⟨found, inner⟩ ⟨reached, otherInner⟩ hf hreached hcoincide
  rw [hf, hreached] at harmsConcealed
  have hleads := CoincideTyped.unwrap ⟨hcoincide, ht.typed.resolved hf⟩
  refine ⟨⟨hleads.related, hleads.kind⟩, fun name otherName hn hother => ?_,
    fun arms others harms hothers => ?_⟩
  · rw [hleads.name name [] otherName [] hn hother]
    exact harvest_named_accords h hunit name
  · have hkind := hleads.kind
    dsimp only at harms hothers harmsConcealed hkind
    rw [harms, hothers] at harmsConcealed hkind
    cases hkind with
    | union harms => exact sees_all harms harmsConcealed

theorem sees_spans (h : unit.bare = p.unit.bare) (hunit : ¬excused → p.unit.WellTyped)
    {spans others : List (TemplateSpan TypeExpr)}
    (hspans : Forall₂ (fun span other => other.literal = span.literal ∧
      CoincideTyped excused (span.type, a) (other.type, b)) spans others)
    (hcon : (others.map fun span => spanConcealed b span.type) =
      spans.map fun span => spanConcealed a span.type) :
    Forall₂ (fun span other => other.literal = span.literal ∧
      (coinciding excused p unit).SeesSpan a b span.type other.type) spans
      others := by
  induction hspans with
  | nil => exact .nil
  | cons hspan hr ih =>
    obtain ⟨ha, hcon⟩ := List.cons.inj hcon
    exact .cons ⟨hspan.1, sees_span h hunit hspan.2 ha⟩ (ih hcon)

end Templates

section Access

variable {excused : Prop} {p : Program} {unit : SourceUnit}

/-- Types as they are written, but for parentheses. -/
def respacing : Wording where
  types := TypeExpr.SameBare
  tags := Eq
  unwrap {type other} h := by
    unfold TypeExpr.SameBare at h ⊢
    rw [TypeExpr.bare_unwrap, TypeExpr.bare_unwrap, h]
  kind h := (TypeExpr.same_form h).same_kind (fun _ _ _ => id) fun _ _ _ _ _ => id

theorem heritage_alike {heritage others : List Heritage}
    (h : others.map Heritage.bare = heritage.map Heritage.bare) :
    Forall₂ (Heritage.Alike TypeExpr.SameBare) heritage others :=
  (forall₂_of_map_eq h).imp fun _ _ hc => ⟨(congrArg Heritage.name hc :),
    (congrArg Heritage.projection hc :), fun _ =>
      respacing.projection_keys (rel_of_map_eq (congrArg Heritage.keys hc)), rfl⟩

/-- Declarations of the same bare form are alike. -/
theorem alike_of_form {decl other : Declaration} (h : Declaration.SameForm decl other) :
    decl.Alike TypeExpr.SameBare Eq other := by
  cases h with
  | enumeration => exact .enumeration rfl rfl
  | typeAlias h =>
    exact .typeAlias (congrArg Alias.type h :) (is_empty_of_map_eq (congrArg Alias.parameters h))
  | @interface d other h =>
    have hms : other.members.map Member.bare = d.members.map Member.bare :=
      (congrArg Interface.members h :)
    refine .interface ((forall₂_of_map_eq hms).imp fun m other hm => ?_)
      (heritage_alike (congrArg Interface.heritage h :))
    exact ⟨(congrArg Member.name hm :), (congrArg Member.optional hm :),
      (congrArg Member.tags hm.symm :), rel_of_map_eq (congrArg Member.type hm)⟩

/-- The members of types of the same bare form have types of the same bare form. -/
theorem member_type_accords (h : unit.bare = p.unit.bare) (key : Json)
    {container other : TypeExpr} (hcontainer : TypeExpr.SameBare container other) :
    Accords excused (Option.Rel TypeExpr.SameBare) (p.memberType (some container) key)
      ((p.withUnit unit).memberType (some other) key) := by
  have hlen : (p.withUnit unit).unit.declarations.length =
      p.unit.declarations.length := count_declarations h
  rw [memberType, memberType, hlen]
  refine respacing.member_type_within (coinciding excused p unit).toComparison
    (fun hnames => .inl ?_) _ [] hcontainer
  have hform := TypeExpr.same_form hnames
  dsimp only [TypeExpr.unwrap] at hform
  cases hform with
  | reference =>
    exact ⟨rfl, fun nameKey _ => rel_imp (declarations_coincide h nameKey) fun _ _ _ _ =>
      alike_of_form⟩

/-- What is looked up at the root of an access is the same but for parentheses. -/
def bareSearch (h : unit.bare = p.unit.bare) : (coinciding excused p unit).Search where
  written := TypeExpr.SameBare
  members key htypes := member_type_accords h key htypes
  elements {type other} htypes := by
    have hform := TypeExpr.same_form htypes
    rw [elementSegment, elementSegment, Option.map_some, Option.map_some]
    generalize type.unwrap = type at hform
    generalize other.unwrap = other at hform
    cases hform <;> rfl
  roots {name _ _ _ _} _ := by
    refine accords_bind (accords_lift (.inl (find_concurs h name))) fun found other _ _ hrel => ?_
    cases hrel with
    | none => exact accords_pure .none
    | some hform =>
      cases hform with
      | typeAlias hbare => exact accords_pure (.some (congrArg Alias.type hbare :))
      | _ => exact accords_pure .none

end Access

end Program

end Schemata
