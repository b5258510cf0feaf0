import Schemata.Proofs.Renaming

/-!
# Lookups under new names

Types that are the same but for the names of parameters are compared, in two programs of which the
second one has new names in some declarations, `mirroring`. Most rules of compilation look at the
kind of a type only, which renaming keeps. A name is shown or followed where it is declared, known,
or the root of an indexed access, and such a name is kept: `Renaming.Proper` excludes the first two,
and a parameter that is bound is no root.
-/

namespace Schemata

open List

variable {text : String}

section Mirroring

variable {p : Program} {renamed : Declaration → Prop} {unit : SourceUnit}
  {relabel : Renaming} {first second : Environment} {type other : TypeExpr}

/-- A type fits when it is not a name and its parts fit. -/
theorem Program.fits_of_parts (hn : ∀ name args, type ≠ .reference name args)
    (h : ∀ part ∈ type.parts, p.Fits renamed relabel first part) :
    p.Fits renamed relabel first type := by
  have hpart {name : Name} {args : List TypeExpr} (hin : (TypeExpr.reference name args).In type) :
      ∃ part ∈ type.parts, (TypeExpr.reference name args).In part :=
    (TypeExpr.in_iff.1 hin).resolve_left fun heq => hn name args heq.symm
  refine ⟨⟨fun old args hin => ?_, fun name args hin => ?_⟩, fun old args hin => ?_,
    fun decl hdecl name args hin => ?_⟩
  all_goals obtain ⟨part, hmem, hin⟩ := hpart hin
  · exact (h part hmem).renamable.plain old args hin
  · exact (h part hmem).renamable.kept name args hin
  · exact (h part hmem).bound old args hin
  · exact (h part hmem).supplied decl hdecl name args hin

/-- A name that gets a new one has no arguments. -/
theorem TypeExpr.Renamable.name_eq {name : Name} {args : List TypeExpr}
    (h : (TypeExpr.reference name args).Renamable relabel) (hargs : args ≠ []) :
    relabel.name name = name := by
  rcases relabel.renamed_or_kept name with ⟨old, new, rfl, hnew⟩ | ⟨hkept, -⟩
  · exact (hargs (h.plain old args (.inl rfl) (by simp [hnew]))).elim
  · exact hkept

/-- Renaming parameters changes nothing that a type is apart from its parts. -/
theorem TypeExpr.Renamable.same_kind {types : TypeExpr → TypeExpr → Prop}
    (h : type.Renamable relabel)
    (hi : ∀ part, part.In type → types part (part.instantiate relabel.substitution)) :
    type.SameKind types Eq (type.instantiate relabel.substitution) := by
  refine same_kind_instantiate relabel.substitution_proper (fun _ => rfl)
    (fun name args ht => ?_) (fun part hpart => hi part (.inr (.part hpart)))
    fun part hpart inner hmem => hi inner (In.trans (.inr (.part hmem)) (.inr (.part hpart)))
  subst ht
  exact ⟨relabel.name name, h.reference, h.name_eq⟩

theorem MirroredBy.same_kind (h : MirroredBy p renamed relabel (type, first) (other, second)) :
    type.SameKind (fun part other => Mirrored p renamed (part, first) (other, second)) Eq
      other := by
  obtain rfl : other = type.instantiate relabel.substitution := h.type
  exact h.fits.renamable.same_kind fun part hpart => ⟨relabel, h.inner hpart⟩

/-- What is done with types that are the same but for the names of parameters corresponds. -/
def mirroring (program : Program) (renamed : Declaration → Prop) (unit : SourceUnit) :
    Likeness program (program.version unit) where
  toResultComparison := sameFaults
  compares := Corresponds
  shows _ _ := True
  compares_pure := corresponds_pure
  compares_refl := corresponds_refl
  compares_fail := corresponds_same_fail
  compares_any _ _ h := h.elim
  compares_access _ := corresponds_fail (.access _ _)
  compares_note _ _ := corresponds_note _ _
  compares_warn _ _ := corresponds_warn _ _
  compares_lift := corresponds_lift
  compares_bind := corresponds_bind
  relates := Mirrored program renamed
  tags := Eq
  tags_eq := @Program.version_tags program unit
  any := by
    rintro _ _ _ _ ⟨relabel, h⟩
    refine ⟨relabel, h.proper, Program.fits_of_parts (fun _ _ heq => by cases heq)
      fun part hpart => ?_, rfl, h.environments⟩
    cases hpart
  text := by
    rintro _ _ _ _ ⟨relabel, h⟩
    exact h.text_agrees
  null := by
    rintro type other _ _ ⟨relabel, h⟩
    obtain rfl : other = type.instantiate relabel.substitution := h.type
    exact TypeExpr.is_null_instantiate relabel.substitution_proper
  resolves := by
    rintro type other first second ⟨relabel, h⟩
    have hresults := resolve_mirrored h.unwrap
    generalize first.resolve type.unwrap = result at hresults
    generalize second.resolve other.unwrap = otherResult at hresults
    cases hresults with
    | error heq =>
      cases heq
      exact .error _
    | ok hfound =>
      obtain ⟨via, hmirrored, hkept⟩ := hfound
      refine .ok ⟨⟨via, hmirrored⟩, hmirrored.same_kind, fun name arguments otherName others
        hname hother => ?_⟩
      have htype := hmirrored.type
      have hrenamable := hmirrored.fits.renamable
      rw [hname] at htype hrenamable
      rw [hrenamable.reference, hother] at htype
      cases htype
      exact hkept name arguments hname

end Mirroring

namespace Program

section Templates

variable {p : Program} {renamed : Declaration → Prop} {unit : SourceUnit}
  {relabel : Renaming}

section Becomes

variable {decl other : Declaration} (h : p.Becomes renamed relabel decl other)

include h

theorem Becomes.relabel_eq_none (hparams : decl.parameters = []) : relabel = .none := by
  funext old
  cases hnew : relabel old with
  | none => rfl
  | some =>
    obtain ⟨param, hparam, -⟩ := h.renames.parameters old (by simp [hnew])
    rw [hparams] at hparam
    cases hparam

/-- A declaration is not changed where no parameter gets a new name. -/
theorem Becomes.eq_of_none (hnone : relabel = .none) : other = decl := by
  rw [h.other_eq, hnone, Declaration.rename_none]

theorem Becomes.eq_of_no_parameters (hparams : decl.parameters = []) : other = decl :=
  h.eq_of_none (h.relabel_eq_none hparams)

theorem Becomes.parameters_empty : other.parameters.isEmpty = decl.parameters.isEmpty := by
  rw [h.other_eq, Declaration.rename_parameters, isEmpty_map]

end Becomes

variable {a b : Environment} {t other : TypeExpr}

/-- A name and its new name stand for the same texts. -/
theorem harvest_named_mirrored (h : p.RenamesTo renamed unit) (hproper : relabel.Proper p)
    (name : Name) :
    Corresponds Eq (p.harvestNamed name) ((p.withUnit unit).harvestNamed (relabel.name name)) := by
  refine corresponds_bind (corresponds_lift (h.find hproper name)) fun found others hf _ hrel => ?_
  have hunknown : Corresponds Eq
      (do Compilation.warn (.unknownSpan name); return (none : Option Values))
      (do Compilation.warn (.unknownSpan (relabel.name name)); return none) :=
    (mirroring p renamed unit).compares_then (corresponds_warn _ _) fun _ _ => corresponds_refl _
  cases hrel with
  | none => exact hunknown
  | @some decl other hbecomes =>
    obtain ⟨via, hbecomes⟩ := hbecomes
    -- A declared name is kept.
    have hn : relabel.name name = name := by
      rcases relabel.renamed_or_kept name with ⟨old, new, rfl, hnew⟩ | ⟨hkept, -⟩
      · have hnone : p.find (.str old) = .ok none :=
          congrArg Except.ok (hproper.old old new hnew).declaration
        rw [hnone] at hf
        cases hf
      · exact hkept
    rw [hn] at hunknown ⊢
    cases decl with
    | enumeration =>
      cases hbecomes.other_eq
      exact corresponds_refl _
    | interface =>
      cases hbecomes.other_eq
      exact hunknown
    | typeAlias d =>
      obtain ⟨declaredName, tags, exported, params, t⟩ := d
      cases params with
      | nil =>
        cases hbecomes.eq_of_no_parameters rfl
        exact corresponds_refl _
      | cons =>
        cases hbecomes.other_eq
        exact hunknown

theorem enumerator_text_renamed (h : p.RenamesTo renamed unit) (enumName memberName : Name) :
    Concurs Eq Eq (p.enumeratorText? enumName memberName)
      ((p.withUnit unit).enumeratorText? enumName memberName) := by
  have hfind := h.find (Renaming.none_proper p) enumName
  rw [Renaming.name_none] at hfind
  refine concurs_bind hfind fun found others hrel => ?_
  cases hrel with
  | none => exact .ok rfl
  | @some decl other hbecomes =>
    obtain ⟨via, hbecomes⟩ := hbecomes
    cases decl <;> cases hbecomes.other_eq <;> exact .ok rfl

/-- Types that are the same but for the names of parameters are seen alike. -/
theorem RenamesTo.clear (h : p.RenamesTo renamed unit) : (mirroring p renamed unit).Clear where
  leads := by
    rintro a b t other ⟨relabel, hmirrored⟩
    refine (resolve_mirrored hmirrored).imp ?_
    rintro found reached - - ⟨via, hmirrored, -⟩
    have hun := hmirrored.unwrap
    refine ⟨⟨⟨via, hun⟩, hun.same_kind⟩, fun name otherName hn hother => ?_, hmirrored.same_kind⟩
    rw [hn] at hun
    cases hother.symm.trans hun.reference
    exact harvest_named_mirrored h hun.proper name

end Templates

section Members

variable {other : TypeExpr}

/-- A type as it is written, and the type with parameters renamed. -/
def Respelled (program : Program) (type other : TypeExpr) : Prop :=
  ∃ relabel : Renaming, relabel.Proper program ∧ type.Renamable relabel ∧
    other = type.instantiate relabel.substitution

variable {p : Program} {renamed : Declaration → Prop} {unit : SourceUnit}
  {relabel : Renaming}

theorem respelled_refl (t : TypeExpr) : Respelled p t t := by
  refine ⟨.none, Renaming.none_proper p, t.renamable_none, ?_⟩
  rw [Renaming.substitution_none, TypeExpr.instantiate_none]

theorem Respelled.unwrap {t : TypeExpr} (h : Respelled p t other) :
    Respelled p t.unwrap other.unwrap := by
  obtain ⟨relabel, hproper, hrenamable, rfl⟩ := h
  refine ⟨relabel, hproper, hrenamable.inner t.unwrap_in, ?_⟩
  exact TypeExpr.unwrap_instantiate relabel.substitution_proper t

/-- Types as they are written, with parameters renamed. -/
def respelling (program : Program) : Wording where
  types := Respelled program
  tags := Eq
  unwrap := Respelled.unwrap
  kind h := by
    obtain ⟨relabel, hproper, hrenamable, hother⟩ := h.unwrap
    rw [hother]
    exact hrenamable.same_kind fun part hpart => ⟨relabel, hproper, hrenamable.inner hpart, rfl⟩

/-- Declarations are alike with parameters renamed. -/
theorem Becomes.alike {decl other : Declaration} (h : p.Becomes renamed relabel decl other) :
    decl.Alike (Respelled p) Eq other := by
  have hts := fun t ht => h.renames.types t (mem_append_left _ ht)
  cases decl with
  | enumeration =>
    cases h.other_eq
    exact .enumeration rfl rfl
  | typeAlias d =>
    cases h.other_eq
    refine .typeAlias ⟨relabel, h.renames.proper, ?_, rfl⟩ (by simp)
    exact hts d.type (mem_singleton.2 rfl)
  | interface =>
    cases h.other_eq
    refine .interface ?_ (forall₂_same.2 fun c _ =>
      ⟨rfl, rfl, fun _ => rfl, respelled_refl _⟩)
    dsimp only
    rw [TypeExpr.instantiate_members_eq, forall₂_map_right_iff, forall₂_same]
    exact fun m hm => ⟨rfl, rfl, rfl, rel_map fun t ht =>
      ⟨relabel, h.renames.proper, hts t (TypeExpr.mem_parts_member hm ht), rfl⟩⟩

/-- A name without declaration has no members, which is found without telling of a schema. -/
theorem member_type_undeclared (p : Program) (h : p.declaration? (.text text) = none) (key : Json)
    (steps : Nat) (seen : List Key) (args : List TypeExpr) :
    let found := p.memberTypeWithin key (steps + 1) seen (.reference (.str text) args)
    found.result = .ok none ∧ marks found.trace = [] := by
  have hk : Json.key (.str text) = .ok (.text text) := rfl
  simp only [memberTypeWithin, TypeExpr.unwrap, hk, Traced.lift_ok, pure_bind, h]
  split
  · exact ⟨rfl, rfl⟩
  · exact ⟨rfl, rfl⟩

/-- The members of types that are the same but for the names of parameters have types that are. -/
theorem member_type_respelled (h : p.RenamesTo renamed unit) (key : Json) {container : TypeExpr}
    (hcontainer : Respelled p container other) :
    Corresponds (Option.Rel (Respelled p)) (p.memberType (some container) key)
      ((p.withUnit unit).memberType (some other) key) := by
  have hlen : (p.withUnit unit).unit.declarations.length =
      p.unit.declarations.length := h.declarations.length_eq.symm
  rw [memberType, memberType, hlen]
  refine (respelling p).member_type_within
    (mirroring p renamed unit).toComparison (fun hnames => ?_) _ [] hcontainer
  obtain ⟨relabel, hproper, hrenamable, heq⟩ := hnames
  rw [hrenamable.reference] at heq
  cases heq
  rename_i name args
  rcases relabel.renamed_or_kept name with ⟨old, new, rfl, hnew⟩ | ⟨hkept, -⟩
  · -- A parameter is declared under neither of its names.
    refine .inr fun steps seen => ?_
    rw [Renaming.name, hnew, Option.getD_some]
    obtain ⟨hfound, hsilent⟩ :=
      member_type_undeclared p (hproper.old old new hnew).declaration key steps seen args
    obtain ⟨hother, hotherSilent⟩ := member_type_undeclared (p.withUnit unit)
      (h.undeclared (hproper.new old new hnew)) key steps seen
      (args.map (TypeExpr.instantiate relabel.substitution))
    refine ⟨?_, hotherSilent.trans hsilent.symm⟩
    rw [hfound, hother]
    exact .ok .none
  · refine .inl ⟨hkept, fun nameKey _ => ?_⟩
    exact rel_imp (h.declaration nameKey) fun _ _ _ _ hbecomes => hbecomes.choose_spec.alike

end Members

section Access

variable {p : Program} {renamed : Declaration → Prop} {unit : SourceUnit} {t other : TypeExpr}

/-- A name that means nothing outside of a declaration is not reserved, if that can be told. -/
theorem Unclaimed.maybe_name (h : p.Unclaimed (.str text)) :
    p.settings.isMaybeName (.str text) =
      p.settings.maybe.elim (.error .noPart) fun _ => .ok false := by
  have hpresent := h.present
  unfold Settings.isMaybeName at hpresent ⊢
  cases hmaybe : p.settings.maybe with
  | none => rfl
  | some =>
    rw [hmaybe] at hpresent
    exact congrArg Except.ok (Bool.eq_false_iff.2 fun htrue => hpresent (congrArg Except.ok htrue))

theorem Unclaimed.element_segment (h : p.Unclaimed (.str text)) (args : List TypeExpr) :
    p.elementSegment (some (.reference (.str text) args)) =
      p.settings.maybe.elim (.error .noPart) fun _ => .ok none := by
  have hknown {known : String} {builtin : Builtin}
      (hbuiltin : Builtin.ofName? (.str known) = some builtin) :
      Json.isText (.str text) known = false := by
    refine decide_eq_false fun heq => ?_
    cases heq
    rw [h.unknown] at hbuiltin
    cases hbuiltin
  have harray : Json.isOneOf (.str text) arrayNames = false := by
    simp [Json.isOneOf, arrayNames, @hknown "Array" .array rfl, @hknown "ReadonlyArray" .array rfl]
  simp only [elementSegment, Option.map_some, TypeExpr.unwrap, harray, h.maybe_name,
    @hknown "Record" .record rfl]
  cases p.settings.maybe <;> rfl

/-- Types that are the same but for the names of parameters have elements in the same place. -/
theorem element_segment_respelled (h : Respelled p t other) :
    p.elementSegment (some other) = p.elementSegment (some t) := by
  have hun (t : TypeExpr) : p.elementSegment (some t) = p.elementSegment (some t.unwrap) := by
    simp only [elementSegment, Option.map_some, TypeExpr.unwrap_unwrap]
  obtain ⟨relabel, hproper, hrenamable, hother⟩ := h.unwrap
  rw [hun t, hun other, hother]
  cases hkind : t.unwrap with
  | reference name =>
    rw [hkind] at hrenamable
    rw [hrenamable.reference]
    rcases relabel.renamed_or_kept name with ⟨old, new, rfl, hnew⟩ | ⟨hkept, -⟩
    · rw [Renaming.name, hnew, Option.getD_some, (hproper.new old new hnew).element_segment,
        (hproper.old old new hnew).element_segment]
    · rw [hkept]
      rfl
  | paren inner => exact absurd hkind (t.unwrap_ne_paren inner)
  | _ => rfl

/-- What is looked up at the root of an access is the same but for the names of parameters. -/
def RenamesTo.search (h : p.RenamesTo renamed unit) : (mirroring p renamed unit).Search where
  written := Respelled p
  members key htypes := member_type_respelled h key htypes
  elements htypes := @element_segment_respelled p _ _ htypes
  roots {name _ _ _ _} _ := by
    have hfind := h.find (Renaming.none_proper p) name
    rw [Renaming.name_none] at hfind
    refine corresponds_bind (corresponds_lift hfind) fun found others _ _ hrel => ?_
    cases hrel with
    | none => exact corresponds_pure .none
    | some hbecomes =>
      cases hbecomes.choose_spec.alike with
      | typeAlias htype _ => exact corresponds_pure (.some htype)
      | interface _ _ => exact corresponds_pure .none
      | enumeration _ _ => exact corresponds_pure .none

/-- Accesses have the same path. -/
theorem access_corresponds (h : p.RenamesTo renamed unit) {a b : Environment}
    (ht : Mirrored p renamed (t, a) (other, b)) :
    Corresponds Eq (p.accessChain (a.chain t) [])
      ((p.withUnit unit).accessChain (b.chain other) []) := by
  refine h.search.access ht fun _ _ hleads => ?_
  obtain ⟨relabel, hroot⟩ := hleads.related
  exact ⟨relabel, hroot.proper, hroot.fits.renamable, hroot.type⟩

end Access

end Program

end Schemata
