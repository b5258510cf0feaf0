import Schemata.Proofs.Matching
import Schemata.Proofs.RenamedLookup

/-!
# Hygiene of parameters

The names of the parameters of a generic declaration do not matter. Jobs whose types are the same
but for the names of parameters, and that ask for the same, have plans that correspond, so that they
give the same schema or fail in the same way, `compile_corresponds`. So does every declaration and
every type when the parameters of one declaration are renamed, `renamed_parameters_keep_outcomes`.
-/

namespace Schemata

open List

namespace Program

variable {p program : Program} {renamed : Declaration → Prop} {unit : SourceUnit}
  {relabel : Renaming} {first second : Environment} {d : Interface}

section Interfaces

/-- The body of an interface, and the body with parameters renamed. -/
theorem interfaces_mirror {other : TypeExpr} (params : List GenericParameter)
    (h : MirroredBy p renamed relabel (.object d.members d.index, first) (other, second)) :
    (mirroring p renamed unit).Interfaces first second d { d with
      parameters := params
      members := TypeExpr.instantiateMembers relabel.substitution d.members
      index := TypeExpr.instantiateIndex relabel.substitution d.index } := by
  have hher : Forall₂ (Heritage.Alike fun _ _ => True) d.heritage d.heritage :=
    forall₂_same.2 fun _ _ => ⟨rfl, rfl, fun _ => rfl, trivial⟩
  obtain rfl : other = _ := h.type
  have hkind := h.same_kind
  dsimp only [TypeExpr.instantiate] at hkind
  cases hkind with
  | object hms hidx =>
    exact ⟨rfl, hms, hidx, rfl, extension_chain_alike rfl hher,
      (mirroring p renamed unit).any ⟨relabel, h⟩⟩

/-- A type without new names fits in every environment. -/
theorem fits_none {t : TypeExpr} (h : ∀ target, renamed target → p.Supplies target t)
    (env : Environment) : p.Fits renamed .none env t :=
  ⟨t.renamable_none, fun _ _ _ hold => (by cases hold), h⟩

theorem mirrored_none {t : TypeExpr} (h : ∀ target, renamed target → p.Supplies target t)
    (henvironments : Mirrors p renamed .none first second) :
    Mirrored p renamed (t, first) (t, second) := by
  refine ⟨.none, Renaming.none_proper p, fits_none h first, ?_, henvironments⟩
  rw [Renaming.substitution_none, TypeExpr.instantiate_none]

/-- The body of an interface mirrors itself where its parameters keep their names. -/
theorem kept_interfaces_mirror
    (hsupplied : ∀ t ∈ (Declaration.interface d).types, ∀ target, renamed target →
      p.Supplies target t)
    (h : Mirrors p renamed .none first second) :
    (mirroring p renamed unit).Interfaces first second d d := by
  have hfits : p.Fits renamed .none first (.object d.members d.index) :=
    fits_of_parts (fun _ _ heq => by cases heq) fun part hpart =>
      fits_none (hsupplied part (mem_append_left _ hpart)) _
  obtain ⟨hms, hidx⟩ := TypeExpr.object.inj (TypeExpr.instantiate_none (.object d.members d.index))
  have hsame := @interfaces_mirror p renamed unit .none _ _ d _
    d.parameters ⟨Renaming.none_proper p, hfits, rfl, h⟩
  rw [Renaming.substitution_none, hms, hidx] at hsame
  exact hsame

/-- A reserved interface is used in the same way in environments that mirror each other. -/
theorem reserved_mirror (hrenames : p.RenamesTo renamed unit)
    (h : Mirrors p renamed .none first second)
    (hsupplied : ∀ t ∈ (Declaration.interface d).types, ∀ target, renamed target →
      p.Supplies target t) :
    (mirroring p renamed unit).Reserved first second d d := by
  have hclear := hrenames.clear
  refine Likeness.reserved_same _ (fun key => ?_)
    (fun t ht => hclear.sees (mirrored_none (hsupplied t (mem_append_right _ ht)) h))
    fun hk => kept_interfaces_mirror hsupplied (mirrors_without h hk)
  have hkept := @Mirrors.kept p renamed .none first second h key fun _ _ _ _ heq => by cases heq
  rw [Renaming.key_none] at hkept
  exact rel_imp hkept fun _ _ _ _ => hclear.sees

end Interfaces

section Uses

variable {name : Name} {args : List TypeExpr} {decl otherDeclaration : Declaration}
  {via : Renaming}

/-- A declaration is entered in environments that mirror each other. -/
theorem instantiation_mirror (unit : SourceUnit)
    (hbecomes : p.Becomes renamed via decl otherDeclaration)
    (h : MirroredBy p renamed relabel (.reference name args, first) (.reference name
      (args.map (TypeExpr.instantiate relabel.substitution)), second))
    (hfind : p.find name = .ok (some decl)) (hgiven : args ≠ []) :
    Corresponds (fun inner otherInner => Mirrors p renamed via inner otherInner ∧
        Covers via decl.parameters inner)
      (instantiation decl.parameters name args first)
      (instantiation otherDeclaration.parameters name
        (args.map (TypeExpr.instantiate relabel.substitution)) second) := by
  have hsupplied : via = .none ∨ decl.DefaultsFrom (0 + args.length) := by
    rw [Nat.zero_add]
    exact hbecomes.chosen.imp_right fun hrenamed =>
      h.fits.supplied decl hrenamed name args (.inl rfl) hgiven hfind
  have hbound := mirrors_bind_types hbecomes h.proper h.environments
    (fun arg harg => h.fits.inner (.inr (.part harg))) (nil_append _).symm
    (mirrors_enter h.environments.depth_eq) (fun _ _ _ hparam => by cases hparam) hsupplied
  rw [hbecomes.other_eq, Declaration.rename_parameters]
  exact (mirroring p renamed unit).instantiates ⟨relabel, h⟩ hbound fun _ _ => corresponds_note _ _

/-- A reserved interface keeps the names of its parameters. -/
theorem RenamesTo.kept_of_reserved (h : p.RenamesTo renamed unit)
    (hbecomes : p.Becomes renamed via (.interface d) otherDeclaration)
    (hmaybe : p.settings.isMaybeName d.name = .ok true) : via = .none := by
  refine hbecomes.chosen.resolve_right fun hrenamed => h.general _ hrenamed d ?_
  rw [reserved?, hmaybe]
  rfl

/-- A declaration is entered in the same way under new names. -/
theorem RenamesTo.entered (h : p.RenamesTo renamed unit)
    (hbecomes : p.Becomes renamed via decl otherDeclaration)
    (ht : MirroredBy p renamed relabel (.reference name args, first) (.reference name
      (args.map (TypeExpr.instantiate relabel.substitution)), second))
    (hfind : p.find name = .ok (some decl)) :
    (mirroring p renamed unit).Entered name name args
      (args.map (TypeExpr.instantiate relabel.substitution)) first second decl
      otherDeclaration := by
  have hi := instantiation_mirror unit hbecomes ht hfind
  cases decl with
  | enumeration d =>
    cases hbecomes.other_eq
    exact .enumeration d d
  | typeAlias =>
    cases hbecomes.other_eq
    refine .typeAlias rfl hbecomes.parameters_empty fun hgiven => ?_
    refine (mirroring p renamed unit).compares_mono (hi hgiven) fun _ _ _ _ hbound => ?_
    exact ⟨via, hbecomes.renames.proper,
      hbecomes.body_fits hbound.2 (mem_singleton.2 rfl), rfl, hbound.1⟩
  | interface d =>
    obtain ⟨other, rfl⟩ : ∃ other, otherDeclaration = .interface other := ⟨_, hbecomes.other_eq⟩
    refine .interface hbecomes.name hbecomes.parameters_empty (fun hgiven => ?_) fun hmaybe => ?_
    · refine (mirroring p renamed unit).compares_mono (hi hgiven) fun _ _ _ _ hbound => ?_
      split
      · rename_i hmaybe
        have hnone := h.kept_of_reserved hbecomes hmaybe
        cases hbecomes.eq_of_none hnone
        exact reserved_mirror h (hnone ▸ hbound.1) hbecomes.supplied
      · cases hbecomes.other_eq
        refine interfaces_mirror _ ⟨hbecomes.renames.proper, ?_, rfl, hbound.1⟩
        exact fits_of_parts (fun _ _ heq => by cases heq) fun part hpart =>
          hbecomes.body_fits hbound.2 hpart
    · cases hbecomes.eq_of_none (h.kept_of_reserved hbecomes hmaybe)
      exact reserved_mirror h (mirrors_enter ht.environments.depth_eq) hbecomes.supplied

/-- A reference is used in the same way under new names. -/
theorem RenamesTo.referring (h : p.RenamesTo renamed unit) {other : TypeExpr}
    (ht : MirroredBy p renamed relabel (.reference name args, first) (other, second)) :
    (mirroring p renamed unit).Referring name (relabel.name name) args
      (args.map (TypeExpr.instantiate relabel.substitution)) first second where
  related := ⟨relabel, ht.reference ▸ ht⟩
  types := TypeExpr.related_map fun arg harg => ⟨relabel, ht.part harg⟩
  bound := by
    refine (relabel.key_name name).imp ?_
    rintro key _ - - ⟨hk, rfl⟩
    have hkeeps := ht.fits.renamable.kept name args (.inl rfl) key hk
    refine ⟨ht.environments.kept hkeeps, fun hnone => ht.fits.name_eq fun _ found hf => ?_⟩
    cases hk.symm.trans hf
    exact hnone
  found hn := by
    have href := ht.reference
    have hfind := h.find ht.proper name
    rw [hn] at href hfind
    subst href
    exact hfind.found fun hf hbecomes => h.entered hbecomes.choose_spec ht hf
  depth d := by
    have hdepth : (p.withUnit unit).checkDepth d second = p.checkDepth d first := by
      unfold checkDepth
      rw [ht.environments.depth_eq]
      rfl
    exact hdepth ▸ corresponds_refl _
  anyKey _ _ key hk other hother := by
    rw [head?_map, hk] at hother
    cases hother
    exact h.clear.any_key ⟨relabel, ht.part (mem_of_mem_head? hk)⟩

end Uses

section Compile

/-- Jobs whose types are the same but for the names of parameters give the same schema or fail in
the same way. -/
theorem compile_corresponds (h : p.RenamesTo renamed unit) {job other : Job}
    (hjobs : (mirroring p renamed unit).Jobs job other) :
    Corresponds Eq (p.compile job) ((p.withUnit unit).compile other) := by
  refine (mirroring p renamed unit).compile_of_plans (fun _ _ => True)
    (fun _ _ _ _ => trivial) (fun {job other} hjobs _ => .inr ?_) hjobs trivial
  obtain ⟨t, env, ctx⟩ := job
  obtain ⟨otherType, otherEnvironment, otherContext⟩ := other
  obtain ⟨⟨relabel, ht⟩, hctx⟩ := hjobs
  dsimp only at ht hctx
  subst hctx
  refine (mirroring p renamed unit).plan_of_types fun inner _ => ?_
  refine (mirroring p renamed unit).type_plan ⟨relabel, ht⟩ ht.same_kind
    (h.clear.looks ⟨relabel, ht⟩ ht.same_kind (fun _ _ _ => enumerator_text_renamed h _ _)
      (fun heq hother => ?_) fun heq hother => ?_)
  · subst heq hother
    exact access_corresponds h ⟨relabel, ht⟩
  · subst heq
    cases hother.symm.trans ht.reference
    exact (mirroring p renamed unit).use (h.referring ht)

variable {decl otherDeclaration : Declaration}

/-- A declaration has the same schema, or fails in the same way, under new names. -/
theorem declaration_corresponds (h : p.RenamesTo renamed unit)
    (hbecomes : p.Becomes renamed relabel decl otherDeclaration) :
    Corresponds Eq (p.declarationSchema decl)
      ((p.withUnit unit).declarationSchema otherDeclaration) := by
  refine (mirroring p renamed unit).declaration_schema ?_ (compile_corresponds h)
  -- A declaration whose parameters get new names is not compiled on its own.
  have hsame (hparams : decl.parameters.isEmpty) : otherDeclaration = decl :=
    hbecomes.eq_of_no_parameters (List.isEmpty_iff.1 hparams)
  cases decl with
  | enumeration =>
    cases hbecomes.other_eq
    exact .enumeration rfl
  | typeAlias d =>
    obtain ⟨other, rfl⟩ : ∃ other, otherDeclaration = .typeAlias other := ⟨_, hbecomes.other_eq⟩
    have htags : d.tags = other.tags := by
      cases hbecomes.other_eq
      rfl
    refine .typeAlias hbecomes.parameters_empty htags fun hparams => ?_
    cases hsame hparams
    refine mirrored_none ?_ mirrors_empty
    exact hbecomes.supplied d.type (mem_append_left _ (mem_singleton.2 rfl))
  | interface =>
    obtain ⟨other, rfl⟩ : ∃ other, otherDeclaration = .interface other := ⟨_, hbecomes.other_eq⟩
    refine .interface hbecomes.name hbecomes.parameters_empty (fun hparams => ?_) fun hmaybe => ?_
    · cases hsame hparams
      exact kept_interfaces_mirror hbecomes.supplied mirrors_empty
    · cases hbecomes.eq_of_none (h.kept_of_reserved hbecomes hmaybe)
      exact reserved_mirror h mirrors_empty hbecomes.supplied

end Compile

section Outcomes

/-- A type outside of declarations has the same schema under new names, or it fails in the same
way. -/
theorem schema_of_corresponds (h : p.RenamesTo renamed unit) {t : Option TypeExpr}
    (hsupplied : ∀ found ∈ t, ∀ target, renamed target → p.Supplies target found)
    (tags : Tags) :
    Corresponds Eq (p.schemaOf t .empty tags) ((p.withUnit unit).schemaOf t .empty tags) := by
  cases t with
  | none => exact corresponds_refl _
  | some t =>
    rw [schema_of_some, schema_of_some]
    exact compile_corresponds h ⟨mirrored_none (hsupplied t rfl) mirrors_empty, rfl⟩

/-- A source unit in which the parameters of one declaration are renamed. -/
theorem renames_to_of_one {before after : List Declaration} {decl : Declaration}
    (hp : p.unit.declarations = before ++ decl :: after)
    (hunit : unit.declarations = before ++ decl.rename relabel :: after)
    (hrename : p.CanRename decl relabel)
    (hgeneral : ∀ d, p.reserved? (some decl) ≠ .ok (some d))
    (hsupplied : ∀ found ∈ p.unit.declarations, ∀ t ∈ found.types, p.Supplies decl t) :
    p.RenamesTo (· = decl) unit := by
  refine ⟨?_, fun found hf => hf ▸ hgeneral⟩
  have hkept (found : Declaration) (hf : found ∈ p.unit.declarations) :
      ∃ via, p.Becomes (· = decl) via found found :=
    ⟨.none, p.can_rename_none found, fun t ht target htarget => htarget ▸ hsupplied found hf t ht,
      found.rename_none.symm, .inl rfl⟩
  have hmem : decl ∈ p.unit.declarations := by simp [hp]
  rw [hp, hunit]
  refine rel_append (forall₂_same.2 fun found hf => hkept found ?_)
    (.cons ⟨relabel, hrename, ?_, rfl, .inr rfl⟩ (forall₂_same.2 fun found hf => hkept found ?_))
  · simp [hp, hf]
  · exact fun t ht target htarget => htarget ▸ hsupplied decl hmem t ht
  · simp [hp, hf]

/-- Renaming the parameters of a generic declaration changes neither the schema nor the dependencies
of a declaration or of a type outside of declarations, and it keeps errors in their class. A
reference to the declaration has no arguments at all, or it leaves out only parameters with
defaults, which mention no parameters but those before them. -/
theorem renamed_parameters_keep_outcomes {before after : List Declaration}
    {declaration : Declaration}
    (hprogram : program.unit.declarations = before ++ declaration :: after)
    (hunit : unit.declarations = before ++ declaration.rename relabel :: after)
    (hrename : program.CanRename declaration relabel)
    (hgeneral : ∀ declared, program.reserved? (some declaration) ≠ .ok (some declared))
    (hsupplied : ∀ found ∈ program.unit.declarations, ∀ type ∈ found.types,
      program.Supplies declaration type) :
    List.Forall₂ (fun found other =>
        Concurs Failure.SameClass (fun compiled otherCompiled : Compiled =>
            otherCompiled.schema = compiled.schema ∧
              otherCompiled.dependencies = compiled.dependencies)
          (program.compileDeclaration found).result
          ((program.withUnit unit).compileDeclaration other).result)
        program.unit.declarations unit.declarations ∧
      ∀ (type : Option TypeExpr) (tags : Tags),
        (∀ found ∈ type, program.Supplies declaration found) →
          Concurs Failure.SameClass Eq (program.schemaOf type .empty tags).result
              ((program.withUnit unit).schemaOf type .empty tags).result ∧
            usedNames ((program.withUnit unit).schemaOf type .empty tags).trace =
              usedNames (program.schemaOf type .empty tags).trace := by
  have hrenames := renames_to_of_one hprogram hunit hrename hgeneral hsupplied
  refine ⟨hrenames.declarations.imp fun found other ⟨via, hbecomes⟩ =>
    compiled_concurs hbecomes.name (declaration_corresponds hrenames hbecomes),
    fun type tags htype => ?_⟩
  have hschemas := schema_of_corresponds hrenames
    (fun found hfound target htarget => htarget ▸ htype found hfound) tags
  exact ⟨hschemas.results, used_names_of_marks hschemas.marks⟩

end Outcomes

section Pairs

/-- The alias `type Pair<T, S = T> = [T, S]`. -/
def pair : Declaration :=
  .typeAlias ⟨.str "Pair", [], true,
    [⟨.str "T", none, none⟩, ⟨.str "S", none, some (.reference (.str "T") [])⟩],
    .tuple [.reference (.str "T") [], .reference (.str "S") []]⟩

/-- The alias `type Twins<T> = Pair<T[]>`, whose parameter has the name of one of pairs. -/
def twins : Declaration :=
  .typeAlias ⟨.str "Twins", [], true, [⟨.str "T", none, none⟩],
    .reference (.str "Pair") [.array (.reference (.str "T") [])]⟩

/-- The program of pairs and twins, with the names of types for schemas. -/
def pairs : Program where
  unit := ⟨.null, [pair, twins], []⟩
  settings := { Settings.default with schemaName := some id }

/-- The parameters of pairs have one another's names. -/
def swapped : Renaming
  | "T" => some "S"
  | "S" => some "T"
  | _ => none

theorem of_swapped {old new : String} (h : swapped old = some new) :
    old = "T" ∧ new = "S" ∨ old = "S" ∧ new = "T" := by
  unfold swapped at h
  split at h
  · exact .inl ⟨rfl, (Option.some.inj h).symm⟩
  · exact .inr ⟨rfl, (Option.some.inj h).symm⟩
  · cases h

theorem swapped_keeps {text : String} (h : text = "T" ∨ text = "S") :
    swapped.Keeps (.text text) := by
  intro found hf hnone
  cases hf
  rcases h with rfl | rfl
  · cases hnone
  · cases hnone

/-- Only parameters are named in pairs, and they have no arguments. -/
theorem named_in_pair {t : TypeExpr} (ht : t ∈ pair.types) {name : Name}
    {args : List TypeExpr} (hin : (TypeExpr.reference name args).In t) :
    args = [] ∧ ∃ text, name = .str text ∧ (text = "T" ∨ text = "S") := by
  have hplain {text : String} (htext : text = "T" ∨ text = "S")
      (hin : (TypeExpr.reference name args).In (.reference (.str text) [])) :
      args = [] ∧ ∃ text, name = .str text ∧ (text = "T" ∨ text = "S") := by
    rcases TypeExpr.in_iff.1 hin with heq | ⟨part, hpart, -⟩
    · cases heq
      exact ⟨rfl, text, rfl, htext⟩
    · cases hpart
  rcases mem_cons.1 ht with rfl | ht
  · rcases TypeExpr.in_iff.1 hin with heq | ⟨part, hpart, hin⟩
    · cases heq
    · rcases mem_cons.1 hpart with rfl | hpart
      · exact hplain (.inl rfl) hin
      · cases mem_singleton.1 hpart
        exact hplain (.inr rfl) hin
  · cases mem_singleton.1 ht
    exact hplain (.inl rfl) hin

theorem pairs_unclaimed {text : String} (h : text = "T" ∨ text = "S") :
    pairs.Unclaimed (.str text) := by
  have hnames : text ≠ "Pair" ∧ text ≠ "Twins" ∧ Builtin.ofName? (.str text) = none := by
    rcases h with rfl | rfl <;> exact ⟨by decide, by decide, rfl⟩
  obtain ⟨hpair, htwins, hbuiltin⟩ := hnames
  refine ⟨forall_mem_cons.2 ⟨fun heq => hpair (Json.str.inj heq).symm, ?_⟩, hbuiltin,
    fun hmaybe => by cases hmaybe⟩
  exact forall_mem_singleton.2 fun heq => htwins (Json.str.inj heq).symm

theorem can_swap_pair : pairs.CanRename pair swapped where
  proper := by
    refine ⟨fun first second new ha hsecond => ?_, fun old new h => ?_, fun old new h => ?_⟩
    · have ha := of_swapped ha
      have hsecond := of_swapped hsecond
      grind
    · exact pairs_unclaimed ((of_swapped h).imp And.left And.left)
    · exact pairs_unclaimed ((of_swapped h).symm.imp And.right And.right)
  parameters := by
    intro old h
    obtain ⟨new, hnew⟩ := Option.isSome_iff_exists.1 h
    rcases of_swapped hnew with ⟨rfl, -⟩ | ⟨rfl, -⟩
    · exact ⟨_, mem_cons_self, rfl⟩
    · exact ⟨_, mem_cons_of_mem _ mem_cons_self, rfl⟩
  kept := by
    intro param hparam key hk
    rcases mem_cons.1 hparam with rfl | hparam
    · cases hk
      exact swapped_keeps (.inl rfl)
    · cases mem_singleton.1 hparam
      cases hk
      exact swapped_keeps (.inr rfl)
  types := by
    intro t ht
    refine ⟨fun old args hin _ => (named_in_pair ht hin).1, fun name args hin key hk => ?_⟩
    obtain ⟨-, text, rfl, htext⟩ := named_in_pair ht hin
    cases hk
    exact swapped_keeps htext

/-- The second parameter of pairs is the first one by default. -/
theorem pair_supplied (t : TypeExpr) : pairs.Supplies pair t := by
  intro name args _ hsome _ before param after hparams hplace
  have hlen : 0 < before.length := (length_pos_iff.2 hsome).trans_le hplace
  rcases before with _ | ⟨first, _ | ⟨second, rest⟩⟩
  · cases hlen
  · cases hparams
    refine ⟨_, rfl, fun other _ args hin => ?_⟩
    rcases TypeExpr.in_iff.1 hin with heq | ⟨part, hpart, -⟩
    · exact ⟨_, mem_cons_self, (TypeExpr.reference.inj heq).1.symm⟩
    · cases hpart
  · cases rest <;> cases hparams

/-- Twins of dogs have the same schema when pairs are `Pair<S, T = S> = [S, T]`, although twins use
the name `T` for what is the first parameter of pairs. -/
theorem swapped_pairs_keep_outcomes :
    let unit : SourceUnit :=
      ⟨.null, [pair.rename swapped, twins], []⟩
    let dogs : TypeExpr := .reference (.str "Twins") [.reference (.str "Dog") []]
    pairs.CanRename pair swapped ∧
      ∃ schema, (pairs.schemaOf (some dogs) .empty []).result = .ok schema ∧
        ((pairs.withUnit unit).schemaOf (some dogs) .empty []).result = .ok schema ∧
        usedNames ((pairs.withUnit unit).schemaOf (some dogs) .empty []).trace =
          [.str "Dog", .str "Dog"] := by
  intro unit dogs
  obtain ⟨schema, hschema⟩ : ∃ schema,
      (pairs.schemaOf (some dogs) .empty []).result = .ok schema := ⟨_, rfl⟩
  obtain ⟨hresults, hnames⟩ :=
    (@renamed_parameters_keep_outcomes pairs unit swapped [] [twins] pair rfl rfl can_swap_pair
      (fun _ h => by cases h) fun _ _ type _ => pair_supplied type).2 (some dogs) []
        fun type _ => pair_supplied type
  rw [hschema] at hresults
  generalize ((pairs.withUnit unit).schemaOf (some dogs) .empty []).result = other at hresults ⊢
  cases hresults with
  | ok heq => exact ⟨can_swap_pair, schema, hschema, heq ▸ rfl, hnames.trans rfl⟩

end Pairs

section Clashes

/-- The program of one declaration, with the names of types for schemas. -/
def onlyOf (declaration : Declaration) : Program where
  unit := ⟨.null, [declaration], []⟩
  settings := { Settings.default with schemaName := some id }

/-- The alias `D` of a type with parameters. -/
def aliasOf (parameters : List GenericParameter) (body : TypeExpr) : Declaration :=
  .typeAlias ⟨.str "D", [], true, parameters, body⟩

/-- The renaming of one name. -/
def single (old new : String) : Renaming := fun name => if name = old then some new else none

/-- The declarations of a family are the same but for the name of a parameter, and all parameters
but the first one have defaults. That name is changed to one that means nothing in the program, and
yet the schema of the type `D<string>` changes. -/
structure NameMatters (family : String → Declaration) (old new : String) (schema other : Schema) :
    Prop where
  renames : (onlyOf (family old)).RenamesParameters (family old) (single old new)
  general : (onlyOf (family old)).reserved? (some (family old)) = .ok none
  supplied : ∀ parameter ∈ (family old).parameters.drop 1, parameter.default.isSome
  before : ((onlyOf (family old)).schemaOf (some (.reference (.str "D") [.keyword .string]))
    .empty []).result = .ok schema
  after : ((onlyOf (family new)).schemaOf (some (.reference (.str "D") [.keyword .string]))
    .empty []).result = .ok other
  differs : schema ≠ other

theorem of_single {old new found other : String} (h : single old new found = some other) :
    found = old ∧ other = new := by
  unfold single at h
  split at h
  · exact ⟨‹_›, (Option.some.inj h).symm⟩
  · cases h

theorem unclaimed_alias {params : List GenericParameter} {body : TypeExpr} {text : String}
    (hn : text ≠ "D") (hbuiltin : Builtin.ofName? (.str text) = none) :
    (onlyOf (aliasOf params body)).Unclaimed (.str text) where
  undeclared := forall_mem_singleton.2 fun heq => hn (Json.str.inj heq).symm
  unknown := hbuiltin
  present := fun h => by cases h

/-- A parameter of an alias can have a name that no other parameter has. -/
theorem single_renames {params : List GenericParameter} {body : TypeExpr} {old new : String}
    (hold : (onlyOf (aliasOf params body)).Unclaimed (.str old))
    (hnew : (onlyOf (aliasOf params body)).Unclaimed (.str new))
    (hparam : ∃ param ∈ params, param.name = .str old)
    (hkept : ∀ param ∈ params, param.name ≠ .str new) :
    (onlyOf (aliasOf params body)).RenamesParameters (aliasOf params body) (single old new) where
  proper := by
    refine ⟨fun first second name ha hsecond => ?_, fun found name h => ?_, fun found name h => ?_⟩
    · rw [(of_single ha).1, (of_single hsecond).1]
    · rw [(of_single h).1]
      exact hold
    · rw [(of_single h).2]
      exact hnew
  parameters := by
    intro found h
    obtain ⟨name, hn⟩ := Option.isSome_iff_exists.1 h
    rw [(of_single hn).1]
    exact hparam
  kept := by
    rintro param hmem key hk text rfl - found hf
    refine hkept param hmem ?_
    rw [eq_text_of_key hk, (of_single hf).2]

/-- The name of a parameter matters in three cases: its new name is mentioned in the body, where it
is captured; the default of an earlier parameter mentions it, where it is not bound yet; or it has
arguments at the root of an indexed access, where its binding is not looked up. -/
theorem parameter_names_may_matter :
    let named (name : String) : TypeExpr := .reference (.str name) []
    let text : TypeExpr := .keyword .string
    let texts : Schema := .call "string" []
    NameMatters (fun name => aliasOf [⟨.str name, none, none⟩] (.tuple [named name, named "Foo"]))
      "T" "Foo" (.call "tuple" [.array [texts, .reference (.str "Foo")]])
      (.call "tuple" [.array [texts, texts]]) ∧
    NameMatters (fun name => aliasOf [⟨.str "A", none, none⟩, ⟨.str "B", none, some (named name)⟩,
      ⟨.str name, none, some text⟩] (named "B")) "C" "V" (.reference (.str "C"))
      (.reference (.str "V")) ∧
    NameMatters (fun name => aliasOf [⟨.str name, none, none⟩]
      (.indexed (.reference (.str name) [text]) (.literal (.str "x")))) "T" "V"
      (.field (some (.reference (.str "T"))) "shape.x")
      (.field (some (.reference (.str "V"))) "shape.x") := by
  intro named text texts
  have hrenames {parameters : List GenericParameter} {body : TypeExpr} {old new : String}
      (hold : old ≠ "D" ∧ Builtin.ofName? (.str old) = none)
      (hnew : new ≠ "D" ∧ Builtin.ofName? (.str new) = none) :=
    @single_renames parameters body old new (unclaimed_alias hold.1 hold.2)
      (unclaimed_alias hnew.1 hnew.2)
  refine ⟨⟨?_, rfl, ?_, rfl, rfl, by simp [texts]⟩, ⟨?_, rfl, ?_, rfl, rfl, by simp⟩,
    ⟨?_, rfl, ?_, rfl, rfl, by simp⟩⟩
  · exact hrenames ⟨by decide, rfl⟩ ⟨by decide, rfl⟩ (by simp) (by simp)
  · exact List.forall_mem_nil _
  · exact hrenames ⟨by decide, rfl⟩ ⟨by decide, rfl⟩ (by simp) (by simp)
  · simp [aliasOf, Declaration.parameters]
  · exact hrenames ⟨by decide, rfl⟩ ⟨by decide, rfl⟩ (by simp) (by simp)
  · exact List.forall_mem_nil _

end Clashes

end Program

end Schemata
