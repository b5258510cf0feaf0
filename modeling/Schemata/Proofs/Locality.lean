import Schemata.Proofs.Recasting

/-!
# Locality of compilation

A type `StaysIn` a set of names when it mentions no others. Source units agree on a set of names
when they have the same first declarations for these, which mention no other names. Then the units
can be recast as each other, with types as they are, as far as types stay in the set. So
`compilation_local` says that the units compile all that stays in the set to the same outcome,
whatever else they declare.
-/

namespace Schemata

namespace Program

/-- The program and another source unit have the same first declaration, or none, for each name of a
set, and these declarations mention names of the set only. -/
structure AgreesOn (names : Name → Prop) (program : Program) (unit : SourceUnit) : Prop where
  closed : ∀ name, names name → ∀ declaration, program.find name = .ok (some declaration) →
    declaration.StaysIn names
  same : ∀ name, names name → (program.withUnit unit).find name = program.find name

section AgreesOn

variable {names : Name → Prop} {program : Program} {unit : SourceUnit}
  (h : program.AgreesOn names unit)

include h

/-- A source unit that agrees on some names may stand for the other one there. -/
def AgreesOn.recasting : Recasting program (program.version unit) :=
  .same names False (@version_tags program unit) (fun _ _ => keeps_refl _) h.closed
    fun name hname => (h.same name hname).symm ▸ found_refl (program.find name)

/-- A declaration in the set has the same schema in both units. -/
theorem AgreesOn.declaration_local {decl : Declaration} (hdecl : decl.StaysIn names) :
    (program.withUnit unit).declarationSchema decl = program.declarationSchema decl :=
  (h.recasting.declaration_schema rfl (.refl decl) hdecl).eq False.elim

end AgreesOn

/-- Compilation is local. Let two source units have the same first declarations, or none, for the
names of a set, and let these declarations mention no other names. Then both units compile each type
and each declaration that mentions names of the set only to the same outcome: the same schema or the
same error, with the same dependencies, warnings and uses of the helper on the way. -/
theorem compilation_local {names : Name → Prop} {program : Program} {unit : SourceUnit}
    (h : program.AgreesOn names unit) :
    (∀ type environment tags, (∀ found ∈ type, TypeExpr.StaysIn names found) →
      environment.StaysIn names →
      (program.withUnit unit).schemaOf type environment tags =
        program.schemaOf type environment tags) ∧
    ∀ declaration, declaration.StaysIn names →
      (program.withUnit unit).compileDeclaration declaration =
        program.compileDeclaration declaration := by
  refine ⟨fun type environment tags htype henvironment => ?_, fun declaration hdeclaration => ?_⟩
  · cases type with
    | none => rfl
    | some type =>
      rw [schema_of_some, schema_of_some]
      have hjobs : h.recasting.likeness.Jobs
          ⟨type, environment, { tags := program.tags tags }⟩ _ :=
        ⟨⟨rfl, rfl, htype type rfl, henvironment⟩, rfl⟩
      exact (h.recasting.compile hjobs).eq False.elim
  · unfold compileDeclaration
    rw [h.declaration_local hdeclaration]
    rfl

/-- The interface `interface Named { names: string[] }`. -/
def namedInterface : Declaration :=
  .interface {
    name := .str "Named", tags := [], exported := true, parameters := [], heritage := []
    members := [{ name := "names", type := some (.array (.keyword .string)), optional := false,
                  readonly := false, tags := [] }]
    index := none }

/-- The interface `interface Owner extends Named {}`. -/
def ownerInterface : Declaration :=
  .interface {
    name := .str "Owner", tags := [], exported := true, parameters := []
    heritage := [⟨.str "Named", none, none⟩], members := [], index := none }

/-- The alias `type OwnerName = Owner["names"][number]`. -/
def ownerName : Declaration :=
  .typeAlias ⟨.str "OwnerName", [], true, [],
    .indexed (.indexed (.reference (.str "Owner") []) (.literal (.str "names"))) (.keyword .number)⟩

/-- The program of the three declarations. -/
def ownerNames : Program where
  unit :=
    ⟨.null, [namedInterface, ownerInterface, ownerName], []⟩
  settings := Settings.default

/-- A unit with an alias that does not compile, with the interfaces in another order, without the
alias `OwnerName`, and with a second declaration of `Owner`. -/
def brokenOwners : SourceUnit where
  path := .null
  declarations :=
    [.typeAlias ⟨.str "Broken", [], true, [], .indexed (.keyword .string) (.keyword .number)⟩,
     ownerInterface, namedInterface,
     .typeAlias ⟨.str "Owner", [], true, [], .reference (.str "Broken") []⟩]
  imports := []

/-- The names `Named` and `Owner` have the same first declarations in both units. The alias
`OwnerName`, for which a member is looked up through both interfaces, compiles alike in both. -/
theorem owner_name_local :
    ownerNames.AgreesOn (· ∈ [.str "Named", .str "Owner"]) brokenOwners ∧
      ownerName.StaysIn (· ∈ [.str "Named", .str "Owner"]) ∧
      (ownerNames.withUnit brokenOwners).compileDeclaration ownerName =
        ownerNames.compileDeclaration ownerName ∧
      ∃ compiled, (ownerNames.compileDeclaration ownerName).result = .ok compiled := by
  have hagrees : ownerNames.AgreesOn (· ∈ [.str "Named", .str "Owner"]) brokenOwners := by
    refine ⟨fun name hname declaration hfind => ?_, fun name hname => ?_⟩
    · simp only [List.mem_cons, List.not_mem_nil, or_false] at hname
      rcases hname with rfl | rfl
      · cases hfind
        refine ⟨fun type htype => ?_, fun declared hdeclared clause hclause => ?_⟩
        · cases List.mem_singleton.1 htype
          refine TypeExpr.everywhere_of_holds_within 2 ?_
          simp [TypeExpr.HoldsWithin, TypeExpr.OwnName, TypeExpr.parts]
        · cases hdeclared
          cases hclause
      · cases hfind
        refine ⟨fun type htype => ?_, fun declared hdeclared clause hclause => ?_⟩
        · cases htype
        · cases hdeclared
          cases List.mem_singleton.1 hclause
          exact List.mem_cons_self
    · simp only [List.mem_cons, List.not_mem_nil, or_false] at hname
      rcases hname with rfl | rfl
      · rfl
      · rfl
  have hstays : ownerName.StaysIn (· ∈ [.str "Named", .str "Owner"]) := by
    refine ⟨fun type htype => ?_, fun declared hdeclared _ _ => by cases hdeclared⟩
    cases List.mem_singleton.1 htype
    refine TypeExpr.everywhere_of_holds_within 3 ?_
    simp [TypeExpr.HoldsWithin, TypeExpr.OwnName, TypeExpr.parts]
  exact ⟨hagrees, hstays, (compilation_local hagrees).2 ownerName hstays, _, rfl⟩

end Program

end Schemata
