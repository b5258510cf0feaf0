import Schemata.Proofs.Everywhere
import Schemata.Proofs.Substitution
import Schemata.Proofs.Totality

/-!
# Availability of schemas

Only a few things that stand in a program can make the compiler reject a declaration: parameters,
reserved interfaces, projections, an index signature beside a heritage, and indexed accesses. A
program without them is `Harmless`. `harmless_declarations_compile` says that all declarations of
such a program compile, whatever else is written in them: what has no schema of its own becomes the
schema of any value.
-/

namespace Schemata

open List

variable {t : TypeExpr} {name : Name} {decl : Declaration} {env : Environment}

/-- A type that is neither an indexed access nor a projection, apart from the types inside of it. -/
def TypeExpr.Harmless : TypeExpr → Prop
  | .indexed _ _ => False
  | .reference name _ => ∀ projection : Projection, name ≠ .str projection.typeName
  | _ => True

/-- An interface that is not reserved and takes over what it extends as a whole, without an index
signature of its own. -/
structure Interface.Harmless (settings : Settings) (declared : Interface) : Prop where
  unreserved : ∀ maybe ∈ settings.maybe, declared.name ∉ maybe.typeNames
  whole : ∀ clause ∈ declared.heritage, clause.projection = none
  index : declared.heritage ≠ [] → declared.index = none

/-- A declaration that nothing is rejected for. -/
structure Declaration.Harmless (settings : Settings) (declaration : Declaration) : Prop where
  parameters : declaration.parameters = []
  types : ∀ type ∈ declaration.bodyTypes, type.Everywhere TypeExpr.Harmless
  interface : ∀ declared, declaration = .interface declared → declared.Harmless settings

/-- A program in which there is nothing that a declaration is rejected for. -/
def Program.Harmless (program : Program) : Prop :=
  ∀ declaration ∈ program.unit.declarations, declaration.Harmless program.settings

/-- No error of compilation is allowed. -/
def noError (_ : CompileError) : Prop := False

/-- A computation that settles without any error gives a value. -/
theorem value_of_settles {α : Type} {comp : Compilation α}
    (h : comp.Settles noError) : ∃ v, comp.result = .ok v := by
  cases hres : comp.result with
  | ok v => exact ⟨v, rfl⟩
  | error failure =>
    obtain ⟨error, -, hallowed⟩ := h.failure failure hres
    exact hallowed.elim

/-- A type in which all texts are in place is well-typed. -/
theorem TypeExpr.well_typed_of_everywhere (h : t.Everywhere TypeExpr.OwnTexts) : t.WellTyped := by
  induction t using TypeExpr.parts_induction with
  | h t ih => exact .intro h.here fun part hpart => ih part hpart (h.part hpart)

/-- The names of projections are those of their types. -/
theorem Builtin.name_of_projection {proj : Projection}
    (h : Builtin.ofName? name = some (.projection proj)) : name = .str proj.typeName := by
  have hnames : ∀ e ∈ Builtin.names, e.2 = .projection proj → e.1 = proj.typeName := by
    cases proj <;> decide
  obtain ⟨text, rfl, hmem⟩ := Builtin.mem_names_of_name h
  exact congrArg Json.str (hnames _ hmem rfl)

namespace Program

variable {p : Program}

/-- A text that is not among the names of types that may be absent is told from them. -/
theorem is_maybe_name_eq_false (hp : p.WellTyped) (hn : name.IsText)
    (h : ∀ maybe ∈ p.settings.maybe, name ∉ maybe.typeNames) :
    p.settings.isMaybeName name = .ok false := by
  obtain ⟨maybe, hmaybe⟩ := hp.settings.maybe
  obtain ⟨text, rfl⟩ := hn
  have hnone : (maybe.typeNames.any fun other => other.key? = some (.text text)) = false := by
    rw [any_eq_false]
    intro other hother hk
    cases eq_text_of_key (of_decide_eq_true hk)
    exact h maybe hmaybe hother
  rw [Settings.isMaybeName, hmaybe]
  exact congrArg Except.ok hnone

section Plans

variable (hprogram : p.WellTyped) (hharmless : p.Harmless) {args : List TypeExpr} {ctx : Context}

include hprogram hharmless

theorem reserved_eq_none {found : Option Declaration}
    (h : ∀ decl ∈ found, decl ∈ p.unit.declarations) : p.reserved? found = .ok none := by
  unfold reserved?
  split
  · rename_i d
    have hmem := h _ rfl
    have hfalse := is_maybe_name_eq_false hprogram (hprogram.declarations _ hmem).name
      ((hharmless _ hmem).interface d rfl).unreserved
    have hn : (Declaration.interface d).name = d.name := rfl
    rw [hn] at hfalse
    rw [hfalse]
    rfl
  · rfl

/-- No declaration is entered. -/
theorem not_entered (hmem : decl ∈ p.unit.declarations) : ¬p.IsEntered decl := by
  rintro (hparams | ⟨d, hreserved⟩)
  · exact hparams (hharmless decl hmem).parameters
  · rw [reserved_eq_none hprogram hharmless fun found hf => ?_] at hreserved
    · cases hreserved
    · exact Option.mem_some.1 hf ▸ hmem

/-- The plan of a well-typed harmless type can be made. -/
theorem type_plan_available (henv : env.WellTyped) (ht : t.WellTyped) (hplain : t.Harmless) :
    (settling noError).Plans (p.typePlan env ctx t) := by
  refine type_plan_settles hprogram (fun decl hmem hentered => ?_) henv ht
    (fun name args found hn hf => ?_) fun base index hindexed => ?_
  · exact (not_entered hprogram hharmless hmem hentered).elim
  · subst hn
    exact (hplain found (Builtin.name_of_projection hf)).elim
  · subst hindexed
    exact hplain.elim

omit hprogram in
theorem types_harmless (hmem : decl ∈ p.unit.declarations) :
    ∀ t ∈ decl.types, t.Everywhere TypeExpr.Harmless := by
  have hdecl := hharmless decl hmem
  have hdefaults : decl.defaults = [] := by
    rw [Declaration.defaults, hdecl.parameters]
    rfl
  rw [Declaration.types, hdefaults, append_nil]
  exact hdecl.types

/-- A well-typed job for a harmless type is done. -/
theorem compile_available (job : Job) (hjob : job.WellTyped)
    (hplain : job.Everywhere TypeExpr.Harmless) : (p.compile job).Settles noError := by
  refine @compile_settles_of p noError
    (fun job => job.WellTyped ∧ job.Everywhere TypeExpr.Harmless) ?_ ?_ job ⟨hjob, hplain⟩
  · rintro job ⟨hjob, hplain⟩
    exact (settling _).job_plan fun ctx => type_plan_available hprogram hharmless hjob.environment
      hjob.type hplain.type.here
  · rintro next job ⟨plan, hres, hnext⟩ ⟨hjob, hplain⟩
    have hasked := asked_of_plan hres hnext
    refine ⟨asked_well_typed hprogram.declarations hjob.environment hjob.type hasked, ?_⟩
    refine asked_everywhere trivial hplain.environment hplain.type ?_ hasked
    intro name args decl _ hfind
    exact types_harmless hharmless (mem_of_find hfind)

/-- The plan of a harmless declaration can be made. -/
theorem declaration_plan_available (hmem : decl ∈ p.unit.declarations) :
    (settling noError).Plans (p.declarationPlan decl) := by
  have hinterface (d) (hd : decl = .interface d) := (hharmless _ hmem).interface d hd
  refine declaration_plan_settles hprogram (hprogram.declarations _ hmem) (fun hentered => ?_)
    (fun d hd c hc hsome => ?_) fun d hd hher hidx => ?_
  · exact (not_entered hprogram hharmless hmem hentered).elim
  · exact (hsome ((hinterface d hd).whole c hc)).elim
  · exact (hidx ((hinterface d hd).index hher)).elim

/-- A harmless declaration has a schema. -/
theorem declaration_available (hmem : decl ∈ p.unit.declarations) :
    (p.declarationSchema decl).Settles noError := by
  refine declaration_settles_of (hprogram.declarations _ hmem)
    (declaration_plan_available hprogram hharmless hmem) fun job hjob hempty ht => ?_
  refine compile_available hprogram hharmless job hjob
    ⟨?_, hempty ▸ Environment.no_bindings_everywhere 0⟩
  rcases ht with ht | ht
  · exact (hharmless _ hmem).types _ ht
  · exact ht ▸ TypeExpr.everywhere_of_leaf rfl trivial

end Plans

/-- Hard errors have few causes. In a well-typed program in which no declaration has parameters, no
interface is reserved, extends a projection or has an index signature beside its heritage, and no
type is an indexed access or a projection by `Omit` or `Pick`, every declaration compiles. Whatever
else is in it, like constructs without a schema, unions and intersections of nothing, misplaced
elements of tuples, unknown names or templates whose texts cannot be told, becomes part of a
schema. -/
theorem harmless_declarations_compile {program : Program} (hprogram : program.WellTyped)
    (hharmless : program.Harmless) :
    ∀ declaration ∈ program.unit.declarations, ∃ compiled,
      (program.compileDeclaration declaration).result = .ok compiled := by
  intro declaration hmem
  exact value_of_settles (compiled_settles hprogram (declaration_available hprogram hharmless hmem))

/-- An alias of a tuple whose elements are spread, labelled and empty in places where they have no
schema, beside an unsupported construct, a template over an unknown name and a function of an
untyped parameter. -/
def oddTuple : Declaration :=
  .typeAlias ⟨.str "OddTuple", [], true, [], .tuple
    [.spread (.keyword .string), .named (.str "label") (.intersection []) true, .union [],
     .array (.spread (.unsupported (.str "ConditionalType") (.str "A extends B ? C : D"))),
     .template (.str "id-") [⟨.reference (.str "Unknown") [], .str ""⟩],
     .function [⟨.str "x", none, false⟩] (.reference (.str "Unknown") [.keyword .never])]⟩

/-- An interface that extends an unknown one, with a member without a type. -/
def oddInterface : Declaration :=
  .interface {
    name := .str "OddInterface", tags := [], exported := true, parameters := []
    heritage := [⟨.str "Unknown", none, none⟩]
    members :=
      [{ name := "missing", type := none, optional := true, readonly := false, tags := [] }]
    index := none }

/-- The program of both declarations. -/
def oddities : Program where
  unit := ⟨.null, [oddTuple, oddInterface], []⟩
  settings := Settings.default

/-- Odd as they are, both declarations compile. -/
theorem oddities_compile :
    oddities.WellTyped ∧ oddities.Harmless ∧ ∀ declaration ∈ [oddTuple, oddInterface],
      ∃ compiled, (oddities.compileDeclaration declaration).result = .ok compiled := by
  have hwellTyped : oddities.WellTyped := by
    refine ⟨fun declaration hdeclaration => ?_, Settings.default_well_typed⟩
    rcases List.mem_cons.1 hdeclaration with rfl | hdeclaration
    · refine ⟨⟨_, rfl⟩, List.forall_mem_nil _, List.forall_mem_nil _, ?_, fun _ h => by cases h⟩
      intro type htype
      cases List.mem_singleton.1 htype
      refine TypeExpr.well_typed_of_everywhere (TypeExpr.everywhere_of_holds_within 4 ?_)
      simp [TypeExpr.HoldsWithin, TypeExpr.OwnTexts, TypeExpr.parts, Json.IsText]
    · cases List.mem_singleton.1 hdeclaration
      refine ⟨⟨_, rfl⟩, List.forall_mem_nil _, List.forall_mem_nil _, List.forall_mem_nil _, ?_⟩
      intro declared hdeclared clause hclause
      cases hdeclared
      cases List.mem_singleton.1 hclause
      exact ⟨⟨_, rfl⟩, fun _ h => by cases h⟩
  have hharmless : oddities.Harmless := by
    intro declaration hdeclaration
    rcases List.mem_cons.1 hdeclaration with rfl | hdeclaration
    · refine ⟨rfl, fun type htype => ?_, fun _ h => by cases h⟩
      cases List.mem_singleton.1 htype
      refine TypeExpr.everywhere_of_holds_within 4 ?_
      have hname (projection : Projection) : Json.str "Unknown" ≠ .str projection.typeName := by
        cases projection <;> simp [Projection.typeName]
      simp [TypeExpr.HoldsWithin, TypeExpr.Harmless, TypeExpr.parts, hname]
    · cases List.mem_singleton.1 hdeclaration
      refine ⟨rfl, List.forall_mem_nil _, fun declared hdeclared => ?_⟩
      cases hdeclared
      refine ⟨fun maybe hmaybe => ?_, fun clause hclause => ?_, fun _ => rfl⟩
      · cases hmaybe
        exact List.not_mem_nil
      · cases List.mem_singleton.1 hclause
        rfl
  exact ⟨hwellTyped, hharmless, harmless_declarations_compile hwellTyped hharmless⟩

end Program

end Schemata
