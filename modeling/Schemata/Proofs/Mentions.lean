import Schemata.Proofs.DefinitionOrder
import Schemata.Proofs.StructuralCore

/-!
# Where dependencies come from

A job `Mentions` a name when it uses the schema of that name as it is: the name stands alone, or is
extended by an interface whose body is compiled, or an index is taken of it. `compile_names_only`
says that all dependencies come from the names that are mentioned on the way. A generic declaration
has no schema of its own, so a module is closed unless one of these is mentioned without arguments:
`dependencies_defined_or_generic`.
-/

namespace Schemata

open List
open Traced (bind_ok_iff lift_ok_iff bind_trace_of_ok)

variable {decl : Declaration}

namespace Program

/-- A job is done on the way to another one. -/
def Reaches (program : Program) (met job : Job) : Prop :=
  Relation.ReflTransGen program.Calls met job

/-- The names whose schemas a job uses as they are. -/
inductive Mentions (program : Program) (job : Job) : Name → Prop where
  /-- A name by itself. With arguments, it is not the name of a generic declaration. -/
  | plain {name arguments} (htype : job.type = .reference name arguments)
      (hplain : ∀ declaration, program.find name = .ok (some declaration) →
        declaration.parameters ≠ [] → arguments = []) : Mentions program job name
  /-- What an interface extends that is compiled in place of a reference to it. -/
  | extended {name arguments} {declared : Interface} {inner off} {clause : Heritage}
      (htype : job.type = .reference name arguments)
      (huse : (program.use job.environment name arguments).result =
        .ok (.interface declared inner off)) (hclause : clause ∈ declared.heritage) :
      Mentions program job clause.name
  /-- What an index is taken of. -/
  | root {base index name arguments} (htype : job.type = .indexed base index)
      (hroot : (job.environment.chain job.type).root? = some (.reference name arguments)) :
      Mentions program job name

/-- The names whose schemas a declaration uses as they are. -/
inductive NamedIn (program : Program) (declaration : Declaration) : Name → Prop where
  | extended {declared : Interface} {clause : Heritage}
      (hdeclared : declaration = .interface declared) (hclause : clause ∈ declared.heritage) :
      NamedIn program declaration clause.name
  | mentioned {plan : Plan} {first met name}
      (hplan : (program.declarationPlan declaration).result = .ok plan) (hfirst : first ∈ plan.jobs)
      (hmet : program.Reaches met first) (h : program.Mentions met name) :
      NamedIn program declaration name

/-- All dependencies that a computation tells of are the schemas of certain names. -/
def NamesOnly {α : Type} (program : Program) (allowed : Name → Prop)
    (computation : Compilation α) : Prop :=
  ∀ value, computation.result = .ok value → ∀ found, .reference found ∈ marks computation.trace →
    ∃ name, allowed name ∧ program.settings.nameOf name = .ok found

variable {p program : Program} {ctx : Context} {env : Environment}

section Computations

variable {α β : Type} {allowed : Name → Prop} {comp : Compilation α}

theorem names_only_quiet (h : Quiet comp) : p.NamesOnly allowed comp := by
  intro v _ found hf
  rw [h] at hf
  cases hf

theorem NamesOnly.mono {other : Name → Prop} (h : p.NamesOnly allowed comp)
    (himp : ∀ name, allowed name → other name) : p.NamesOnly other comp := by
  intro v hv found hf
  obtain ⟨name, hn, hnamed⟩ := h v hv found hf
  exact ⟨name, himp name hn, hnamed⟩

theorem names_only_bind {a : Compilation α} {next : α → Compilation β} (ha : p.NamesOnly allowed a)
    (hnext : ∀ v, a.result = .ok v → p.NamesOnly allowed (next v)) :
    p.NamesOnly allowed (a >>= next) := by
  intro result hres found hf
  obtain ⟨v, hv, hres⟩ := bind_ok_iff.1 hres
  rw [bind_trace_of_ok hv, marks_append, mem_append] at hf
  rcases hf with hf | hf
  · exact ha v hv found hf
  · exact hnext v hv result hres found hf

/-- What tells only of certain names stays so, as lookups tell of none. -/
def naming (program : Program) (allowed : Name → Prop) : Stepwise where
  holds := program.NamesOnly allowed
  holds_pure _ := names_only_quiet (quiet_pure _)
  holds_bind := names_only_bind
  holds_note _ := names_only_quiet (quiet_note _)
  holds_lift _ := names_only_quiet (quiet_lift _)
  holds_hides _ _ := names_only_quiet (quiet_result _)
  holds_fault _ := names_only_quiet (quiet_fail _)
  holds_warn _ := names_only_quiet (quiet_warn _)
  holds_reject _ := names_only_quiet (quiet_fail _)
  holds_project _ _ _ _ := names_only_quiet (quiet_result _)

/-- A computation that is exact and gives something that refers to nothing tells of nothing. -/
theorem names_only_exact {bears : α → Mark → Prop}
    (h : Exact bears (fun _ => False) comp) (hbears : ∀ v name, ¬bears v (.reference name)) :
    p.NamesOnly allowed comp := by
  intro v hv found hf
  exact (hbears v found ((h v hv _).2 (.inr hf))).elim

end Computations

section Leaves

variable {allowed : Name → Prop}

/-- Using the schema of a name tells of that name. -/
theorem names_only_reference {name : Name} (h : allowed name) :
    p.NamesOnly allowed (p.reference name) := by
  intro s hs found hf
  obtain ⟨named, hnamed, hs⟩ := bind_ok_iff.1 hs
  rw [reference, bind_trace_of_ok hnamed, marks_append, quiet_lift] at hf
  have hf : Mark.reference found ∈ [Mark.reference named] := hf
  cases mem_singleton.1 hf
  exact ⟨name, h, lift_ok_iff.1 hnamed⟩

/-- A path uses the schema of what its indices are taken of. -/
theorem names_only_access_chain (chain : Chain) (later : List String) :
    p.NamesOnly (fun name => ∃ args, chain.root? = some (.reference name args))
      (p.accessChain chain later) := by
  intro found hf constant hmark
  rw [← marks_findings] at hmark
  cases found with
  | none =>
    obtain ⟨warning, h⟩ := (access_chain_comes chain later).of_none hf
    rw [h] at hmark
    cases hmark
  | some =>
    obtain ⟨name, _, target, hspells, hname, -, h⟩ := (access_chain_comes chain later).of_some hf
    rw [h] at hmark
    cases mem_singleton.1 hmark
    exact ⟨name, hspells.root, hname⟩

end Leaves

section Uses

variable {use : NameUse TypeExpr}

/-- The body of a generic declaration is not a name. -/
theorem generic_use_ne_name : (p.genericUse env decl).result ≠ .ok (.name use) := by
  intro h
  cases decl with
  | enumeration | typeAlias => cases h
  | interface =>
    obtain ⟨reserved, -, h⟩ := bind_ok_iff.1 h
    cases reserved with
    | none => cases h
    | some =>
      obtain ⟨name, off, huse⟩ := reserved_use_eq h
      cases huse

/-- A reference that is compiled as a name with arguments is not to a generic declaration. -/
theorem arguments_eq_nil_of_name {name : Name} {args : List TypeExpr}
    (h : (p.use env name args).result = .ok (.name use))
    (hf : p.find name = .ok (some decl)) (hgeneric : decl.parameters ≠ []) : args = [] := by
  unfold Program.use at h
  obtain ⟨key, -, h⟩ := bind_ok_iff.1 h
  split at h
  · cases h
  · obtain ⟨found, hfind, h⟩ := bind_ok_iff.1 h
    rw [hf] at hfind
    cases hfind
    by_contra hsome
    have hfilter : (some decl).filter (fun decl =>
        !args.isEmpty && !decl.parameters.isEmpty) = some decl := by
      simp [hsome, hgeneric]
    rw [hfilter] at h
    obtain ⟨done, -, h⟩ := bind_ok_iff.1 h
    obtain ⟨inner, -, h⟩ := bind_ok_iff.1 h
    exact generic_use_ne_name h

end Uses

section Plans

/-- Finding out what a reference is compiled as tells of no name. -/
theorem names_only_use {allowed : Name → Prop} {use : Compilation Use}
    (h : Exact UseBears (fun _ => False) use) : p.NamesOnly allowed use := by
  refine names_only_exact h fun use found hbears => ?_
  rcases use with _ | _ | (_ | _ | _ | _ | _ | _ | _ | _) <;> cases hbears

/-- A job by itself uses the schemas of the names that it mentions. -/
theorem plan_names {allowed : Name → Prop} (job : Job)
    (h : ∀ name, p.Mentions job name → allowed name) :
    (naming p allowed).Plans (p.plan job) := by
  refine (naming p allowed).job_plan fun ctx => (naming p allowed).type_plan
    (fun name args _ => names_only_use (use_exact name args)) (fun name args use ht huse => ?_)
    (fun name args d inner off ht huse c hc => ?_) fun base index ht => ?_
  · exact names_only_reference (h name (.plain ht fun decl hf hgeneric =>
      arguments_eq_nil_of_name huse hf hgeneric))
  · exact names_only_reference (h c.name (.extended ht huse hc))
  · rw [ht]
    exact (names_only_access_chain _ []).mono fun name ⟨args, hroot⟩ =>
      h name (.root ht (ht ▸ hroot))

/-- All dependencies of a job are the schemas of names that are mentioned on the way. -/
theorem compile_names_only (job : Job) :
    p.NamesOnly (fun name => ∃ met, p.Reaches met job ∧ p.Mentions met name) (p.compile job) := by
  induction job using job_induction with
  | h job ih =>
    rw [compile_eq_run]
    refine (naming p _).run (plan_names job fun name h => ⟨job, .refl, h⟩)
      fun plan hplan next hnext => ?_
    have hcalls : p.Calls next job := ⟨plan, hplan, hnext⟩
    exact (ih next hcalls).mono fun name ⟨met, hmet, h⟩ => ⟨met, hmet.tail hcalls, h⟩

/-- All dependencies of a declaration are the schemas of names in it. -/
theorem declaration_names_only (decl : Declaration) :
    p.NamesOnly (p.NamedIn decl) (p.declarationSchema decl) := by
  let step := naming p (p.NamedIn decl)
  rw [declaration_schema_eq]
  refine step.run (step.declaration_plan (fun _ => ?_) (fun d _ => ?_) fun d hd off => ?_)
    fun plan hplan job hjob =>
      (compile_names_only job).mono fun name ⟨met, hmet, h⟩ => .mentioned hplan hjob hmet h
  · exact names_only_quiet (quiet_fail _)
  · exact names_only_use (interface_use_exact d)
  · exact step.interface_plan fun c hc => names_only_reference (.extended hd hc)

end Plans

section Closure

/-- A program whose declarations are all asked for, have different names and different schema
names, and are compiled when they are not generic. -/
structure Complete (program : Program) : Prop where
  distinct : (program.unit.declarations.map fun declaration => declaration.name.key?).Nodup
  unfiltered : ∃ filter, program.settings.nameFilter = some filter ∧ filter.elements = .ok []
  naming : ∀ first ∈ program.unit.declarations, ∀ second ∈ program.unit.declarations,
    ∀ firstName secondName, program.settings.nameOf first.name = .ok firstName →
      program.settings.nameOf second.name = .ok secondName → firstName.key? = secondName.key? →
      first.name.key? = second.name.key?
  compiles : ∀ declaration ∈ program.unit.declarations, declaration.parameters = [] →
    ∃ compiled, (program.compileDeclaration declaration).result = .ok compiled

/-- Every declaration that is compiled without failure is among the compiled ones. -/
theorem mem_of_each {declarations : List Declaration} {compiled : List Compiled}
    {rejections : List Rejection}
    (h : (p.compileEach declarations).result = .ok (compiled, rejections))
    (hdecl : decl ∈ declarations) {constant : Compiled}
    (hc : (p.compileDeclaration decl).result = .ok constant) : constant ∈ compiled := by
  obtain ⟨-, -, -, hleft⟩ := each_inversion h
  rcases hleft decl hdecl with ⟨found, hf, hcompiled⟩ | ⟨error, herror⟩
  · cases hcompiled.symm.trans hc
    exact hf
  · cases herror.symm.trans hc

/-- When nothing is filtered, all declarations are compiled. -/
theorem selected_of_unfiltered {filter : Json} (hfilter : p.settings.nameFilter = some filter)
    (helts : filter.elements = .ok []) : p.selected = .ok p.unit.declarations := by
  unfold selected
  rw [hfilter, Settings.given]
  show (filter.elements >>= _) = _
  rw [helts]
  exact congrArg Except.ok (filter_eq_self.2 fun _ _ => rfl)

/-- What the schema of a declaration refers to is the schema of a name in the declaration. -/
theorem named_of_reference {compiled : Compiled}
    (h : (p.compileDeclaration decl).result = .ok compiled) {used : Name}
    (hused : Schema.Occurs (.reference used) compiled.schema) :
    ∃ name, p.NamedIn decl name ∧ p.settings.nameOf name = .ok used := by
  obtain ⟨hs, -⟩ := compiled_of_result h
  have hmark := (declaration_exact decl _ hs (.reference used)).1 hused
  exact declaration_names_only decl _ hs used (hmark.resolve_left id)

theorem named_of_dependency {compiled : Compiled}
    (h : (p.compileDeclaration decl).result = .ok compiled) {dependency : Name}
    (hdependency : dependency ∈ compiled.dependencies) :
    ∃ name, p.NamedIn decl name ∧ p.settings.nameOf name = .ok dependency :=
  named_of_reference h ((side_channels_of_declaration h).occurs dependency hdependency)

/-- A module is closed as far as generic declarations are not used by themselves: when a dependency
is the schema of a declaration, that schema is compiled too, or the declaration is generic, has no
schema, and its name, or one that is not declared and has the same schema name, is mentioned without
being instantiated. -/
theorem dependencies_defined_or_generic (h : program.Complete) {compiled : List Compiled}
    {rejections : List Rejection}
    (hcompiled : program.compileAll.result = .ok (compiled, rejections)) {user : Compiled}
    (huser : user ∈ compiled) {dependency : Name}
    (hdependency : dependency ∈ user.dependencies) {declaration : Declaration}
    (hdeclaration : declaration ∈ program.unit.declarations) {schemaName : Name}
    (hschemaName : program.settings.nameOf declaration.name = .ok schemaName)
    (hkey : schemaName.key? = dependency.key?) :
    (∃ other ∈ compiled, other.schemaName.key? = dependency.key?) ∨
      declaration.parameters ≠ [] ∧
      ∃ source ∈ program.unit.declarations,
        (program.compileDeclaration source).result = .ok user ∧
        ∃ name, program.NamedIn source name ∧ program.settings.nameOf name = .ok dependency ∧
          ∀ other ∈ program.unit.declarations, other.name = name → other = declaration := by
  obtain ⟨filter, hfilter, helements⟩ := h.unfiltered
  obtain ⟨declarations, hselected, heach⟩ := Traced.bind_ok_iff.1 hcompiled
  have hall := (Traced.lift_ok_iff.1 hselected).symm.trans
    (selected_of_unfiltered hfilter helements)
  cases hall
  by_cases hgeneric : declaration.parameters = []
  · -- It is compiled, under the schema name that is used.
    left
    obtain ⟨constant, hconstant⟩ := h.compiles declaration hdeclaration hgeneric
    refine ⟨constant, mem_of_each heach hdeclaration hconstant, ?_⟩
    obtain ⟨-, hname, -⟩ := compiled_of_result hconstant
    rw [← hkey, Except.ok.inj (hschemaName.symm.trans hname)]
  · right
    obtain ⟨source, hsource, hresult⟩ := compiled_of_each heach user huser
    obtain ⟨name, hnamed, hname⟩ := named_of_dependency hresult hdependency
    refine ⟨hgeneric, source, hsource, hresult, name, hnamed, hname, ?_⟩
    rintro other hother rfl
    have hsame := h.naming other hother declaration hdeclaration _ _ hname hschemaName hkey.symm
    exact List.inj_on_of_nodup_map h.distinct hother hdeclaration hsame

/-- The program of `type Box<T = string> = T[]`, of an alias `Crate` and of
`type Shelf = Crate[]`, with the names of types for schemas. -/
def shelves (crate : TypeExpr) : Program where
  unit := ⟨.null, [
      .typeAlias ⟨.str "Box", [], true, [⟨.str "T", none, some (.keyword .string)⟩],
        .array (.reference (.str "T") [])⟩,
      .typeAlias ⟨.str "Crate", [], true, [], crate⟩,
      .typeAlias ⟨.str "Shelf", [], true, [], .array (.reference (.str "Crate") [])⟩], []⟩
  settings := { Settings.default with schemaName := some id }

/-- The schemas of shelves are complete when a crate and a shelf can be compiled. -/
theorem shelves_complete {crate : TypeExpr} {a b : Compiled}
    (hcrate : ((shelves crate).compileDeclaration
      (.typeAlias ⟨.str "Crate", [], true, [], crate⟩)).result = .ok a)
    (hshelf : ((shelves crate).compileDeclaration (.typeAlias ⟨.str "Shelf", [], true, [],
      .array (.reference (.str "Crate") [])⟩)).result = .ok b) :
    (shelves crate).Complete where
  distinct := by simp [shelves, Declaration.name, Json.key?]
  unfiltered := ⟨_, rfl, rfl⟩
  naming := by
    intro a _ b _ firstName secondName ha hsecond hsame
    cases ha
    cases hsecond
    exact hsame
  compiles := by
    intro decl hdecl hplain
    simp only [shelves, mem_cons, not_mem_nil, or_false] at hdecl
    rcases hdecl with rfl | rfl | rfl
    · cases hplain
    · exact ⟨a, hcrate⟩
    · exact ⟨b, hshelf⟩

/-- With `type Crate = Box<number>`, the schema of crates that shelves use is compiled. -/
theorem crates_of_shelves_defined :
    (shelves (.reference (.str "Box") [.keyword .number])).Complete ∧
      ∃ compiled rejections user,
        (shelves (.reference (.str "Box") [.keyword .number])).compileAll.result =
          .ok (compiled, rejections) ∧
        user ∈ compiled ∧ .str "Crate" ∈ user.dependencies ∧
        ∃ other ∈ compiled, other.schemaName.key? = (Json.str "Crate").key? := by
  have hcomplete : (shelves (.reference (.str "Box") [.keyword .number])).Complete :=
    shelves_complete rfl rfl
  obtain ⟨compiled, rejections, hcompiled, user, huser, hcrate⟩ :
      ∃ compiled rejections,
        (shelves (.reference (.str "Box") [.keyword .number])).compileAll.result =
          .ok (compiled, rejections) ∧ ∃ user ∈ compiled, .str "Crate" ∈ user.dependencies := by
    refine ⟨_, _, rfl, ?_⟩
    exact ⟨_, List.mem_cons_of_mem _ List.mem_cons_self, List.mem_cons_self⟩
  refine ⟨hcomplete, compiled, rejections, user, hcompiled, huser, hcrate, ?_⟩
  have hdeclared : Declaration.typeAlias ⟨.str "Crate", [], true, [],
      .reference (.str "Box") [.keyword .number]⟩ ∈
      (shelves (.reference (.str "Box") [.keyword .number])).unit.declarations :=
    List.mem_cons_of_mem _ List.mem_cons_self
  rcases dependencies_defined_or_generic hcomplete hcompiled huser hcrate hdeclared rfl rfl with
    hdefined | ⟨hgeneric, -⟩
  · exact hdefined
  · exact (hgeneric rfl).elim

/-- With `type Crate = Box`, crates use the schema of boxes, which are declared and have none. -/
theorem box_of_crates_undefined :
    (shelves (.reference (.str "Box") [])).Complete ∧
      ∃ compiled rejections,
        (shelves (.reference (.str "Box") [])).compileAll.result = .ok (compiled, rejections) ∧
        (∃ user ∈ compiled, .str "Box" ∈ user.dependencies) ∧
        (∃ declaration ∈ (shelves (.reference (.str "Box") [])).unit.declarations,
          (shelves (.reference (.str "Box") [])).settings.nameOf declaration.name =
            .ok (.str "Box")) ∧
        ∀ other ∈ compiled, other.schemaName.key? ≠ (Json.str "Box").key? := by
  refine ⟨shelves_complete rfl rfl, _, _, rfl, ?_, ⟨_, List.mem_cons_self, rfl⟩, by decide⟩
  exact ⟨_, List.mem_cons_self, List.mem_cons_self⟩

end Closure

end Program

end Schemata
