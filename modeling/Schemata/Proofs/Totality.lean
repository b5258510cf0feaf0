import Schemata.Generation
import Schemata.Proofs.Outcome

/-!
# Totality of compilation

`compile_settles` says that the jobs of a well-typed program end in a schema or in an error of
compilation, and `compilation_total` that every recursion of the compiler comes to an end, for
every program, environment and context.
-/

namespace Schemata

open List

variable {name : Name} {args : List TypeExpr} {decl : Declaration} {bound : Int}

/-- The type and the environment of a job are well-typed. -/
structure Job.WellTyped (job : Job) : Prop where
  type : job.type.WellTyped
  environment : job.environment.WellTyped

namespace Program

variable {p : Program} {allowed : CompileError → Prop} {α : Type}

/-- All errors of compilation are allowed. -/
def anyError (_ : CompileError) : Prop := True

/-- Declarations are entered up to a limit that is an integer, and only where all errors are
allowed. -/
def EntersSafely (program : Program) (allowed : CompileError → Prop) : Prop :=
  ∀ declaration ∈ program.unit.declarations, program.IsEntered declaration →
    (∀ error, allowed error) ∧ ∃ bound, program.settings.depthLimit = .int bound

section Use

variable (hprogram : p.WellTyped) {env : Environment}

include hprogram

/-- Whether a declaration is a reserved interface can be told. -/
theorem reserved_ok {found : Option Declaration} (hf : ∀ decl ∈ found, decl.WellTyped) :
    ∃ d, p.reserved? found = .ok d := by
  unfold reserved?
  split
  · rename_i d
    obtain ⟨isMaybe, hmaybe⟩ := is_maybe_name_ok hprogram (hf _ rfl).name
    simp [Declaration.name] at hmaybe
    simp [hmaybe, bind, Except.bind, pure, Except.pure]
  · exact ⟨none, rfl⟩

/-- Whether a reserved interface is switched off can be told. -/
theorem off_context_ok (henv : env.WellTyped) {param : GenericParameter} (hn : param.name.IsText)
    (hdefault : ∀ t ∈ param.default, t.WellTyped) : ∃ off, offContext p param env = .ok off := by
  have hswitch : ∃ t, switchType param env = .ok t := by
    obtain ⟨key, hk⟩ := hn.key_ok
    simp only [switchType, Environment.lookup, hk, bind, Except.bind, pure, Except.pure]
    cases hb : env.binding? key with
    | some b =>
      obtain ⟨ht, hi⟩ := henv.binding (mem_of_find?_eq_some hb)
      obtain ⟨found, hf, -⟩ := substitute_ok hi ht
      exact ⟨found, hf⟩
    | none =>
      cases hf : param.default with
      | none => exact ⟨_, rfl⟩
      | some t =>
        obtain ⟨found, hf, -⟩ := substitute_ok henv (hdefault t hf)
        exact ⟨found, hf⟩
  obtain ⟨t, ht⟩ := hswitch
  obtain ⟨maybe, hmaybe⟩ := hprogram.settings.maybe
  simp only [offContext, ht, hmaybe, bind, Except.bind, pure, Except.pure]
  split <;> exact ⟨_, rfl⟩

theorem reserved_use_settles (hallowed : ∀ error, allowed error) {d : Interface}
    (hd : (Declaration.interface d).WellTyped) (henv : env.WellTyped) :
    (p.reservedUse d env).Settles allowed := by
  unfold reservedUse
  split
  · rename_i param hparams
    have hmem : param ∈ (Declaration.interface d).parameters := by
      simp [Declaration.parameters, hparams]
    have hn := hd.parameters param hmem
    have hdefault (t : TypeExpr) (ht : t ∈ param.default) : t.WellTyped :=
      hd.defaults t (mem_filterMap.2 ⟨param, hmem, ht⟩)
    refine settles_lift_bind (off_context_ok hprogram henv hn hdefault) fun _ _ => ?_
    refine settles_lift_bind hn.key_ok fun _ _ => ?_
    exact settles_pure _
  · exact settles_reject (hallowed _)

/-- What a name is compiled as can be told. -/
theorem name_use_settles (henv : env.WellTyped) (ht : (TypeExpr.reference name args).WellTyped) :
    (p.nameUse id name env args).Settles allowed := by
  obtain ⟨text, htext⟩ := ht.text_ok
  have hps (arg : TypeExpr) (harg : arg ∈ args) : arg.WellTyped := ht.part harg
  cases args with
  | nil => exact settles_pure _
  | cons a =>
    by_cases hdate : Builtin.ofName? name = some .date
    · rw [nameUse, if_pos hdate]
      exact settles_pure _
    rw [nameUse, if_neg hdate]
    refine settles_lift_bind (is_maybe_name_ok hprogram ht.own) fun isMaybe _ => ?_
    split
    · exact settles_bind settles_helper fun _ _ => settles_pure _
    · obtain ⟨found, hf, -⟩ :=
        substitute_ok henv (hps a mem_cons_self)
      have hany : ∃ any, anyKey env (id a) = .ok any := by
        simp [anyKey, hf, bind, Except.bind, pure, Except.pure]
      cases Builtin.ofName? name with
      | none =>
        simp only [map_id]
        refine settles_lift_bind ⟨_, htext⟩ fun _ _ => ?_
        exact settles_bind (settles_note _) fun _ _ => settles_pure _
      | some builtin =>
        cases builtin with
        | record => exact settles_lift_bind hany fun _ _ => settles_pure _
        | _ => exact settles_pure _

omit hprogram in
theorem instantiation_settles (hdecl : decl.WellTyped)
    (ht : (TypeExpr.reference name args).WellTyped) :
    (instantiation decl.parameters name args env).Settles allowed := by
  obtain ⟨text, htext⟩ := ht.text_ok
  refine settles_lift_bind (bind_types_ok hdecl.parameters) fun inner _ => ?_
  refine settles_lift_bind ⟨_, htext⟩ fun _ _ => ?_
  exact settles_bind (settles_note _) fun _ _ => settles_pure _

omit hprogram in
/-- At an integer limit a declaration is entered or rejected. -/
theorem check_depth_settles (hallowed : ∀ error, allowed error)
    (hlimit : p.settings.depthLimit = .int bound) (name : Name) :
    (p.checkDepth name env).Settles allowed := by
  unfold checkDepth
  split
  · have hdeep : p.tooDeep name = .compile (.genericDepth name (.int bound)) := by
      simp [tooDeep, Settings.limit, hlimit]
    rw [hdeep]
    exact settles_reject (hallowed _)
  · exact settles_pure _

theorem generic_use_settles (hallowed : ∀ error, allowed error) {inner : Environment}
    (hdecl : decl.WellTyped) (hi : inner.WellTyped) (hgeneric : decl.parameters ≠ []) :
    (p.genericUse inner decl).Settles allowed := by
  cases decl with
  | enumeration => exact (hgeneric rfl).elim
  | typeAlias => exact settles_pure _
  | interface =>
    refine settles_lift_bind (reserved_ok hprogram fun found hf => ?_) fun found hf => ?_
    · exact Option.mem_some.1 hf ▸ hdecl
    · cases found with
      | none => exact settles_pure _
      | some =>
        cases eq_of_reserved hf
        exact reserved_use_settles hprogram hallowed hdecl hi

/-- What a reference is compiled as can be told, or the reference is rejected. -/
theorem use_settles (hentered : p.EntersSafely allowed) (henv : env.WellTyped)
    (ht : (TypeExpr.reference name args).WellTyped) : (p.use env name args).Settles allowed := by
  have hn : name.IsText := ht.own
  unfold Program.use
  refine settles_lift_bind hn.key_ok fun key _ => ?_
  split
  · exact settles_pure _
  · refine settles_lift_bind (find_ok hn) fun found hf => ?_
    have hmem (decl : Declaration) (hdecl : decl ∈ found) : decl ∈ p.unit.declarations :=
      mem_of_find (Option.mem_def.1 hdecl ▸ hf)
    split
    · rename_i decl hfilter
      obtain ⟨hdecl, hparams⟩ := Option.filter_eq_some_iff.1 hfilter
      have hwell := hprogram.declarations decl (hmem decl hdecl)
      have hgeneric : decl.parameters ≠ [] := by simpa using (Bool.and_eq_true_iff.1 hparams).2
      obtain ⟨hallowed, bound, hlimit⟩ := hentered decl (hmem decl hdecl) (.inl hgeneric)
      refine settles_bind (check_depth_settles hallowed hlimit _) fun _ _ => ?_
      refine settles_bind (instantiation_settles hwell ht) fun inner hi => ?_
      refine generic_use_settles hprogram hallowed hwell ?_ hgeneric
      exact entered_well_typed hwell henv (fun _ harg => ht.part harg) (entered_of_instantiation hi)
    · refine settles_lift_bind (reserved_ok hprogram fun decl hdecl =>
        hprogram.declarations decl (hmem decl hdecl)) fun special hspecial => ?_
      cases special with
      | some =>
        obtain rfl := eq_of_reserved hspecial
        have hdecl := hmem _ rfl
        obtain ⟨hallowed, bound, hlimit⟩ := hentered _ hdecl (.inr ⟨_, hspecial⟩)
        refine settles_bind (check_depth_settles hallowed hlimit _) fun _ _ => ?_
        refine reserved_use_settles hprogram hallowed (hprogram.declarations _ hdecl) ?_
        exact Environment.no_bindings_well_typed _
      | none =>
        refine settles_bind (name_use_settles hprogram henv ht) fun _ _ => ?_
        exact settles_pure _

end Use

section Plans

variable (hprogram : p.WellTyped) {env : Environment} {ctx : Context} {t : TypeExpr} {job : Job}

include hprogram

/-- The plan of an interface can be made, unless it has an index signature beside what it extends,
or a projection of that is rejected. -/
theorem interface_plan_settles {d : Interface} (hd : (Declaration.interface d).WellTyped)
    (hproj : ∀ c ∈ d.heritage, c.projection ≠ none →
      ∀ proj kind, allowed (.unsupportedProjection proj kind))
    (hidx : d.heritage ≠ [] → d.index ≠ none → allowed .extendedIndexSignature)
    (off : Option Context) :
    (settling allowed).Plans (p.interfacePlan off env d ctx) := by
  unfold interfacePlan
  have hcs := hd.heritage d rfl
  cases hher : d.heritage with
  | nil => exact (settling _).plan_pure fun ss => finish_settles hprogram ctx _
  | cons =>
    rw [hher] at hcs hproj hidx
    dsimp only
    cases hsig : d.index with
    | some =>
      exact (settling _).plan_fail (settles_reject (hidx (cons_ne_nil _ _) (by simp [hsig])))
    | none =>
      refine (settling _).plan_pure fun ss => ?_
      refine extension_chain_settles hprogram hcs hproj _ fun s => ?_
      exact finish_settles hprogram ctx _

/-- The plan of a name can be made, unless it is a projection that is rejected. -/
theorem name_plan_settles (henv : env.WellTyped) {name : Name}
    {args : List TypeExpr} {events : List Event} {use : NameUse TypeExpr}
    (ht : (TypeExpr.reference name args).WellTyped)
    (hproj : ∀ found, Builtin.ofName? name = some (.projection found) →
      ∀ proj kind, allowed (.unsupportedProjection proj kind))
    (huse : NamedUse p env name args events use) (ss : List Schema) :
    ((p.namePlan env ctx name use).assemble ss).Settles allowed := by
  have hn : name.IsText := ht.own
  have href : (do p.finish ctx (← p.reference name)).Settles allowed :=
    settles_bind (reference_settles hprogram hn) fun _ _ => finish_settles hprogram ctx _
  cases huse with
  | bare | ignored => exact href
  | maybe | allOptional | allRequired | readonly => exact settles_pure _
  | projected hbuiltin hmaybe =>
    rename_i a rest proj
    have hkeys (keys : TypeExpr) (hkeys : keys ∈ rest.head?) : keys.WellTyped :=
      ht.part (mem_cons_of_mem _ (mem_of_mem_head? hkeys))
    have hi (found : Environment) (hf : found ∈ some env) : found.WellTyped :=
      Option.mem_some.1 hf ▸ henv
    have hallowed := hproj proj hbuiltin
    refine settles_bind (project_settles hallowed _ _ hi hkeys) fun _ _ => ?_
    exact finish_settles hprogram ctx _
  | _ => exact finish_settles hprogram ctx _

/-- The plan of a type can be made if it can be made of a reference, and an indexed access settles.
Nothing else is rejected. -/
theorem written_plan_settles (henv : env.WellTyped) {t : TypeExpr} (ht : t.WellTyped)
    (href : ∀ name args, t = .reference name args → (settling allowed).Plans (p.typePlan env ctx t))
    (haccess : ∀ base index, t = .indexed base index →
      (p.indexedAccess (some env) t).Settles allowed) :
    (settling allowed).Plans (p.typePlan env ctx t) := by
  refine (settling allowed).written_plan (modifiers_settles hprogram)
    (unsupported_settles hprogram ctx fun found hf => Option.mem_some.1 hf ▸ ht) href
    (fun arms harms ss ctx => ?_) (fun elements helements => settles_lift ?_) haccess
    fun head spans hspans => expand_settles hprogram henv (hspans ▸ ht)
  · subst harms
    exact union_settles hprogram henv (fun arm harm => ht.part (mem_filter.1 harm).1) _ _
  · subst helements
    unfold spreadType
    split
    · rename_i t hlast
      have htyped : (TypeExpr.spread t).WellTyped := ht.part (mem_of_getLast? hlast)
      obtain ⟨found, inner, hf, -, -⟩ := henv.resolve_ok (htyped.part (mem_singleton.2 rfl))
      exact ⟨_, by rw [elementType, hf]; rfl⟩
    · exact ⟨none, rfl⟩

/-- The plan of a type can be made, or the type is rejected: it is a projection or an indexed
access, or a declaration is entered for it. -/
theorem type_plan_settles (hentered : p.EntersSafely allowed) (henv : env.WellTyped)
    (ht : t.WellTyped)
    (hproj : ∀ name args found, t = .reference name args →
      Builtin.ofName? name = some (.projection found) →
      ∀ proj kind, allowed (.unsupportedProjection proj kind))
    (haccess : ∀ base index, t = .indexed base index → ∀ error, allowed error) :
    (settling allowed).Plans (p.typePlan env ctx t) := by
  refine written_plan_settles hprogram henv ht (fun name args hn => ?_)
    fun base index hindexed => ?_
  · subst hn
    refine (settling _).plan_bind (use_settles hprogram hentered henv ht) fun use huse => ?_
    cases use_of_result huse with
    | bound | aliasBody => exact (settling _).plan_through _
    | interfaceBody hfind hbody =>
      have hmem := mem_of_find hfind
      have hallowed := (hentered _ hmem hbody).1
      exact interface_plan_settles hprogram (hprogram.declarations _ hmem)
        (fun _ _ _ _ _ => hallowed _) (fun _ _ => hallowed _) _
    | name hnamed =>
      exact (settling _).plan_pure (name_plan_settles hprogram henv ht
        (fun found => hproj name args found rfl) (named_use_of_result hnamed))
  · have hallowed := haccess base index hindexed
    subst hindexed
    exact indexed_access_settles (fun _ _ => hallowed _) (fun _ => hallowed _) hprogram henv ht

omit hprogram in
/-- Jobs settle when plans can be made for a kind of jobs that only calls jobs of the same kind. -/
theorem compile_settles_of {kind : Job → Prop}
    (hplan : ∀ job, kind job → (settling allowed).Plans (p.plan job))
    (hcalls : ∀ next job, p.Calls next job → kind job → kind next) (job : Job)
    (hjob : kind job) : (p.compile job).Settles allowed := by
  induction job using job_induction with
  | h job ih =>
    rw [compile_eq_run]
    refine (settling allowed).run (hplan job hjob) fun plan hres next hnext => ?_
    have hcalled : p.Calls next job := ⟨plan, hres, hnext⟩
    exact ih next hcalled (hcalls next job hcalled hjob)

omit hprogram in
/-- A well-typed type asks for well-typed types only. -/
theorem asked_well_typed (hunit : p.unit.WellTyped) (henv : env.WellTyped) (ht : t.WellTyped)
    (h : p.Asked env t job) : job.WellTyped := by
  cases h with
  | part hpart => exact ⟨ht.within hpart, henv⟩
  | any => exact ⟨TypeExpr.any_well_typed, henv⟩
  | bound hb =>
    obtain ⟨hbound, hread⟩ := henv.binding hb
    exact ⟨hbound, hread⟩
  | spread hspread helt =>
    obtain ⟨found, inner, hf, htyped, hi⟩ := henv.resolve_ok (ht.within hspread)
    rw [elementType, hf] at helt
    obtain ⟨hpart, rfl⟩ := mem_of_element (Except.ok.inj helt)
    exact ⟨htyped.within (TypeExpr.within_of_mem_parts_unwrap hpart), hi⟩
  | body href hfind hentered hleft hi hpart =>
    subst href
    have hdecl := hunit _ (mem_of_find hfind)
    refine ⟨?_, entered_well_typed hdecl henv (fun arg harg => ht.part harg) hi⟩
    rcases hpart with hpart | rfl
    · exact hdecl.body _ hpart
    · exact TypeExpr.any_well_typed

/-- A well-typed job ends in a schema or in an error of compilation. -/
theorem compile_settles (hlimit : p.settings.depthLimit = .int bound) (job : Job)
    (hjob : job.WellTyped) : (p.compile job).Settles anyError := by
  refine compile_settles_of (fun job hjob => (settling _).job_plan fun ctx => ?_) ?_ job hjob
  · exact type_plan_settles hprogram (fun _ _ _ => ⟨fun _ => trivial, bound, hlimit⟩)
      hjob.environment hjob.type (fun _ _ _ _ _ _ _ => trivial) fun _ _ _ _ => trivial
  · rintro next job ⟨plan, hres, hnext⟩ hjob
    exact asked_well_typed hprogram.declarations hjob.environment hjob.type
      (asked_of_plan hres hnext)

/-- The plan of a declaration can be made, or the declaration is rejected: it would be entered, or
it is an interface that extends a projection or has an index signature beside what it extends. -/
theorem declaration_plan_settles (hdecl : decl.WellTyped)
    (hentered : p.IsEntered decl → ∀ error, allowed error)
    (hproj : ∀ d, decl = .interface d → ∀ c ∈ d.heritage, c.projection ≠ none →
      ∀ proj kind, allowed (.unsupportedProjection proj kind))
    (hidx : ∀ d, decl = .interface d → d.heritage ≠ [] → d.index ≠ none →
      allowed .extendedIndexSignature) :
    (settling allowed).Plans (p.declarationPlan decl) := by
  refine (settling _).declaration_plan (fun hgeneric => settles_reject (hentered (.inl hgeneric) _))
    (fun d hd => ?_) fun d hd => ?_
  · subst hd
    refine settles_lift_bind (reserved_ok hprogram fun found hf => ?_) fun found hf => ?_
    · exact Option.mem_some.1 hf ▸ hdecl
    · cases found with
      | some =>
        have hallowed := hentered (.inr ⟨_, hf⟩)
        cases eq_of_reserved hf
        exact reserved_use_settles hprogram hallowed hdecl (Environment.no_bindings_well_typed 0)
      | none =>
        dsimp only
        split
        · exact settles_pure _
        · rename_i hgeneric
          exact settles_reject (hentered (.inl fun hnone => hgeneric (List.isEmpty_iff.2 hnone)) _)
  · exact interface_plan_settles hprogram (hd ▸ hdecl) (hproj d hd) (hidx d hd)

omit hprogram in
/-- A declaration settles when its plan can be made and the jobs for its types settle. -/
theorem declaration_settles_of (hdecl : decl.WellTyped)
    (hplan : (settling allowed).Plans (p.declarationPlan decl))
    (hjobs : ∀ job : Job, job.WellTyped → job.environment = .empty →
      job.type ∈ decl.bodyTypes ∨ job.type = .keyword .any → (p.compile job).Settles allowed) :
    (p.declarationSchema decl).Settles allowed := by
  rw [declaration_schema_eq]
  refine (settling _).run hplan fun plan hres job hjob => ?_
  obtain ⟨henv, ht⟩ := job_of_declaration hres hjob
  refine hjobs job ⟨?_, henv ▸ Environment.no_bindings_well_typed 0⟩ henv ht
  rcases ht with ht | ht
  · exact hdecl.body _ ht
  · exact ht ▸ TypeExpr.any_well_typed

/-- A well-typed declaration ends in a schema or in an error of compilation. -/
theorem declaration_settles (hlimit : p.settings.depthLimit = .int bound) (hdecl : decl.WellTyped) :
    (p.declarationSchema decl).Settles anyError :=
  declaration_settles_of hdecl (declaration_plan_settles hprogram hdecl (fun _ _ => trivial)
    (fun _ _ _ _ _ _ _ => trivial) fun _ _ _ _ => trivial)
    fun job hjob _ _ => compile_settles hprogram hlimit job hjob

end Plans

/-- Texts can be freed of repetitions. -/
theorem distinct_ok {names : List Name} (h : ∀ name ∈ names, name.IsText) (seen : List Key) :
    ∃ found, Json.distinctFrom seen names = .ok found := by
  induction names generalizing seen with
  | nil => exact ⟨[], rfl⟩
  | cons name rest ih =>
    have hr := ih (forall_mem_cons.1 h).2
    obtain ⟨key, hk⟩ := (h name mem_cons_self).key_ok
    simp only [Json.distinctFrom, hk, bind, Except.bind, pure, Except.pure]
    split
    · exact hr seen
    · obtain ⟨found, hf⟩ := hr (key :: seen)
      exact ⟨name :: found, by rw [hf]⟩

/-- The names that are used are those of the dependencies in a trace. -/
theorem mem_used_names {events : List Event} :
    name ∈ usedNames events ↔ .dependency name ∈ events := by
  unfold usedNames
  rw [mem_filterMap]
  constructor
  · rintro ⟨event, hevent, hn⟩
    cases event with
    | dependency => exact Option.some.inj hn ▸ hevent
    | _ => cases hn
  · exact fun h => ⟨_, h, rfl⟩

/-- A computation that settles gives a value or an error of compilation. -/
theorem outcome_of_settles {comp : Compilation α} (h : comp.Settles anyError) :
    (∃ v, comp.result = .ok v) ∨ ∃ error, comp.result = .error (.compile error) := by
  cases hres : comp.result with
  | ok v => exact .inl ⟨v, rfl⟩
  | error failure =>
    obtain ⟨error, rfl, -⟩ := h.failure failure hres
    exact .inr ⟨error, rfl⟩

/-- A missing type is compiled to the schema of any value. -/
theorem schema_of_settles (hp : p.WellTyped) (hlimit : p.settings.depthLimit = .int bound)
    {t : Option TypeExpr} {env : Environment} (ht : ∀ found ∈ t, found.WellTyped)
    (henv : env.WellTyped) (tags : Tags) : (p.schemaOf t env tags).Settles anyError := by
  cases t with
  | some t =>
    rw [schema_of_some]
    exact compile_settles hp hlimit _ ⟨ht t rfl, henv⟩
  | none =>
    have hany (ctx : Context) : (p.unsupported none ctx).Settles anyError :=
      unsupported_settles hp ctx fun _ h => nomatch h
    unfold schemaOf inContext
    dsimp only
    split
    · exact hany _
    · split
      · exact settles_bind (hany _) fun _ _ => settles_pure _
      · exact settles_pure _

/-- A declaration whose schema settles is compiled with its name and the names it uses, or
rejected. -/
theorem compiled_settles (hp : p.WellTyped) (hs : (p.declarationSchema decl).Settles allowed) :
    (p.compileDeclaration decl).Settles allowed := by
  refine ⟨fun failure hfailure => ?_, hs.names⟩
  obtain ⟨naming, hnaming, -⟩ := hp.settings.naming
  have hn : p.settings.nameOf decl.name = .ok (naming decl.name) := by
    rw [Settings.nameOf, hnaming]
  obtain ⟨names, hnames⟩ := distinct_ok (fun name hn => hs.names name (mem_used_names.1 hn)) []
  unfold compileDeclaration at hfailure
  dsimp only at hfailure
  cases hres : (p.declarationSchema decl).result with
  | error =>
    rw [hres] at hfailure
    cases hfailure
    exact hs.failure _ hres
  | ok =>
    rw [hres, hn, Json.distinct, hnames] at hfailure
    cases hfailure

/-- A well-typed declaration is compiled, or rejected. -/
theorem compile_declaration_settles (hp : p.WellTyped) (hlimit : p.settings.depthLimit = .int bound)
    (hdecl : decl.WellTyped) : (p.compileDeclaration decl).Settles anyError :=
  compiled_settles hp (declaration_settles hp hlimit hdecl)

/-- Compilation comes to an end. All its recursions are well founded: the one of jobs, which follows
parameters to arguments and enters declarations, and those that follow parameters, walk along
indexed accesses and search for members. In a well-typed program with an integer as its limit, every
type in every environment and every declaration ends in a schema or in an error of compilation. -/
theorem compilation_total (program : Program) :
    ComputedBy (fun compile job => do (← program.plan job).run compile) program.Calls
        program.compile ∧
      (∀ declaration, program.declarationSchema declaration =
        (do (← program.declarationPlan declaration).run program.compile)) ∧
      ComputedBy Environment.resolveStep Environment.Follows
        (fun task => task.2.resolve task.1) ∧
      ComputedBy (accessStep program) AccessCalls (fun task => program.accessChain
        (task.environment.chain (.indexed task.base task.index)) task.later) ∧
      ComputedBy (indexedTypeStep program) IndexedCalls
        (fun task => program.chainType (task.2.chain task.1)) ∧
      (∀ key, ComputedBy (memberStep program key) program.MemberCalls (program.memberFrom key) ∧
        ∀ container, program.memberType (some container) key =
          program.memberFrom key ([], container)) ∧
      (program.WellTyped → ∀ bound, program.settings.depthLimit = .int bound →
        (∀ type environment tags, (∀ found ∈ type, found.WellTyped) → environment.WellTyped →
          (∃ schema, (program.schemaOf type environment tags).result = .ok schema) ∨
            ∃ error, (program.schemaOf type environment tags).result = .error (.compile error)) ∧
        ∀ declaration, declaration.WellTyped →
          (∃ compiled, (program.compileDeclaration declaration).result = .ok compiled) ∨
            ∃ error,
              (program.compileDeclaration declaration).result = .error (.compile error)) := by
  refine ⟨⟨program.compile_eq_run, fun _ _ _ h => run_congr h, program.calls_well_founded⟩,
    program.declaration_schema_eq, Environment.resolve_computed, program.access_computed,
    program.indexed_type_computed,
    fun key => ⟨program.member_type_computed key, program.member_type_eq key⟩, ?_⟩
  intro hprogram bound hlimit
  refine ⟨fun type environment tags htype henvironment => ?_, fun declaration hdeclaration => ?_⟩
  · exact outcome_of_settles (schema_of_settles hprogram hlimit htype henvironment tags)
  · exact outcome_of_settles (compile_declaration_settles hprogram hlimit hdeclaration)

/-- The program of `type Endless<T> = Endless<T[]>` under the usual settings. -/
def endless : Program where
  unit :=
    { path := .null
      declarations := [.typeAlias
        { name := .str "Endless"
          tags := []
          exported := true
          parameters := [⟨.str "T", none, none⟩]
          type := .reference (.str "Endless") [.array (.reference (.str "T") [])] }]
      imports := [] }
  settings := .default

/-- An alias that instantiates itself without end is well-typed. -/
theorem endless_well_typed : endless.WellTyped where
  declarations := by
    intro decl hdecl
    cases mem_singleton.1 hdecl
    refine ⟨⟨_, rfl⟩, ?_, fun _ h => (nomatch h), ?_, fun _ h => nomatch h⟩
    · intro param hparam
      cases mem_singleton.1 hparam
      exact ⟨_, rfl⟩
    · intro t ht
      cases mem_singleton.1 ht
      refine .intro ⟨_, rfl⟩ fun array harray => ?_
      cases mem_singleton.1 harray
      refine .intro trivial fun elt helt => ?_
      cases mem_singleton.1 helt
      exact .intro ⟨_, rfl⟩ fun _ h => nomatch h
  settings := Settings.default_well_typed

/-- The type `Endless<never>` ends in a schema or in an error of compilation. -/
theorem endless_compilation_ends :
    let never : TypeExpr := .reference (.str "Endless") [.keyword .never]
    (∃ schema, (endless.schemaOf (some never) .empty []).result = .ok schema) ∨
      ∃ error, (endless.schemaOf (some never) .empty []).result = .error (.compile error) := by
  intro never
  have hnever : never.WellTyped := by
    refine .intro ⟨_, rfl⟩ fun argument hargument => ?_
    cases List.mem_singleton.1 hargument
    exact .intro trivial fun _ h => nomatch h
  obtain ⟨htypes, -⟩ := (compilation_total endless).2.2.2.2.2.2 endless_well_typed 32 rfl
  exact htypes (some never) .empty [] (fun _ h => Option.mem_some.1 h ▸ hnever)
    (Environment.no_bindings_well_typed 0)

end Program

end Schemata
