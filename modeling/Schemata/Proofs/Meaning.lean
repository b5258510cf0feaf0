import Schemata.Proofs.Agreement
import Schemata.Proofs.DefinitionOrder

/-!
# Preservation of meaning

In a program of the structural core whose declarations without parameters are compiled without a
warning, the schema of such a declaration accepts exactly the values that belong to its type,
`meaning_preserved`. Both are least relations over all declarations: each step of the one is a step
of the other, since the schema of a declaration agrees with its body, `declaration_agrees`. A
reference to a generic declaration has to give an argument; `bare_reference_diverges` is about one
that leaves all of them to defaults.
-/

namespace Schemata

open List
open Traced (bind_ok_iff lift_ok clean_bind_iff clean_pure_iff clean_lift)

variable {type body : TypeExpr} {decl : Declaration}

/-- What the schemas of declarations accept is what belongs to the declarations. -/
def Related (program : Program) (accepted known : Key → Value → Prop) : Prop :=
  ∀ key schemaKey, program.Paired key schemaKey → ∀ value,
    accepted schemaKey value ↔ known key value

namespace Program

variable {s : Schema}

section References

variable {p : Program} {accepted known : Key → Value → Prop} {env : Environment} {ctx : Context}
  {name : Name} {key : Key} {args : List TypeExpr} {d : Interface}

/-- A bound name is left to the type of its binding. -/
theorem type_plan_bound {b : Binding Environment} (hk : name.key? = some key)
    (hb : env.binding? key = some b) :
    p.typePlan env ctx (.reference name args) = pure (.through ⟨b.type, b.environment, ctx⟩) := by
  rw [typePlan, use, key_of_key? hk, lift_ok, pure_bind, hb]
  rfl

/-- A name that is neither bound nor entered is used with its arguments. -/
theorem type_plan_name (hk : name.key? = some key) (hb : env.binding? key = none)
    (hfilter : (p.declaration? key).filter (fun decl =>
      !args.isEmpty && !decl.parameters.isEmpty) = none)
    (hreserved : p.reserved? (p.declaration? key) = .ok none) :
    p.typePlan env ctx (.reference name args) =
      (do let use ← p.nameUse id name env args
          return p.namePlan env ctx name use) := by
  have hn := key_of_key? hk
  rw [typePlan, use, hn, lift_ok, pure_bind, hb]
  dsimp only
  rw [p.find_of_key hn, lift_ok, pure_bind, hfilter]
  dsimp only
  rw [hreserved, lift_ok, pure_bind]
  simp only [bind_assoc, pure_bind, usePlan]

/-- A generic declaration with arguments is entered. -/
theorem type_plan_generic {decl : Declaration} (hk : name.key? = some key)
    (hb : env.binding? key = none)
    (hf : p.declaration? key = some decl) (hsome : args ≠ [])
    (hparams : decl.parameters ≠ []) :
    p.typePlan env ctx (.reference name args) =
      (do p.checkDepth decl.name env
          let inner ← instantiation decl.parameters name args env
          let use ← p.genericUse inner decl
          p.usePlan env ctx name use) := by
  have hn := key_of_key? hk
  have hfilter : (some decl).filter (fun decl =>
      !args.isEmpty && !decl.parameters.isEmpty) = some decl := by
    simp [hsome, hparams]
  rw [typePlan, use, hn, lift_ok, pure_bind, hb]
  dsimp only
  rw [p.find_of_key hn, lift_ok, pure_bind, hf, hfilter]
  simp only [bind_assoc]

variable (hprogram : CoreProgram p false) (hcontext : ctx.Bare)
  (henvironment : env.InCore p false)

include hprogram in
/-- The name of a known type is used with its arguments. -/
theorem type_plan_builtin {builtin : Builtin} (hn : Builtin.ofName? name = some builtin)
    (hscope : Unbound env.scope name) (ctx : Context) (args : List TypeExpr) :
    p.settings.isMaybeName name = .ok false ∧
      p.typePlan env ctx (.reference name args) =
        (do let use ← p.nameUse id name env args
            return p.namePlan env ctx name use) := by
  obtain ⟨text, rfl, -⟩ := Builtin.mem_names_of_name hn
  have hnone := hprogram.undeclared hn (.text text) rfl
  refine ⟨hprogram.not_maybe rfl, type_plan_name rfl ?_ (by rw [hnone]; rfl) (by rw [hnone]; rfl)⟩
  exact Environment.binding_of_unbound hscope rfl

include hprogram hcontext henvironment in
theorem array_of_plan_agrees {elt : TypeExpr} (hn : Builtin.ofName? name = some .array)
    (hscope : Unbound env.scope name) (helt : Core p false env.scope elt) :
    PlanAgrees p accepted known ⟨.reference name [elt], env, ctx⟩
      (p.typePlan env ctx (.reference name [elt])) := by
  obtain ⟨hmaybe, hplan⟩ := type_plan_builtin hprogram hn hscope ctx [elt]
  have huse : p.nameUse id name env [elt] = pure (.array elt) := by
    simp [nameUse, hn, hmaybe, lift_ok]
  rw [hplan, huse, pure_bind]
  refine array_plan_agrees hcontext henvironment helt fun v => ?_
  rw [Environment.instantiate_unbound hscope]
  exact belongs_array_of hn (hprogram.undeclared hn)

include hprogram hcontext henvironment in
theorem readonly_plan_agrees (hn : Builtin.ofName? name = some .readonly)
    (hscope : Unbound env.scope name) (ht : Core p false env.scope type) :
    PlanAgrees p accepted known ⟨.reference name [type], env, ctx⟩
      (p.typePlan env ctx (.reference name [type])) := by
  obtain ⟨hmaybe, hplan⟩ := type_plan_builtin hprogram hn hscope ctx [type]
  have huse : p.nameUse id name env [type] = pure (.adjusted type id) := by
    simp [nameUse, hn, hmaybe, lift_ok]
  rw [hplan, huse, pure_bind]
  refine plan_agrees_through ⟨hcontext, henvironment, ht⟩ rfl fun v => ?_
  rw [Job.closed, Job.closed, Environment.instantiate_unbound hscope]
  exact (belongs_readonly hn (hprogram.undeclared hn)).symm

/-- The type of texts in parentheses is in the core. -/
theorem string_core {scope : Scope} (h : type.unwrap = .keyword .string) :
    Core p false scope type := by
  fun_induction TypeExpr.unwrap type with
  | case1 type ih => exact .paren (ih h)
  | case2 => exact h ▸ .keyword (by decide)

/-- Parameters do not matter to the type of texts in parentheses. -/
theorem unwrap_instantiate_string {sub : Substitution} (h : type.unwrap = .keyword .string) :
    (type.instantiate sub).unwrap = .keyword .string := by
  fun_induction TypeExpr.unwrap type with
  | case1 type ih => rw [TypeExpr.instantiate, TypeExpr.unwrap, ih h]
  | case2 =>
    rw [h, TypeExpr.instantiate, TypeExpr.unwrap]
    simp

include hprogram hcontext henvironment in
theorem record_plan_agrees {keyType : TypeExpr} (hn : Builtin.ofName? name = some .record)
    (hscope : Unbound env.scope name) (hstring : keyType.unwrap = .keyword .string)
    (ht : Core p false env.scope type) :
    PlanAgrees p accepted known ⟨.reference name [keyType, type], env, ctx⟩
      (p.typePlan env ctx (.reference name [keyType, type])) := by
  obtain ⟨hmaybe, hplan⟩ := type_plan_builtin hprogram hn hscope ctx [keyType, type]
  have hclosed (v : Value) : Belongs p known
      (Job.mk (.reference name [keyType, type]) env ctx).closed v ↔
        ∃ fields, v = .object fields ∧ ∀ field ∈ fields,
          Belongs p known (type.instantiate env.close) field.2 := by
    rw [Job.closed, Environment.instantiate_unbound hscope]
    exact belongs_record hn (hprogram.undeclared hn) (unwrap_instantiate_string hstring)
  have huse : p.nameUse id name env [keyType, type] =
      (do let any ← anyKey env keyType
          return .record (if any then none else some keyType) (some type)) := by
    simp [nameUse, hn, hmaybe, lift_ok]
  rw [hplan, huse, bind_assoc]
  intro plan ss s hf hdone hassemble
  obtain ⟨any, -, hf⟩ := clean_bind_iff.1 hf
  rw [pure_bind, clean_pure_iff] at hf
  subst hf
  cases any with
  | true =>
    cases hdone with
    | cons ha hr =>
      cases hr
      refine agrees_of_finish hcontext (fun v => ?_) hassemble
      rw [hclosed, reverse_singleton, Schema.accepts_record]
      simp only [ha.accepts_iff henvironment ht, Option.getD_some]
  | false =>
    -- The keys are checked, and every text passes.
    cases hdone with
    | cons ha hr =>
      cases hr with
      | cons hkeys hnone =>
        cases hnone
        refine agrees_of_finish hcontext (fun v => ?_) hassemble
        have htext (text : String) : Belongs p known
            (keyType.instantiate env.close) (.text text) := by
          rw [← belongs_instantiate_unwrap, hstring, TypeExpr.instantiate, belongs_keyword]
          exact ⟨text, rfl⟩
        simp only [hclosed, reverse_cons, reverse_nil, nil_append,
          singleton_append, Schema.accepts_keyed_record,
          ha.accepts_iff henvironment ht,
          hkeys.accepts_iff henvironment (string_core hstring), htext, true_and,
          Option.getD_some]

include hcontext henvironment in
theorem parameter_plan_agrees (hk : name.key? = some key) (hscope : env.scope key = true) :
    PlanAgrees p accepted known ⟨.reference name [], env, ctx⟩
      (p.typePlan env ctx (.reference name [])) := by
  obtain ⟨b, hb⟩ := Option.isSome_iff_exists.1 hscope
  have hmem := mem_of_find?_eq_some hb
  rw [type_plan_bound hk hb]
  cases henvironment with
  | intro types environments =>
    refine plan_agrees_through ⟨hcontext, environments b hmem, types b hmem⟩ rfl fun v => ?_
    rw [Job.closed, Job.closed, Environment.instantiate_bound hk hb]

/-- The schema of a name is a reference to the name of the schema. -/
theorem reference_of_clean (h : (p.reference name).Clean s) :
    ∃ schemaName, p.settings.nameOf name = .ok schemaName ∧ s = .reference schemaName := by
  obtain ⟨schemaName, hn, h⟩ := clean_bind_iff.1 h
  obtain ⟨done, -, h⟩ := clean_bind_iff.1 h
  exact ⟨schemaName, clean_lift hn, (clean_pure_iff.1 h).symm⟩

include hprogram hcontext in
theorem named_plan_agrees (hrel : Related p accepted known) (hf : decl ∈ p.unit.declarations)
    (hscope : Unbound env.scope decl.name) (hparams : decl.parameters = []) :
    PlanAgrees p accepted known ⟨.reference decl.name [], env, ctx⟩
      (p.typePlan env ctx (.reference decl.name [])) := by
  obtain ⟨key, hk⟩ := (hprogram.declarations decl hf).key
  obtain ⟨schemaKey, hschemaKey⟩ := hprogram.named decl hf
  have hd := hprogram.declaration_eq hf hk
  have huse : p.nameUse id decl.name env [] = pure .schema := by
    simp [nameUse, (hprogram.declarations decl hf).name]
  rw [type_plan_name hk (Environment.binding_of_unbound hscope hk) (by simp)
    (by rw [hd, hprogram.not_reserved hf]), huse, pure_bind]
  refine plan_agrees_pure fun ss s hdone hassemble => ?_
  obtain ⟨inner, hi, hassemble⟩ := clean_bind_iff.1 hassemble
  obtain ⟨schemaName, hn, rfl⟩ := reference_of_clean hi
  have hs : schemaName.key? = some schemaKey := by
    simpa only [schemaKey?, hn] using hschemaKey
  refine agrees_of_finish hcontext (fun v => ?_) hassemble
  rw [Job.closed, Environment.instantiate_unbound hscope, map_nil,
    belongs_named hk hd hparams, Schema.accepts_reference,
    ← hrel key schemaKey ⟨decl, hf, hparams, hk, hschemaKey⟩ v]
  simp [hs]

include hcontext henvironment in
/-- The plan of an interface that extends no other and has no tags is that of an object type. -/
theorem interface_plan_agrees (htags : d.tags = []) (hher : d.heritage = [])
    (hcore : Core p false env.scope (.object d.members d.index)) :
    PlanAgrees p accepted known ⟨.object d.members d.index, env, ctx⟩
      (p.interfacePlan none env d ctx) := by
  have hstrict : (p.tags d.tags).strict = false := by
    simp [Program.tags, htags, Tags.strict]
  have hplan : p.interfacePlan none env d ctx =
      pure (p.objectPlan none env d.members d.index (p.finish ctx)) := by
    unfold interfacePlan
    simp only [hher, hstrict, Bool.false_eq_true, if_false, Schema.withModifiers_nil]
  rw [hplan]
  exact object_plan_agrees hcontext henvironment hcore

/-- The body of an interface that has one is an object type. -/
theorem body_of_interface (h : (Declaration.interface d).body? = some body) :
    d.heritage = [] ∧ body = .object d.members d.index := by
  simp only [Declaration.body?] at h
  split at h
  · rename_i hher
    cases h
    exact ⟨List.isEmpty_iff.1 hher, rfl⟩
  · cases h

include hprogram hcontext henvironment in
/-- What a generic declaration is used as agrees with its body. -/
theorem body_use_agrees {outer : Environment} {use : Use} (hf : decl ∈ p.unit.declarations)
    (hbody : decl.body? = some body) (hcore : Core p false env.scope body)
    (huse : (p.genericUse env decl).Clean use) :
    PlanAgrees p accepted known ⟨body, env, ctx⟩ (p.usePlan outer ctx name use) := by
  have htags := (hprogram.declarations decl hf).tags
  cases decl with
  | enumeration => cases hbody
  | typeAlias =>
    cases hbody
    cases clean_pure_iff.1 huse
    exact plan_agrees_through ⟨hcontext, henvironment, hcore⟩ rfl fun _ => Iff.rfl
  | interface =>
    obtain ⟨hher, rfl⟩ := body_of_interface hbody
    rw [genericUse, hprogram.not_reserved hf, lift_ok, pure_bind] at huse
    cases clean_pure_iff.1 huse
    exact interface_plan_agrees hcontext henvironment htags hher hcore

include hprogram hcontext henvironment in
theorem generic_plan_agrees {decl : Declaration} (hf : decl ∈ p.unit.declarations)
    (hscope : Unbound env.scope decl.name)
    (hparams : decl.parameters ≠ []) (hsome : args ≠ [])
    (hsupplied : ∀ param ∈ decl.parameters.drop args.length, param.default.isSome)
    (hargs : ∀ arg ∈ args, Core p false env.scope arg) :
    PlanAgrees p accepted known ⟨.reference decl.name args, env, ctx⟩
      (p.typePlan env ctx (.reference decl.name args)) := by
  have hcoreDeclaration := hprogram.declarations decl hf
  obtain ⟨key, hk⟩ := hcoreDeclaration.key
  obtain ⟨body, hbody, hcore⟩ := hcoreDeclaration.body
  have hd := hprogram.declaration_eq hf hk
  intro plan ss s hplan hdone hassemble
  rw [type_plan_generic hk (Environment.binding_of_unbound hscope hk) hd hsome hparams] at hplan
  obtain ⟨checked, -, hplan⟩ := clean_bind_iff.1 hplan
  obtain ⟨inner, hi, hplan⟩ := clean_bind_iff.1 hplan
  obtain ⟨use, huse, hplan⟩ := clean_bind_iff.1 hplan
  have hbind := bind_types_of_instantiation hi.result
  have hdefaults : CoreDefaults p false env.enter.scope decl.parameters := hcoreDeclaration.defaults
  obtain ⟨hinnerCore, hinnerScope⟩ :=
    in_core_bind_types henvironment hargs hsupplied hdefaults in_core_enter hbind
  -- The body in its environment is the instance of the declaration.
  have hinstance : decl.instance?
      (args.map (TypeExpr.instantiate env.close)) = some (body.instantiate inner.close) := by
    rw [Declaration.instance?, hbody, bind_types_close hbind]
    rfl
  have hbodyCore : Core p false inner.scope body := by
    rw [hinnerScope]
    exact hcore
  refine Agrees.of_values (body_use_agrees hprogram hcontext hinnerCore hf hbody hbodyCore huse
    plan ss s hplan hdone hassemble) rfl fun v => ?_
  rw [Job.closed, Job.closed, Environment.instantiate_unbound hscope,
    belongs_generic hk hd hcoreDeclaration.name hparams hinstance]

end References

section Main

variable {p : Program} {accepted known : Key → Value → Prop}
  (hprogram : CoreProgram p false) (hrelated : Related p accepted known)

include hprogram hrelated

/-- The plan of a type of the core agrees with it. -/
theorem type_plan_agrees {env : Environment} {ctx : Context} (hjob : CoreJob p ⟨type, env, ctx⟩) :
    PlanAgrees p accepted known ⟨type, env, ctx⟩ (p.typePlan env ctx type) := by
  obtain ⟨hctx, henv, ht⟩ := hjob
  cases ht with
  | keyword h => exact keyword_plan_agrees hctx h
  | literal => exact literal_plan_agrees hctx
  | array h =>
    refine array_plan_agrees hctx henv h fun v => ?_
    rw [TypeExpr.instantiate, belongs_array]
  | tuple h => exact tuple_plan_agrees hctx henv h
  | restTuple h hr => exact rest_tuple_plan_agrees hctx henv hprogram h hr
  | union hsome h => exact union_plan_agrees hctx henv hsome h
  | intersection hsome h => exact intersection_plan_agrees hctx henv hsome h
  | object hnames htyped htags hms hkeys hidx =>
    exact object_plan_agrees hctx henv (.object hnames htyped htags hms hkeys hidx)
  | paren h => exact paren_plan_agrees hctx henv h
  | parameter hk hscope => exact parameter_plan_agrees hctx henv hk hscope
  | arrayOf hn hscope h =>
    exact array_of_plan_agrees hprogram hctx henv hn hscope h
  | readonly hn hscope h =>
    exact readonly_plan_agrees hprogram hctx henv hn hscope h
  | record hn hscope hk h =>
    exact record_plan_agrees hprogram hctx henv hn hscope hk h
  | named hf hscope hparams =>
    exact named_plan_agrees hprogram hctx hrelated hf hscope hparams
  | generic hf hscope hparams hsome hsupplied h =>
    exact generic_plan_agrees hprogram hctx henv hf hscope hparams
      (hsome.resolve_left Bool.false_ne_true) hsupplied h

/-- A job of the core that is done without a warning gives a schema that agrees with it. -/
theorem agrees_of_clean (job : Job) : ∀ s, (p.compile job).Clean s →
    CoreJob p job → Agrees p accepted known job s := by
  induction job using job_induction with
  | h job ih =>
    intro s hclean hjob
    -- Without tags nothing is written as source text, so the type alone decides the plan.
    have ht : p.plan job = p.typePlan job.environment job.context job.type := by
      rw [Program.plan, hjob.context.tags]
      rfl
    rw [compile_eq_run] at hclean
    refine run_agrees ?_ (fun plan hplan next hnext => ih next ⟨plan, hplan, hnext⟩) hclean
    rw [ht]
    exact type_plan_agrees hprogram hrelated hjob

omit hrelated in
/-- The plan of a declaration without parameters agrees with its body. -/
theorem declaration_plan_agrees (hf : decl ∈ p.unit.declarations) (hparams : decl.parameters = [])
    (hbody : decl.body? = some body) (hcore : Core p false Environment.empty.scope body) :
    PlanAgrees p accepted known ⟨body, .empty, {}⟩ (p.declarationPlan decl) := by
  have hempty : Environment.empty.InCore p false :=
    .intro (fun _ h => nomatch h) fun _ h => nomatch h
  have htags := (hprogram.declarations decl hf).tags
  cases decl with
  | enumeration => cases hbody
  | typeAlias d =>
    cases hbody
    have hnone : p.tags d.tags = [] := by
      simp [Program.tags, show d.tags = [] from htags]
    rw [declarationPlan, show d.parameters = [] from hparams, hnone]
    exact plan_agrees_through ⟨bare_default, hempty, hcore⟩ rfl fun _ => Iff.rfl
  | interface d =>
    obtain ⟨hher, rfl⟩ := body_of_interface hbody
    rw [declarationPlan, interfaceUse, hprogram.not_reserved hf, lift_ok, pure_bind,
      show d.parameters = [] from hparams]
    exact interface_plan_agrees bare_default hempty htags hher hcore

/-- The schema of a declaration that is compiled without a warning accepts what belongs to its
body. -/
theorem declaration_agrees (hf : decl ∈ p.unit.declarations) (hparams : decl.parameters = [])
    (hinstance : decl.instance? [] = some body) (hclean : (p.declarationSchema decl).Clean s)
    (v : Value) : s.Accepts accepted v ↔ Belongs p known body v := by
  obtain ⟨found, hbody, hcore⟩ := (hprogram.declarations decl hf).body
  rw [Declaration.instance?, hbody, hparams] at hinstance
  cases hinstance
  rw [hparams] at hcore
  rw [declaration_schema_eq] at hclean
  have hagrees := run_agrees (declaration_plan_agrees hprogram hf hparams hbody hcore)
    (fun _ _ next _ => agrees_of_clean hprogram hrelated next) hclean v
  rw [hagrees]
  simp only [Context.Allows, Bool.false_eq_true, false_and, or_self, false_or]
  rfl

end Main

section Units

variable {p : Program} (hprogram : CoreProgram p false) {compiled : Compiled} {a b : Key}

/-- A declaration that is compiled with no warnings to show is compiled without a warning. -/
theorem clean_of_compiled (h : (p.compileDeclaration decl).result = .ok compiled)
    (hsilent : compiled.warnings = []) : (p.declarationSchema decl).Clean compiled.schema := by
  obtain ⟨hs, -, -, hwarnings, -⟩ := compiled_of_result h
  exact ⟨hs, hwarnings ▸ hsilent⟩

/-- A compiled declaration has the key of its schema. -/
theorem schema_key_of_compiled (h : (p.compileDeclaration decl).result = .ok compiled) :
    p.schemaKey? decl = compiled.schemaName.key? := by
  obtain ⟨-, hn, -⟩ := compiled_of_result h
  rw [schemaKey?, hn]

/-- Declarations that are compiled or rejected one by one are compiled together. -/
theorem compile_each_ok {declarations : List Declaration}
    (h : ∀ decl ∈ declarations,
      (∃ compiled, (p.compileDeclaration decl).result = .ok compiled) ∨
        ∃ error, (p.compileDeclaration decl).result = .error (.compile error)) :
    ∃ constants rejections, (p.compileEach declarations).result = .ok (constants, rejections) ∧
      ∀ decl ∈ declarations, ∀ compiled,
        (p.compileDeclaration decl).result = .ok compiled → compiled ∈ constants := by
  induction declarations with
  | nil => exact ⟨[], [], rfl, fun _ h => nomatch h⟩
  | cons decl rest ih =>
    obtain ⟨constants, rejections, hr, hmem⟩ := ih (forall_mem_cons.1 h).2
    rcases h decl mem_cons_self with ⟨compiled, hcomp⟩ | ⟨error, herror⟩
    · refine ⟨compiled :: constants, rejections, ?_, ?_⟩
      · unfold compileEach
        dsimp only
        split
        · rename_i herror
          cases hcomp.symm.trans herror
        · exact bind_ok_iff.2 ⟨compiled, hcomp, bind_ok_iff.2 ⟨_, hr, rfl⟩⟩
      · intro found hf result hres
        rcases mem_cons.1 hf with rfl | hf
        · rw [hcomp] at hres
          cases hres
          exact mem_cons_self
        · exact mem_cons_of_mem _ (hmem found hf result hres)
    · refine ⟨constants, ⟨error, decl.name⟩ :: rejections, ?_, ?_⟩
      · unfold compileEach
        dsimp only
        split
        · rename_i hrejected
          cases herror.symm.trans hrejected
          exact bind_ok_iff.2 ⟨(), rfl, bind_ok_iff.2 ⟨_, hr, rfl⟩⟩
        · rename_i hother
          exact (hother error herror).elim
      · intro found hf result hres
        rcases mem_cons.1 hf with rfl | hf
        · rw [herror] at hres
          cases hres
        · exact hmem found hf result hres

include hprogram

/-- A generic declaration is rejected on its own. -/
theorem generic_rejected (hf : decl ∈ p.unit.declarations) (hparams : decl.parameters ≠ []) :
    ∃ error, (p.compileDeclaration decl).result = .error (.compile error) := by
  have hnonempty : decl.parameters.isEmpty = false := by simpa using hparams
  have hs : ∃ error, p.declarationSchema decl = Compilation.reject error := by
    cases decl with
    | enumeration => exact (hparams rfl).elim
    | typeAlias d =>
      refine ⟨.genericAlias, ?_⟩
      rw [declarationSchema, show d.parameters.isEmpty = false from hnonempty]
      rfl
    | interface d =>
      refine ⟨.genericInterface, ?_⟩
      rw [declarationSchema, hprogram.not_reserved hf, lift_ok, pure_bind,
        show d.parameters.isEmpty = false from hnonempty]
      rfl
  obtain ⟨error, hs⟩ := hs
  refine ⟨error, ?_⟩
  unfold compileDeclaration
  dsimp only
  rw [hs]
  rfl

/-- A declaration has one schema. -/
theorem paired_schema {key : Key} (ha : p.Paired key a) (hsecond : p.Paired key b) : a = b := by
  obtain ⟨decl, hf, -, hk, hn⟩ := ha
  obtain ⟨other, hother, -, hotherKey, hotherName⟩ := hsecond
  cases hprogram.eq_of_key hf hother (hk.trans hotherKey.symm)
  exact Option.some.inj (hn.symm.trans hotherName)

/-- Declarations of the same schema are the same. -/
theorem eq_of_schema {a b : Declaration} (ha : a ∈ p.unit.declarations)
    (hsecond : b ∈ p.unit.declarations) (h : p.schemaKey? a = p.schemaKey? b) : a = b :=
  hprogram.eq_of_key ha hsecond (by rw [hprogram.naming a ha b hsecond h])

/-- A schema is that of one declaration. -/
theorem paired_key {schemaKey : Key} (ha : p.Paired a schemaKey)
    (hsecond : p.Paired b schemaKey) : a = b := by
  obtain ⟨decl, hf, -, hk, hn⟩ := ha
  obtain ⟨other, hother, -, hotherKey, hotherName⟩ := hsecond
  cases eq_of_schema hprogram hf hother (hn.trans hotherName.symm)
  exact Option.some.inj (hk.symm.trans hotherKey)

variable {constants : List Compiled}
  (hclean : ∀ declaration ∈ p.unit.declarations, ∀ compiled,
    declaration.parameters = [] → (p.compileDeclaration declaration).result = .ok compiled →
      (p.declarationSchema declaration).Clean compiled.schema)

include hclean

/-- What a constant accepts belongs to its declaration. -/
theorem inhabits_of_validates
    (hsound : ∀ constant ∈ constants, ∃ decl ∈ p.unit.declarations,
      (p.compileDeclaration decl).result = .ok constant)
    {schemaKey : Key} {v : Value} (h : Validates constants schemaKey v) :
    ∀ key, p.Paired key schemaKey → Inhabits p key v := by
  induction h with
  | @intro constant schemaKey v accepted hc hk hknown haccepts ih =>
    rintro key ⟨decl, hf, hparams, hn, hs⟩
    obtain ⟨source, hsource, hcomp⟩ := hsound constant hc
    have hsame : p.schemaKey? source = p.schemaKey? decl := by
      rw [schema_key_of_compiled hcomp, hk, hs]
    rw [eq_of_schema hprogram hsource hf hsame] at hcomp
    obtain ⟨found, hbody, -⟩ := (hprogram.declarations decl hf).body
    obtain ⟨body, hinstance⟩ : ∃ body, decl.instance? [] = some body := by
      rw [Declaration.instance?, hbody]
      exact ⟨_, rfl⟩
    -- A type under a name has the values that the schema of the name accepts.
    have hrel : Related p accepted fun key v =>
        ∃ schemaKey, p.Paired key schemaKey ∧ accepted schemaKey v := by
      intro key schemaKey hpaired v
      refine ⟨fun h => ⟨schemaKey, hpaired, h⟩, ?_⟩
      rintro ⟨other, hother, h⟩
      rwa [paired_schema hprogram hpaired hother]
    refine .intro (hprogram.declaration_eq hf hn) hparams hinstance ?_
      ((declaration_agrees hprogram hrel hf hparams hinstance
        (hclean decl hf constant hparams hcomp) v).1 haccepts)
    rintro other found ⟨otherSchema, hpaired, h⟩
    exact ih otherSchema found h other hpaired

/-- What belongs to a declaration is accepted by its constant. -/
theorem validates_of_inhabits
    (hcomplete : ∀ decl ∈ p.unit.declarations, decl.parameters = [] →
      ∃ compiled ∈ constants, (p.compileDeclaration decl).result = .ok compiled)
    {key : Key} {v : Value} (h : Inhabits p key v) :
    ∀ schemaKey, p.Paired key schemaKey → Validates constants schemaKey v := by
  induction h with
  | @intro key decl body v known hd hparams hinstance hknown hbelongs ih =>
    rintro schemaKey ⟨source, hsource, -, hn, hs⟩
    cases (hprogram.declaration_eq hsource hn).symm.trans hd
    obtain ⟨constant, hc, hcomp⟩ := hcomplete decl hsource hparams
    have hk : constant.schemaName.key? = some schemaKey := by
      rw [← schema_key_of_compiled hcomp, hs]
    -- The schema of a name accepts what the declaration under it is known to contain.
    have hrel : Related p
        (fun schemaKey v => ∃ key, p.Paired key schemaKey ∧ known key v) known := by
      intro key schemaKey hpaired v
      refine ⟨?_, fun h => ⟨key, hpaired, h⟩⟩
      rintro ⟨other, hother, h⟩
      rwa [paired_key hprogram hpaired hother]
    refine .intro hc hk ?_
      ((declaration_agrees hprogram hrel hsource hparams hinstance
        (hclean decl hsource constant hparams hcomp) v).2 hbelongs)
    rintro otherSchema found ⟨other, hpaired, h⟩
    exact ih other found h otherSchema hpaired

end Units

/-- The meaning of a program of the structural core is preserved. If every declaration without
parameters is compiled, and without a warning, then the program is compiled, and the constants of
those declarations accept exactly the values that belong to them. -/
theorem meaning_preserved (program : Program) (hprogram : CoreProgram program false)
    (hcompiled : ∀ declaration ∈ program.unit.declarations, declaration.parameters = [] →
      ∃ compiled, (program.compileDeclaration declaration).result = .ok compiled ∧
        compiled.warnings = []) :
    ∃ constants rejections,
      (program.compileEach program.unit.declarations).result = .ok (constants, rejections) ∧
      ∀ declaration ∈ program.unit.declarations, declaration.parameters = [] →
        ∀ key schemaKey, declaration.name.key? = some key →
          program.schemaKey? declaration = some schemaKey →
          ∀ value, Inhabits program key value ↔ Validates constants schemaKey value := by
  have houtcome (declaration : Declaration) (hfound : declaration ∈ program.unit.declarations) :
      (∃ compiled, (program.compileDeclaration declaration).result = .ok compiled) ∨
        ∃ error, (program.compileDeclaration declaration).result = .error (.compile error) := by
    by_cases hparameters : declaration.parameters = []
    · obtain ⟨compiled, hresult, -⟩ := hcompiled declaration hfound hparameters
      exact .inl ⟨compiled, hresult⟩
    · exact .inr (generic_rejected hprogram hfound hparameters)
  obtain ⟨constants, rejections, hresult, hmem⟩ := compile_each_ok houtcome
  have hclean (declaration : Declaration) (hfound : declaration ∈ program.unit.declarations)
      (compiled : Compiled) (hparameters : declaration.parameters = [])
      (h : (program.compileDeclaration declaration).result = .ok compiled) :
      (program.declarationSchema declaration).Clean compiled.schema := by
    obtain ⟨found, hfoundResult, hsilent⟩ := hcompiled declaration hfound hparameters
    cases h.symm.trans hfoundResult
    exact clean_of_compiled h hsilent
  refine ⟨constants, rejections, hresult, ?_⟩
  intro declaration hfound hparameters key schemaKey hkey hschemaKey value
  have hpaired : program.Paired key schemaKey :=
    ⟨declaration, hfound, hparameters, hkey, hschemaKey⟩
  constructor
  · intro h
    refine validates_of_inhabits hprogram hclean (fun other hother hplain => ?_) h schemaKey hpaired
    obtain ⟨compiled, hother', -⟩ := hcompiled other hother hplain
    exact ⟨compiled, hmem other hother compiled hother', hother'⟩
  · intro h
    exact inhabits_of_validates hprogram hclean (compiled_of_each hresult) h key hpaired

/-- The alias `type Box<T = string> = { value: T }`. -/
def box : Declaration :=
  .typeAlias
    { name := .str "Box"
      tags := []
      exported := true
      parameters := [⟨.str "T", none, some (.keyword .string)⟩]
      type := .object [⟨"value", some (.reference (.str "T") []), false, false, []⟩] none }

/-- The interface `Tree` of a label, of children in boxes and of a parent that may be missing. -/
def tree : Declaration :=
  .interface
    { name := .str "Tree"
      tags := []
      exported := true
      parameters := []
      heritage := []
      members := [
        ⟨"label", some (.keyword .string), false, false, []⟩,
        ⟨"children", some (.array (.reference (.str "Box") [.reference (.str "Tree") []])), false,
          false, []⟩,
        ⟨"parent", some (.union [.reference (.str "Tree") [], .literal .null]), true, false, []⟩]
      index := none }

/-- The program of boxes and trees, with the names of types for schemas. -/
def trees : Program where
  unit := ⟨.null, [box, tree], []⟩
  settings := { Settings.default with schemaName := some id }

theorem box_core (p : Program) (elided : Bool) : CoreDeclaration p elided box where
  key := ⟨.text "Box", rfl⟩
  name := by decide
  tags := rfl
  defaults := ⟨fun _ h => Option.mem_some.1 h ▸ .keyword (by decide), trivial⟩
  body := by
    refine ⟨_, rfl, .object (by simp) (by simp) (by simp) ?_ (by simp) (by simp)⟩
    intro m hm type ht
    cases mem_singleton.1 hm
    cases ht
    exact .parameter rfl rfl

theorem tree_core : CoreDeclaration trees false tree where
  key := ⟨.text "Tree", rfl⟩
  name := by decide
  tags := rfl
  defaults := trivial
  body := by
    have htree : tree ∈ trees.unit.declarations := mem_cons_of_mem _ mem_cons_self
    have hbox : box ∈ trees.unit.declarations := mem_cons_self
    have hself : Core trees false (fun _ => false) (.reference (.str "Tree") []) :=
      .named htree (fun _ _ => rfl) rfl
    have hchild : Core trees false (fun _ => false)
        (.reference (.str "Box") [.reference (.str "Tree") []]) := by
      refine .generic hbox (fun _ _ => rfl) nofun (.inr nofun) (fun _ h => nomatch h) ?_
      intro arg harg
      cases mem_singleton.1 harg
      exact hself
    have hparent : Core trees false (fun _ => false)
        (.union [.reference (.str "Tree") [], .literal .null]) := by
      refine .union nofun ?_
      simp only [forall_mem_cons, not_mem_nil, false_imp_iff, implies_true, and_true]
      exact ⟨hself, .literal rfl⟩
    refine ⟨_, rfl, .object (by decide) (by simp) (by simp) ?_ (by simp) (by simp)⟩
    simp only [forall_mem_cons, not_mem_nil, false_imp_iff, implies_true, and_true,
      Option.mem_def, Option.some.injEq, forall_eq']
    exact ⟨.keyword (by decide), .array hchild, hparent⟩

/-- Boxes and trees are in the structural core. -/
theorem trees_core : CoreProgram trees false where
  declarations := by
    intro decl hdecl
    rcases mem_pair.1 hdecl with rfl | rfl
    · exact box_core _ _
    · exact tree_core
  distinct := by decide
  maybe := ⟨_, rfl, rfl⟩
  named := by
    intro decl hdecl
    rcases mem_pair.1 hdecl with rfl | rfl
    · exact ⟨_, rfl⟩
    · exact ⟨_, rfl⟩
  naming := by
    simp [trees, schemaKey?, Settings.nameOf, box, tree, Declaration.name, Json.key?]

/-- The schema of a tree accepts exactly the trees. -/
theorem tree_meaning_preserved :
    CoreProgram trees false ∧
      ∃ constants rejections,
        (trees.compileEach trees.unit.declarations).result = .ok (constants, rejections) ∧
        ∀ value, Inhabits trees (.text "Tree") value ↔
          Validates constants (.text "Tree") value := by
  have htree : tree ∈ trees.unit.declarations := List.mem_cons_of_mem _ List.mem_cons_self
  have hcompiled : ∀ declaration ∈ trees.unit.declarations, declaration.parameters = [] →
      ∃ compiled, (trees.compileDeclaration declaration).result = .ok compiled ∧
        compiled.warnings = [] := by
    intro declaration hdeclaration hparameters
    rcases List.mem_pair.1 hdeclaration with rfl | rfl
    · cases hparameters
    · exact ⟨_, rfl, rfl⟩
  obtain ⟨constants, rejections, hresult, hmeaning⟩ :=
    meaning_preserved trees trees_core hcompiled
  exact ⟨trees_core, constants, rejections, hresult,
    hmeaning tree htree rfl (.text "Tree") (.text "Tree") rfl rfl⟩

/-- The alias `type Crate = Box`. -/
def crate : Declaration :=
  .typeAlias ⟨.str "Crate", [], true, [], .reference (.str "Box") []⟩

/-- The program of boxes and crates, with the names of types for schemas. -/
def crates : Program where
  unit := ⟨.null, [box, crate], []⟩
  settings := { Settings.default with schemaName := some id }

/-- Boxes and crates would be in the structural core if a reference could leave out all
arguments. -/
theorem crates_core : CoreProgram crates true where
  declarations := by
    intro decl hdecl
    rcases mem_pair.1 hdecl with rfl | rfl
    · exact box_core _ _
    · have hbox : box ∈ crates.unit.declarations := mem_cons_self
      refine ⟨⟨.text "Crate", rfl⟩, by decide, rfl, trivial, _, rfl, ?_⟩
      exact .generic hbox (fun _ _ => rfl) nofun (.inl rfl)
        (fun _ h => mem_singleton.1 h ▸ rfl) fun _ h => nomatch h
  distinct := by decide
  maybe := ⟨_, rfl, rfl⟩
  named := by
    intro decl hdecl
    rcases mem_pair.1 hdecl with rfl | rfl
    · exact ⟨_, rfl⟩
    · exact ⟨_, rfl⟩
  naming := by
    simp [crates, schemaKey?, Settings.nameOf, box, crate, Declaration.name, Json.key?]

/-- A generic declaration that is referred to without an argument is not entered. The schema of a
crate refers to a schema of boxes, which is not among the constants, so that it accepts no crate. -/
theorem bare_reference_diverges :
    CoreProgram crates true ∧
      (∀ declaration ∈ crates.unit.declarations, declaration.parameters = [] →
        ∃ compiled, (crates.compileDeclaration declaration).result = .ok compiled ∧
          compiled.warnings = []) ∧
      ∃ constants rejections,
        (crates.compileEach crates.unit.declarations).result = .ok (constants, rejections) ∧
        Inhabits crates (.text "Crate") (.object [("value", .text "apple")]) ∧
        ¬Validates constants (.text "Crate") (.object [("value", .text "apple")]) := by
  refine ⟨crates_core, ?_, _, _, rfl, ?_, ?_⟩
  · intro declaration hdeclaration hparameters
    rcases List.mem_pair.1 hdeclaration with rfl | rfl
    · cases hparameters
    · exact ⟨_, rfl, rfl⟩
  · refine @Inhabits.intro crates _ crate _ _ (fun _ _ => False) rfl rfl rfl
      (fun _ _ h => h.elim) (.generic rfl rfl nofun rfl (.object ?_ fun _ h => nomatch h))
    intro member hmember type htype hpresent
    cases List.mem_singleton.1 hmember
    cases htype
    exact .keyword ⟨"apple", rfl⟩
  · -- Only the crate has a constant, and that refers to a box.
    intro h
    cases h with
    | intro hconstant hkey hknown h =>
      cases List.mem_singleton.1 hconstant
      obtain ⟨key, hbox, h⟩ := Schema.accepts_reference.1 h
      cases hbox
      cases hknown _ _ h with
      | intro hconstant hkey =>
        cases List.mem_singleton.1 hconstant
        have hname : Key.text "Crate" = .text "Box" := Option.some.inj hkey
        simp at hname

end Program

end Schemata
