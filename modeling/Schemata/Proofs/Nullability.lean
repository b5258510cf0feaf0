import Schemata.Proofs.Acceptance
import Schemata.Proofs.Discrimination

/-!
# Values that may be null

Null among the arms of a union is not compiled: the arm beside it is compiled in a context that says
that the value may be null. `Program.LeadsTo` follows the types to which such a context is handed
on. Where it ends, the rule that makes the schema adds one modifier after all others, except for
values that may be absent, which leave it out. `null_adds_nullable` tells both.
-/

namespace Schemata

variable {ctx : Context}

/-- The schema of the same values and null. -/
def Schema.orNull (schema : Schema) : Schema :=
  schema.modify ⟨"nullable", [], false⟩

/-- The context in which a value may also be null. -/
def Context.orNull (context : Context) : Context :=
  { context with nullable := true }

/-- The plan of the same values and null. -/
def Plan.orNull (plan : Plan) : Plan :=
  { plan with assemble := fun schemas => Schema.orNull <$> plan.assemble schemas }

/-- A context without tags in which a value may not be null. -/
structure Context.IsPlain (context : Context) : Prop where
  tags : context.tags = []
  nullable : context.nullable = false

/-- In a plain context null is asked for after everything else. -/
theorem Context.IsPlain.modifiers_eq (h : ctx.IsPlain) (formats : Json) :
    ctx.orNull.modifiers formats = (· ++ [⟨"nullable", [], false⟩]) <$> ctx.modifiers formats := by
  rw [Context.modifiers_without_tags h.tags, @Context.modifiers_without_tags ctx.orNull h.tags,
    map_pure, h.nullable]
  refine congrArg pure ?_
  rw [show Refinement.flagged false "nullable" = [] from rfl, List.append_nil]
  rfl

/-- Following the plan of the same values and null gives the same schema with one more modifier. -/
theorem Plan.run_or_null (plan : Plan) (compile : Job → Compilation Schema) :
    plan.orNull.run compile = Schema.orNull <$> plan.run compile := by
  show (plan.jobs.mapM compile >>= fun ss => Schema.orNull <$> plan.assemble ss) = _
  rw [Plan.run, map_bind]

namespace Program

variable {t : TypeExpr}

/-- The type that a type is compiled as, and its environment: what is in parentheses, what a
parameter is bound to, the body of a generic alias, and the argument of a name that only changes
what is asked of its properties. -/
def standsFor? (program : Program) : TypeExpr × Environment → Option (TypeExpr × Environment)
  | (.paren type, environment) => some (type, environment)
  | (.reference name arguments, environment) =>
    match (program.use environment name arguments).result with
    | .ok (.type type inner) => some (type, inner)
    | .ok (.name (.adjusted argument _)) => some (argument, environment)
    | _ => none
  | _ => none

/-- A type is compiled as another one, step by step. -/
def LeadsTo (program : Program) : TypeExpr × Environment → TypeExpr × Environment → Prop :=
  Relation.ReflTransGen fun place next => program.standsFor? place = some next

/-- A type is a value that may be absent. -/
def IsMaybe (program : Program) (place : TypeExpr × Environment) : Prop :=
  ∃ name arguments argument, place.1 = .reference name arguments ∧
    (program.use place.2 name arguments).result = .ok (.name (.maybe argument))

variable {p : Program} {env : Environment}

section Finish

theorem modifiers_or_null (h : ctx.IsPlain) :
    p.modifiers ctx.orNull = (· ++ [⟨"nullable", [], false⟩]) <$> p.modifiers ctx := by
  unfold modifiers
  rw [map_bind]
  exact bind_congr fun formats => h.modifiers_eq formats

/-- What is done with the modifiers of a context, with null after them. -/
theorem bind_modifiers_or_null {α : Type} {change : α → α} (h : ctx.IsPlain)
    {next other : List Modifier → Compilation α}
    (hnext : ∀ mods, other (mods ++ [⟨"nullable", [], false⟩]) =
      change <$> next mods) :
    (p.modifiers ctx.orNull >>= other) =
      change <$> (p.modifiers ctx >>= next) := by
  rw [modifiers_or_null h, bind_map_left, map_bind]
  exact bind_congr hnext

theorem finish_or_null (h : ctx.IsPlain) (s : Schema) :
    p.finish ctx.orNull s = Schema.orNull <$> p.finish ctx s := by
  refine bind_modifiers_or_null h fun mods => ?_
  rw [map_pure, Schema.withModifiers_append]
  rfl

theorem unsupported_or_null (h : ctx.IsPlain) (t : Option TypeExpr) :
    p.unsupported t ctx.orNull = Schema.orNull <$> p.unsupported t ctx := by
  unfold unsupported
  simp only [map_bind, finish_or_null h]

theorem combinator_or_null (name : String) (args : List Schema) (mods : List Modifier) :
    Schema.combinator name args (mods ++ [⟨"nullable", [], false⟩]) =
      (Schema.combinator name args mods).orNull := by
  unfold Schema.combinator
  rw [Schema.withModifiers_append]
  rfl

/-- The texts of a template: whether null is one of them or not, one more null comes last. -/
theorem values_or_null (values : Values) (mods : List Modifier) :
    values.schema (mods ++ [⟨"nullable", [], false⟩]) = (values.schema mods).orNull := by
  have hnull : (mods ++ [⟨"nullable", [], false⟩]) ++
      (if values.hasNull then [(⟨"nullable", [], false⟩ : Modifier)] else []) =
        (mods ++ if values.hasNull then [⟨"nullable", [], false⟩] else []) ++
          [⟨"nullable", [], false⟩] := by
    split <;> simp
  unfold Values.schema
  dsimp only
  rw [hnull]
  split <;> exact combinator_or_null _ _ _

end Finish

section Plans

variable {jobs : List Job}

theorem pure_or_null {plan other : Plan} (h : other = plan.orNull) :
    (pure other : Compilation Plan) = Plan.orNull <$> (pure plan : Compilation Plan) := by
  rw [h, map_pure]

/-- A plan that asks for null as well is the plan without it, and null after it. -/
theorem plan_or_null {assemble other : List Schema → Compilation Schema}
    (h : ∀ ss, other ss = Schema.orNull <$> assemble ss) :
    (⟨jobs, other⟩ : Plan) = Plan.orNull ⟨jobs, assemble⟩ := congrArg (Plan.mk jobs) (funext h)

theorem finish_plan_or_null (h : ctx.IsPlain) {make : List Schema → Schema} :
    (⟨jobs, fun ss => p.finish ctx.orNull (make ss)⟩ : Plan) =
      Plan.orNull ⟨jobs, fun ss => p.finish ctx (make ss)⟩ :=
  plan_or_null fun ss => finish_or_null h (make ss)

/-- The plan of a reference is the plan of its use. -/
theorem type_plan_reference (name : Name) (args : List TypeExpr) :
    p.typePlan env ctx (.reference name args) =
      (p.use env name args >>= p.usePlan env ctx name) := rfl

theorem interface_or_null (h : ctx.IsPlain) (off : Option Context) (inner : Environment)
    (d : Interface) :
    p.interfacePlan off inner d ctx.orNull = Plan.orNull <$> p.interfacePlan off inner d ctx := by
  unfold interfacePlan
  cases d.heritage with
  | nil => exact pure_or_null (finish_plan_or_null h)
  | cons =>
    dsimp only
    split
    · rfl
    · refine pure_or_null (plan_or_null fun ss => ?_)
      rw [map_bind]
      refine bind_congr fun chain => ?_
      cases chain with
      | none => rfl
      | some => exact finish_or_null h _

/-- A name that is compiled by a rule of its own, and not as a value that may be absent. -/
theorem name_or_null (h : ctx.IsPlain) (name : Name) (use : NameUse TypeExpr)
    (hadjusted : ∀ arg adjust, use ≠ .adjusted arg adjust) (hmaybe : ∀ arg, use ≠ .maybe arg) :
    p.namePlan env ctx.orNull name use = (p.namePlan env ctx name use).orNull := by
  cases use with
  | date | array | record | call => exact finish_plan_or_null h
  | maybe arg => exact (hmaybe arg rfl).elim
  | adjusted arg adjust => exact (hadjusted arg adjust rfl).elim
  | projected | schema =>
    refine plan_or_null fun ss => ?_
    rw [map_bind]
    exact bind_congr fun found => finish_or_null h found

/-- A type that is compiled by a rule of its own has null after everything else. -/
theorem type_or_null (h : ctx.IsPlain) (t : TypeExpr)
    (hends : p.standsFor? (t, env) = none) (hunion : ∀ arms, t ≠ .union arms)
    (hmaybe : ¬p.IsMaybe (t, env)) :
    p.typePlan env ctx.orNull t = Plan.orNull <$> p.typePlan env ctx t := by
  cases t with
  | reference name args =>
    rw [type_plan_reference, type_plan_reference, map_bind]
    refine Traced.bind_congr fun use huse => ?_
    unfold standsFor? at hends
    dsimp only at hends
    rw [huse] at hends
    cases use with
    | type => cases hends
    | interface d inner off => exact interface_or_null h off inner d
    | name use =>
      refine pure_or_null (name_or_null h name use ?_ ?_)
      · rintro arg adjust rfl
        cases hends
      · rintro arg rfl
        exact hmaybe ⟨name, args, arg, rfl, huse⟩
  | paren => cases hends
  | object | enumMember | array | function => exact pure_or_null (finish_plan_or_null h)
  | union arms => exact (hunion arms rfl).elim
  | intersection arms =>
    cases arms with
    | nil => exact pure_or_null (plan_or_null fun _ => unsupported_or_null h _)
    | cons => exact pure_or_null (finish_plan_or_null h)
  | tuple =>
    refine bind_modifiers_or_null h fun mods => ?_
    rw [map_bind]
    refine bind_congr fun found => ?_
    cases found with
    | none =>
      refine pure_or_null (plan_or_null fun ss => congrArg _ ?_)
      exact combinator_or_null "tuple" _ mods
    | some =>
      -- The modifier of the rest stands before those of the context.
      refine pure_or_null (plan_or_null fun ss => congrArg _ ?_)
      exact combinator_or_null "tuple" _ (_ :: mods)
  | literal v => cases v <;> exact pure_or_null (finish_plan_or_null h)
  | indexed =>
    refine pure_or_null (plan_or_null fun ss => ?_)
    rw [map_bind]
    refine bind_congr fun found => ?_
    cases found with
    | none => exact finish_or_null h _
    | some s => exact finish_or_null h s
  | template =>
    refine pure_or_null (plan_or_null fun ss => ?_)
    rw [map_bind]
    refine bind_congr fun found => ?_
    cases found with
    | none => exact finish_or_null h _
    | some =>
      refine bind_modifiers_or_null h fun mods => ?_
      rw [values_or_null, map_pure]
  | keyword keyword => cases keyword <;> exact pure_or_null (finish_plan_or_null h)
  | spread | named | unsupported =>
    exact pure_or_null (plan_or_null fun _ => unsupported_or_null h _)

end Plans

section Steps

variable {place : TypeExpr × Environment}

theorem plan_without_text {job : Job} (htext : job.context.tags.override? = none) :
    p.plan job = p.typePlan job.environment job.context job.type := by
  unfold Program.plan
  rw [htext]

theorem plan_without_tags (htags : ctx.tags = []) (t : TypeExpr) (env : Environment) :
    p.plan ⟨t, env, ctx⟩ = p.typePlan env ctx t :=
  plan_without_text (by rw [htags]; rfl)

theorem compile_without_tags (htags : ctx.tags = []) (t : TypeExpr) (env : Environment) :
    p.compile ⟨t, env, ctx⟩ = (do (← p.typePlan env ctx t).run p.compile) := by
  rw [compile_eq_run, plan_without_tags htags]

/-- A type that stands for another one is compiled as that one, after a step that does not depend on
the context. -/
structure CompiledAs (program : Program) (place next : TypeExpr × Environment)
    (first : Compilation Unit) (adjust : Context → Context) : Prop where
  plain : ∀ context : Context, context.IsPlain → (adjust context).IsPlain
  orNull : ∀ context : Context, adjust context.orNull = (adjust context).orNull
  calls : ∀ context : Context, context.tags = [] →
    program.Calls ⟨next.1, next.2, adjust context⟩ ⟨place.1, place.2, context⟩
  compile : ∀ context : Context, context.tags = [] →
    program.compile ⟨place.1, place.2, context⟩ =
      (first >>= fun _ => program.compile ⟨next.1, next.2, adjust context⟩)

theorem compiled_as_inside (t : TypeExpr) (env : Environment) :
    p.CompiledAs (.paren t, env) (t, env) (pure ()) id where
  plain := fun _ h => h
  orNull := fun _ => rfl
  calls := by
    intro ctx htags
    refine ⟨.through ⟨t, env, ctx⟩, ?_, List.mem_singleton_self _⟩
    rw [plan_without_tags htags]
    rfl
  compile := by
    intro ctx htags
    rw [pure_bind, compile_without_tags htags]
    exact Plan.run_through _ _

/-- A reference whose use is another type. -/
theorem compiled_as_used {name : Name} {args : List TypeExpr} {use : Use}
    {next : TypeExpr × Environment} {adjust : Context → Context}
    (huse : (p.use env name args).result = .ok use)
    (hplan : ∀ ctx, p.usePlan env ctx name use = pure (.through ⟨next.1, next.2, adjust ctx⟩))
    (hplain : ∀ ctx : Context, ctx.IsPlain → (adjust ctx).IsPlain)
    (hnull : ∀ ctx : Context, adjust ctx.orNull = (adjust ctx).orNull) :
    p.CompiledAs (.reference name args, env) next
      ((fun _ => ()) <$> p.use env name args) adjust where
  plain := hplain
  orNull := hnull
  calls := by
    intro ctx htags
    refine ⟨.through ⟨next.1, next.2, adjust ctx⟩, ?_, List.mem_singleton_self _⟩
    rw [plan_without_tags htags]
    exact Traced.bind_ok_iff.2 ⟨use, huse, congrArg Traced.result (hplan ctx)⟩
  compile := by
    intro ctx htags
    rw [compile_without_tags htags, bind_map_left, type_plan_reference, bind_assoc]
    refine Traced.bind_congr fun found hf => ?_
    cases huse.symm.trans hf
    rw [hplan, pure_bind, Plan.run_through]

/-- A type that stands for another one is compiled as that one. -/
theorem exists_compiled_as {next : TypeExpr × Environment} (h : p.standsFor? place = some next) :
    ∃ a adjust, p.CompiledAs place next a adjust := by
  obtain ⟨t, env⟩ := place
  unfold standsFor? at h
  split at h
  · rename_i t env heq
    cases heq
    cases h
    exact ⟨_, _, compiled_as_inside _ _⟩
  · rename_i name args env heq
    cases heq
    split at h
    · rename_i t inner huse
      cases h
      exact ⟨_, id, compiled_as_used huse (fun _ => rfl) (fun _ h => h) fun _ => rfl⟩
    · rename_i arg adjust huse
      cases h
      refine ⟨_, adjust, compiled_as_used huse (fun _ => rfl) ?_ ?_⟩
      · intro ctx hplain
        rcases adjusted_cases huse with rfl | rfl | rfl <;> exact ⟨hplain.tags, hplain.nullable⟩
      · rcases adjusted_cases huse with rfl | rfl | rfl <;> exact fun _ => rfl
    · cases h
  · cases h

/-- Where no union and no value that may be absent is met, null adds one modifier after all
others. -/
theorem compile_or_null {job : Job} (hplain : job.context.IsPlain)
    (hends : ∀ place, p.LeadsTo (job.type, job.environment) place →
      (∀ arms, place.1 ≠ .union arms) ∧ ¬p.IsMaybe place) :
    p.compile ⟨job.type, job.environment, job.context.orNull⟩ =
      Schema.orNull <$> p.compile job := by
  induction job using job_induction with
  | h job ih =>
    obtain ⟨t, env, ctx⟩ := job
    cases hnext : p.standsFor? (t, env) with
    | some next =>
      -- The same first step is made with and without null.
      obtain ⟨a, adjust, hcomp⟩ := exists_compiled_as hnext
      have hstep := ih _ (hcomp.calls ctx hplain.tags) (hcomp.plain _ hplain)
        fun place hplace => hends place (.head hnext hplace)
      rw [hcomp.compile ctx.orNull hplain.tags,
        hcomp.compile ctx hplain.tags, map_bind, hcomp.orNull, hstep]
    | none =>
      obtain ⟨hunion, hmaybe⟩ := hends _ .refl
      rw [compile_without_tags hplain.tags, @compile_without_tags ctx.orNull _ hplain.tags,
        type_or_null hplain t hnext hunion hmaybe, bind_map_left, map_bind]
      exact bind_congr fun plan => plan.run_or_null p.compile

/-- A value that may be absent has null left out. -/
theorem compile_maybe_or_null (hmaybe : p.IsMaybe place) {start : TypeExpr × Environment}
    (h : p.LeadsTo start place) (hplain : ctx.IsPlain) :
    p.compile ⟨start.1, start.2, ctx.orNull⟩ = p.compile ⟨start.1, start.2, ctx⟩ := by
  induction h using Relation.ReflTransGen.head_induction_on generalizing ctx with
  | refl =>
    obtain ⟨t, env⟩ := place
    obtain ⟨name, args, arg, rfl, huse⟩ := hmaybe
    rw [compile_without_tags hplain.tags, @compile_without_tags ctx.orNull _ hplain.tags,
      type_plan_reference, type_plan_reference]
    refine congrArg (· >>= fun plan => Plan.run plan p.compile) ?_
    refine Traced.bind_congr fun use hother => ?_
    -- The plan of a value that may be absent looks at the optional flag only.
    cases huse.symm.trans hother
    rfl
  | head hnext _ ih =>
    obtain ⟨a, adjust, hcomp⟩ := exists_compiled_as hnext
    rw [hcomp.compile ctx.orNull hplain.tags, hcomp.compile ctx hplain.tags,
      hcomp.orNull, ih (hcomp.plain _ hplain)]

end Steps

/-- What is in parentheses is compiled as what is inside of them. -/
theorem leads_to_unwrap (t : TypeExpr) (env : Environment) :
    p.LeadsTo (t, env) (t.unwrap, env) := by
  fun_induction TypeExpr.unwrap t with
  | case1 t ih => exact .head rfl ih
  | case2 => exact .refl

theorem is_null_eq_false (h : ∀ place, p.LeadsTo (t, env) place → place.1 ≠ .literal .null) :
    t.isNull = false := by
  have hinside := h _ (leads_to_unwrap t env)
  unfold TypeExpr.isNull
  split
  · rename_i hnull
    exact (hinside hnull).elim
  · rfl

/-- Null beside a type changes what is asked of it. -/
theorem compile_beside_null (hnull : t.isNull = false) :
    p.compile ⟨.union [t, .literal .null], env, ctx⟩ = p.compile ⟨t, env, ctx.orNull⟩ := by
  have hkept : [t, .literal .null].filter (!·.isNull) = [t] := by
    have hliteral : (TypeExpr.literal .null).isNull = true := rfl
    simp [hnull, hliteral]
  have hplan (ctx : Context) :
      p.typePlan env ctx (.union [t, .literal .null]) = pure (.through ⟨t, env, ctx.orNull⟩) := by
    unfold typePlan
    dsimp only
    rw [hkept]
    simp [Context.orNull]
  have hs (ctx : Context) :
      typeSchema p (p.bodyFrom env) (.union [t, .literal .null]) env (p.meaningsOf env) ctx =
        p.compile ⟨t, env, ctx.orNull⟩ := by
    rw [type_schema_eq, hplan, pure_bind, Plan.run_through]
  -- Null is no tag, so that text which replaces or follows the schema is the same on both sides.
  rw [compile, funext hs]
  exact in_context_twice _ ctx

/-- For every type from which no union and no literal null is reached through parentheses, bound
parameters, generic aliases and names that only change what is asked of properties: with null beside
it, its schema has one more modifier at the end of its chain, and everything else that happens on
the way is the same. The one exception is a type from which a value that may be absent is reached:
there null is lost. -/
theorem null_adds_nullable (program : Program) (type : TypeExpr) (environment : Environment)
    (hplain : ∀ place, program.LeadsTo (type, environment) place →
      (∀ arms, place.1 ≠ .union arms) ∧ place.1 ≠ .literal .null) :
    ((∀ place, program.LeadsTo (type, environment) place → ¬program.IsMaybe place) →
      program.schemaOf (some (.union [type, .literal .null])) environment [] =
        (·.modify ⟨"nullable", [], false⟩) <$> program.schemaOf (some type) environment []) ∧
    ∀ place, program.LeadsTo (type, environment) place → program.IsMaybe place →
      program.schemaOf (some (.union [type, .literal .null])) environment [] =
        program.schemaOf (some type) environment [] := by
  have htags : program.tags [] = [] := by
    unfold Program.tags
    split <;> rfl
  have hcontext : Context.IsPlain { tags := program.tags [] } := ⟨htags, rfl⟩
  have hbeside : program.schemaOf (some (.union [type, .literal .null])) environment [] =
      program.compile ⟨type, environment, Context.orNull { tags := program.tags [] }⟩ := by
    rw [schema_of_some]
    exact compile_beside_null (is_null_eq_false fun place hplace => (hplain place hplace).2)
  rw [hbeside]
  refine ⟨fun hmaybe => ?_, fun place hplace hmaybe => ?_⟩
  · exact @compile_or_null program ⟨type, environment, { tags := program.tags [] }⟩ hcontext
      fun place hplace => ⟨(hplain place hplace).1, hmaybe place hplace⟩
  · exact compile_maybe_or_null hmaybe hplace hcontext

section Places

variable {place next target : TypeExpr × Environment}

theorem leads_to_iff_of_some (h : p.standsFor? place = some next) :
    p.LeadsTo place target ↔ target = place ∨ p.LeadsTo next target := by
  refine Relation.ReflTransGen.cases_head_iff.trans (or_congr eq_comm ?_)
  constructor
  · intro hsteps
    obtain ⟨other, hother, hsteps⟩ := hsteps
    cases h.symm.trans hother
    exact hsteps
  · exact fun hsteps => ⟨next, h, hsteps⟩

theorem leads_to_iff_of_none (h : p.standsFor? place = none) :
    p.LeadsTo place target ↔ target = place := by
  refine Relation.ReflTransGen.cases_head_iff.trans ((or_iff_left ?_).trans eq_comm)
  intro hsteps
  obtain ⟨other, hother, -⟩ := hsteps
  cases h.symm.trans hother

theorem is_maybe_iff {name : Name} {args : List TypeExpr} {use : Use}
    (huse : (p.use env name args).result = .ok use) :
    p.IsMaybe (.reference name args, env) ↔ ∃ arg, use = .name (.maybe arg) := by
  constructor
  · intro h
    obtain ⟨other, others, arg, heq, hother⟩ := h
    cases heq
    exact ⟨arg, Except.ok.inj (huse.symm.trans hother)⟩
  · intro h
    obtain ⟨arg, rfl⟩ := h
    exact ⟨name, args, arg, rfl, huse⟩

end Places

/-- The interface `interface Dog { name: string }` and the alias `type Held<T> = Readonly<T>`, where
`Maybe` is the name of values that may be absent, but not null. -/
def leash : Program where
  unit := ⟨.null, [
      .interface ⟨.str "Dog", [], true, [], [],
        [⟨"name", some (.keyword .string), false, false, []⟩], none⟩,
      .typeAlias ⟨.str "Held", [], true, [⟨.str "T", none, none⟩],
        .reference (.str "Readonly") [.reference (.str "T") []]⟩], []⟩
  settings := { Settings.default with maybe := some ⟨[.str "Maybe"], .bool true, .bool false⟩ }

/-- `Held<(Dog)>`. -/
def heldDog : TypeExpr :=
  .reference (.str "Held") [.paren (.reference (.str "Dog") [])]

/-- Null is told of a named type through a generic alias, its parameter and parentheses. -/
theorem held_dog_or_null :
    (∀ place, leash.LeadsTo (heldDog, .empty) place →
      ((∀ arms, place.1 ≠ .union arms) ∧ place.1 ≠ .literal .null) ∧ ¬leash.IsMaybe place) ∧
    (leash.schemaOf (some heldDog) .empty []).result = .ok (.reference (.str "dogSchema")) ∧
    leash.schemaOf (some (.union [heldDog, .literal .null])) .empty [] =
      (·.modify ⟨"nullable", [], false⟩) <$> leash.schemaOf (some heldDog) .empty [] := by
  have hreference {name : Name} {arguments : List TypeExpr} {environment : Environment} {use : Use}
      (huse : (leash.use environment name arguments).result = .ok use)
      (hmaybe : ∀ argument, use ≠ .name (.maybe argument)) :
      ((∀ arms, TypeExpr.reference name arguments ≠ .union arms) ∧
        TypeExpr.reference name arguments ≠ .literal .null) ∧
          ¬leash.IsMaybe (.reference name arguments, environment) := by
    refine ⟨⟨fun _ => TypeExpr.noConfusion, TypeExpr.noConfusion⟩, fun h => ?_⟩
    obtain ⟨argument, heq⟩ := (is_maybe_iff huse).1 h
    exact hmaybe argument heq
  have hplaces : ∀ place, leash.LeadsTo (heldDog, .empty) place →
      ((∀ arms, place.1 ≠ .union arms) ∧ place.1 ≠ .literal .null) ∧ ¬leash.IsMaybe place := by
    intro place hplace
    rw [leads_to_iff_of_some rfl, leads_to_iff_of_some rfl, leads_to_iff_of_some rfl,
      leads_to_iff_of_some rfl, leads_to_iff_of_none rfl] at hplace
    rcases hplace with rfl | rfl | rfl | rfl | rfl
    · exact hreference rfl (by simp)
    · exact hreference rfl (by simp)
    · exact hreference rfl (by simp)
    · refine ⟨⟨fun _ => TypeExpr.noConfusion, TypeExpr.noConfusion⟩, fun h => ?_⟩
      obtain ⟨name, arguments, argument, heq, -⟩ := h
      cases heq
    · exact @hreference _ _ _ (.name .schema) rfl (by simp)
  refine ⟨hplaces, rfl, ?_⟩
  exact (null_adds_nullable leash heldDog .empty fun place hplace => (hplaces place hplace).1).1
    fun place hplace => (hplaces place hplace).2

/-- `Maybe<string>`. -/
def maybeText : TypeExpr :=
  .reference (.str "Maybe") [.keyword .string]

/-- Null beside a value that may be absent is lost, also where an absent value is not null. -/
theorem maybe_text_not_null :
    (∀ place, leash.LeadsTo (maybeText, .empty) place →
      (∀ arms, place.1 ≠ .union arms) ∧ place.1 ≠ .literal .null) ∧
    (leash.schemaOf (some (.union [maybeText, .literal .null])) .empty []).result =
      .ok (.helper "maybe" [.call "string" []]) ∧
    leash.schemaOf (some (.union [maybeText, .literal .null])) .empty [] ≠
      (·.modify ⟨"nullable", [], false⟩) <$> leash.schemaOf (some maybeText) .empty [] := by
  refine ⟨fun place hplace => ?_, rfl, fun heq => ?_⟩
  · rw [leads_to_iff_of_none rfl] at hplace
    subst hplace
    exact ⟨fun _ => TypeExpr.noConfusion, TypeExpr.noConfusion⟩
  · have hresult := congrArg Traced.result heq
    cases hresult

end Program

end Schemata
