import Schemata.Proofs.Matching

/-!
# Instantiation and substitution

The body of a generic declaration is compiled in an environment that binds its parameters to the
arguments; nothing is ever replaced. `instantiation_is_substitution` says what that amounts to: the
schema of a reference with arguments is the one of the body in which the arguments stand for the
parameters, with the same dependencies. It is not so when an index is taken of an object type, since
the members of that are looked at without the environment.
-/

namespace Schemata

open List
open Traced (bind_ok_iff lift_ok lift_ok_iff)

section Arguments

variable {params : List GenericParameter} {args : List TypeExpr}
  {inner bound : Environment} {sub : Substitution} (hlen : args.length = params.length)

include hlen

/-- Parameters that are bound to arguments are replaced by them. -/
theorem binding_of_arguments
    (hi : ∀ key, ∃ spelled, inner.binding? key = (sub key).map fun t => ⟨spelled, t, .empty⟩)
    (hbound : Program.bindTypes .empty params args inner = .ok bound) (key : Key) :
    ∃ spelled, bound.binding? key =
      (bindArguments params args sub key).map fun t =>
        ⟨spelled, t, .empty⟩ := by
  induction params generalizing args inner sub with
  | nil =>
    rw [Program.bindTypes] at hbound
    cases hbound
    rw [bindArguments]
    exact hi key
  | cons param rest ih =>
    cases args with
    | nil => cases hlen
    | cons arg others =>
      obtain ⟨next, hnext, hbound⟩ := bind_eq_ok_iff.1 hbound
      rw [bindArguments]
      refine ih (Nat.succ.inj hlen) (fun found => ?_) hbound
      unfold Substitution.bind
      rcases Environment.binding_of_bind hnext found with
        ⟨hn, spelled, hb⟩ | ⟨hn, hb⟩
      · exact ⟨spelled, by rw [hb, if_pos hn, Option.map_some]⟩
      · obtain ⟨spelled, hf⟩ := hi found
        exact ⟨spelled, by rw [hb, if_neg hn, hf]⟩

/-- The environment of a body is linked to the one without parameters when these are replaced. -/
theorem linked_arguments
    (hbound : Program.bindTypes .empty params args Environment.empty.enter = .ok bound) :
    Linked (bindArguments params args .none) bound .empty := by
  have hi (key : Key) : ∃ spelled, Environment.empty.enter.binding? key =
      (Substitution.none key).map fun t => ⟨spelled, t, .empty⟩ := ⟨.null, rfl⟩
  have hb := binding_of_arguments hlen hi hbound
  refine linked_of_bindings (Nat.zero_le _) (fun key t ht => ?_) fun key hk => ?_
  · obtain ⟨spelled, hb⟩ := hb key
    rw [ht] at hb
    exact ⟨spelled, hb⟩
  · obtain ⟨spelled, hb⟩ := hb key
    rw [hk] at hb
    rw [Environment.BoundAlike, hb]
    exact .none

/-- What replaces a parameter is one of the arguments. -/
theorem mem_of_bind_arguments {key : Key} {t : TypeExpr}
    (h : bindArguments params args sub key = some t) : t ∈ args ∨ sub key = some t := by
  induction params generalizing args sub with
  | nil =>
    rw [bindArguments] at h
    exact .inr h
  | cons param rest ih =>
    cases args with
    | nil => cases hlen
    | cons =>
      rw [bindArguments] at h
      rcases ih (Nat.succ.inj hlen) h with hmem | hbind
      · exact .inl (mem_cons_of_mem _ hmem)
      · unfold Substitution.bind at hbind
        split at hbind
        · cases hbind
          exact .inl mem_cons_self
        · exact .inr hbind

/-- The parameters of a declaration are replaced when each one has an argument. -/
theorem scope_bind_arguments :
    (bindArguments params args sub).scope =
      params.foldl (fun scope param => scope.add param.name) sub.scope := by
  induction params generalizing args sub with
  | nil => rw [bindArguments, foldl_nil]
  | cons param rest ih =>
    cases args with
    | nil => cases hlen
    | cons arg others =>
      have hscope : (sub.bind param.name arg).scope = sub.scope.add param.name := by
        funext key
        unfold Substitution.scope Substitution.bind Scope.add
        split <;> simp_all
      rw [bindArguments, ih (Nat.succ.inj hlen), hscope, foldl_cons]

end Arguments

namespace Program

variable {p program : Program} {inner : Environment}

section Contexts

variable {t other : TypeExpr} {env otherEnvironment : Environment} {ctx : Context}
  {text : String} {added : List Char}

/-- With text to be added, the same jobs are done. -/
theorem calls_of_added (hoverride : ctx.tags.override? = some text)
    (htext : text.toList = '.' :: added) {next : Job}
    (h : p.Calls next ⟨t, env, ctx.withoutText⟩) : p.Calls next ⟨t, env, ctx⟩ := by
  obtain ⟨plan, hplan, hnext⟩ := h
  simp only [Program.plan, override_without_text] at hplan
  refine ⟨{ plan with assemble := fun ss => do
    return (← plan.assemble ss).modify ⟨String.ofList added, [], true⟩ }, ?_, hnext⟩
  simp only [Program.plan, hoverride, htext]
  exact bind_ok_iff.2 ⟨plan, hplan, rfl⟩

theorem MeetsObjectIndex.of_added (hoverride : ctx.tags.override? = some text)
    (htext : text.toList = '.' :: added) (h : p.MeetsObjectIndex ⟨t, env, ctx.withoutText⟩) :
    p.MeetsObjectIndex ⟨t, env, ctx⟩ := by
  obtain ⟨met, hmet, hobj⟩ := h
  rcases hmet.cases_tail with rfl | ⟨next, hmet, hcalls⟩
  · exact ⟨⟨t, env, ctx⟩, .refl, hobj.type, hobj.root⟩
  · exact ⟨met, hmet.tail (calls_of_added hoverride htext hcalls), hobj⟩

/-- Schemas match in every context when they match in all contexts without source text. -/
theorem matches_of_plain
    (h : ∀ ctx : Context, ctx.tags.override? = none →
      Matches (p.MeetsObjectIndex ⟨t, env, ctx⟩) Eq (p.compile ⟨t, env, ctx⟩)
        (p.compile ⟨other, otherEnvironment, ctx⟩)) (ctx : Context) :
    Matches (p.MeetsObjectIndex ⟨t, env, ctx⟩) Eq (p.compile ⟨t, env, ctx⟩)
      (p.compile ⟨other, otherEnvironment, ctx⟩) := by
  rcases override_cases ctx.tags with hnone | ⟨text, hoverride, ⟨added, htext⟩ | htext⟩
  · exact h ctx hnone
  · have hplain := (h ctx.withoutText (override_without_text ctx)).mono
      (MeetsObjectIndex.of_added hoverride htext)
    have hcompile (t : TypeExpr) (env : Environment) :
        p.compile ⟨t, env, ctx⟩ =
          (do let s ← p.compile ⟨t, env, ctx.withoutText⟩
              return s.modify ⟨String.ofList added, [], true⟩) := by
      simp only [compile, inContext, hoverride, htext, override_without_text]
      rfl
    -- What is added goes on top of both schemas; any other text stands for both.
    rw [hcompile, hcompile]
    exact (matching p _).compares_then hplain fun s _ => matches_refl _
  · rw [compile, compile, in_context_replaced hoverride htext,
      in_context_replaced hoverride htext]
    exact matches_refl _

end Contexts

section Generic

variable {declaration : Declaration} {name : Name} {arguments : List TypeExpr} {body : TypeExpr}
  {ctx : Context} {next : Environment → Compilation Plan}

/-- A declaration whose body stands for it when its parameters are replaced: an alias, or an
interface that extends no other, is not reserved and is not strict. -/
structure Replaceable (program : Program) (declaration : Declaration) (body : TypeExpr) : Prop where
  body : declaration.body? = some body
  generic : declaration.parameters ≠ []
  reserved : program.reserved? (some declaration) = .ok none
  strict : ∀ declared, declaration = .interface declared →
    (program.tags declared.tags).strict = false

/-- An interface that extends no other and is not strict has the plan of an object type. -/
theorem interface_plan_plain {d : Interface} (hher : d.heritage = [])
    (hstrict : (p.tags d.tags).strict = false) :
    p.interfacePlan none inner d ctx = p.typePlan inner ctx (.object d.members d.index) := by
  rw [interfacePlan, hher, hstrict]
  rfl

/-- How the body of a declaration is planned in an environment: everything is left to it, or its
plan is followed in its place and it is not an index itself. -/
def PlansBody (program : Program) (body : TypeExpr) (context : Context)
    (next : Environment → Compilation Plan) : Prop :=
  ∀ inner, next inner = pure (.through ⟨body, inner, context⟩) ∨
    next inner = program.plan ⟨body, inner, context⟩ ∧ ∀ base index, body ≠ .indexed base index

/-- Both ways give the schema of the body. -/
theorem PlansBody.run (h : p.PlansBody body ctx next) (inner : Environment) :
    (do (← next inner).run p.compile) = p.compile ⟨body, inner, ctx⟩ := by
  rcases h inner with hthrough | ⟨hbody, -⟩
  · rw [hthrough, pure_bind, Plan.run_through]
  · rw [hbody, compile_eq_run]

/-- What is met on the way to the body is met on the way to a job that is planned by it. -/
theorem PlansBody.meets {job : Job} (h : p.PlansBody body ctx next)
    (hplan : ∀ plan, (next inner).result = .ok plan → (p.plan job).result = .ok plan)
    (hmeets : p.MeetsObjectIndex ⟨body, inner, ctx⟩) : p.MeetsObjectIndex job := by
  rcases h inner with hthrough | ⟨hbody, hindexed⟩
  · have hf : (next inner).result = .ok (.through ⟨body, inner, ctx⟩) := by
      rw [hthrough]
      rfl
    exact hmeets.of_calls ⟨_, hplan _ hf, mem_singleton.2 rfl⟩
  · -- The body is no job of its own, but it is no index either.
    obtain ⟨met, hmet, hobj⟩ := hmeets
    rcases hmet.cases_tail with rfl | ⟨called, hmet, found, hf, hcalled⟩
    · obtain ⟨base, index, ht⟩ := hobj.type
      exact (hindexed base index ht).elim
    · rw [← hbody] at hf
      exact ⟨met, hmet.tail ⟨found, hplan found hf, hcalled⟩, hobj⟩

/-- A reference with arguments to a generic declaration is planned by the body of that. -/
theorem plan_generic (hf : p.find name = .ok (some declaration))
    (hdecl : p.Replaceable declaration body) (hargs : arguments ≠ [])
    (hplain : ctx.tags.override? = none) :
    ∃ next, p.PlansBody body ctx next ∧
      p.plan ⟨.reference name arguments, .empty, ctx⟩ = (do
        p.checkDepth declaration.name .empty
        next (← instantiation declaration.parameters name arguments .empty)) := by
  obtain ⟨key, hk, hfind⟩ := bind_eq_ok_iff.1 hf
  have hfilter : (some declaration).filter (fun declaration =>
      !arguments.isEmpty && !declaration.parameters.isEmpty) = some declaration := by
    simp [Option.filter, hargs, hdecl.generic]
  have huse : p.use .empty name arguments = (do
      p.checkDepth declaration.name .empty
      p.genericUse (← instantiation declaration.parameters name arguments .empty) declaration) := by
    have hunbound : Environment.empty.binding? key = none := rfl
    simp only [use, hk, hf, hunbound, hfilter, lift_ok, pure_bind]
  refine ⟨fun inner => do
    p.usePlan .empty ctx name (← p.genericUse inner declaration), ?_, ?_⟩
  · intro inner
    have hreserved := hdecl.reserved
    have hbody := hdecl.body
    cases declaration with
    | enumeration => cases hbody
    | typeAlias =>
      cases hbody
      exact .inl rfl
    | interface d =>
      rw [Declaration.body?, Option.ite_none_right_eq_some, Option.some.injEq] at hbody
      obtain ⟨hher, rfl⟩ := hbody
      rw [plan, hplain]
      dsimp only [genericUse]
      rw [hreserved, lift_ok, pure_bind]
      refine .inr ⟨?_, fun base index h => by cases h⟩
      exact interface_plan_plain (List.isEmpty_iff.1 hher) (hdecl.strict d rfl)
  · rw [plan, hplain]
    dsimp only [typePlan]
    rw [huse]
    simp only [bind_assoc]

/-- The substitution of arguments for parameters, when the arguments can be shown. -/
theorem proper_arguments {params : List GenericParameter}
    (hlen : arguments.length = params.length) (hargs : ∀ arg ∈ arguments, arg.IsArgument)
    (hi : (instantiation params name arguments .empty).result = .ok inner) :
    (bindArguments params arguments .none).Proper := by
  obtain ⟨bound, -, hi⟩ := bind_ok_iff.1 hi
  obtain ⟨v, hv, -⟩ := bind_ok_iff.1 hi
  have htexts := (TypeExpr.has_text_iff _).1 ⟨v, lift_ok_iff.1 hv⟩
  have hmem {key : Key} {t : TypeExpr}
      (h : bindArguments params arguments .none key = some t) : t ∈ arguments := by
    rcases mem_of_bind_arguments hlen h with hmem | hnone
    · exact hmem
    · cases hnone
  exact ⟨fun key t h => hargs t (hmem h), fun key t h =>
    (htexts t (hmem h)).2 trivial⟩

/-- A reference with arguments gives what the body of its declaration gives with the parameters
replaced, unless an index of an object type is met. -/
theorem generic_matches (hf : p.find name = .ok (some declaration))
    (hdecl : p.Replaceable declaration body)
    (hlen : arguments.length = declaration.parameters.length)
    (hargs : ∀ arg ∈ arguments, arg.IsArgument)
    (hplainIn : body.PlainIn (scopeOf declaration.parameters)) (ctx : Context) :
    Matches (p.MeetsObjectIndex ⟨.reference name arguments, .empty, ctx⟩) Eq
      (p.compile ⟨.reference name arguments, .empty, ctx⟩)
      (p.compile ⟨body.instantiate (bindArguments declaration.parameters arguments .none),
        .empty, ctx⟩) := by
  have hsome : arguments ≠ [] := by
    rintro rfl
    exact hdecl.generic (length_eq_zero_iff.1 hlen.symm)
  refine matches_of_plain (fun ctx hplain => ?_) ctx
  obtain ⟨next, hnext, hplan⟩ := plan_generic hf hdecl hsome hplain
  rw [compile_eq_run, hplan]
  simp only [bind_assoc, hnext.run]
  refine matches_quiet_bind (quiet_check_depth _) fun done hdone => ?_
  refine matches_quiet_bind (quiet_instantiation _ _ _) fun inner hi => ?_
  have halike (excused : Prop) : (matching p excused).Jobs ⟨body, inner, ctx⟩
      ⟨body.instantiate (bindArguments declaration.parameters arguments .none), .empty, ctx⟩ := by
    refine ⟨⟨_, proper_arguments hlen hargs hi, ?_, rfl, ?_⟩, rfl⟩
    · rw [scope_bind_arguments hlen]
      exact hplainIn
    · exact linked_arguments hlen (bind_types_of_instantiation hi)
  refine compile_matches (halike _) (hnext.meets fun found hf => ?_)
  rw [hplan]
  exact bind_ok_iff.2 ⟨done, hdone, bind_ok_iff.2 ⟨inner, hi, hf⟩⟩

/-- Instantiation is substitution: when a reference to a generic declaration has a schema, the body
with every parameter replaced by its argument has the same schema and the same dependencies, or it
has none, and then an index of an object type is met on the way. Parameters have to stand in the
body without arguments and not directly inside of parentheses, and arguments have to be types by
themselves. -/
theorem instantiation_is_substitution (hfound : program.find name = .ok (some declaration))
    (hdeclaration : program.Replaceable declaration body)
    (hlength : arguments.length = declaration.parameters.length)
    (harguments : ∀ argument ∈ arguments, argument.IsArgument)
    (hplain : body.PlainIn (scopeOf declaration.parameters)) {tags : Tags} {schema : Schema}
    (h : (program.schemaOf (some (.reference name arguments)) .empty tags).result = .ok schema) :
    let replaced := program.schemaOf (declaration.instance? arguments) .empty tags
    replaced.result = .ok schema ∧ usedNames replaced.trace =
        usedNames (program.schemaOf (some (.reference name arguments)) .empty tags).trace ∨
      (∃ failure, replaced.result = .error failure) ∧
        program.MeetsObjectIndex
          ⟨.reference name arguments, .empty, { tags := program.tags tags }⟩ := by
  intro replaced
  have hinstance : replaced = program.compile ⟨body.instantiate
      (bindArguments declaration.parameters arguments .none), .empty,
      { tags := program.tags tags }⟩ := by
    show program.schemaOf (declaration.instance? arguments) .empty tags = _
    rw [Declaration.instance?, hdeclaration.body]
    rfl
  rw [schema_of_some] at h ⊢
  rw [hinstance]
  rcases generic_matches hfound hdeclaration hlength harguments hplain _ schema h with
    ⟨other, hother, rfl, hmarks⟩ | ⟨hmeets, hfailure⟩
  · exact .inl ⟨hother, used_names_of_marks hmarks⟩
  · exact .inr ⟨hfailure, hmeets⟩

end Generic

section Holders

/-- An alias `Holder` of a type with a parameter `T`. -/
def holder (body : TypeExpr) : Declaration :=
  .typeAlias ⟨.str "Holder", [], true, [⟨.str "T", none, none⟩], body⟩

/-- The program of a holder, with the names of types for schemas. -/
def holders (body : TypeExpr) : Program where
  unit := ⟨.null, [holder body], []⟩
  settings := { Settings.default with schemaName := some id }

theorem holder_replaceable (body : TypeExpr) : (holders body).Replaceable (holder body) body where
  body := rfl
  generic := by simp [holder, Declaration.parameters]
  reserved := rfl
  strict := fun _ h => by cases h

/-- With `type Holder<T> = T[]`, the schema of `Holder<Dog>` is the one of `Dog[]`, and both depend
on the schema of dogs. -/
theorem holder_of_dogs_replaced :
    let items : TypeExpr := .array (.reference (.str "T") [])
    let dog : TypeExpr := .reference (.str "Dog") []
    ∃ schema,
      ((holders items).schemaOf (some (.reference (.str "Holder") [dog])) .empty []).result =
        .ok schema ∧
      ((holders items).schemaOf (some (.array dog)) .empty []).result = .ok schema ∧
      usedNames ((holders items).schemaOf (some (.array dog)) .empty []).trace =
        [.str "Dog"] := by
  intro items dog
  have hplain : items.PlainIn (scopeOf (holder items).parameters) := by
    refine .of_parts (by simp [items]) (by simp [items]) ?_
    exact List.forall_mem_singleton.2 (.of_no_parts rfl (by simp))
  obtain ⟨schema, hschema⟩ : ∃ schema, ((holders items).schemaOf
      (some (.reference (.str "Holder") [dog])) .empty []).result = .ok schema := ⟨_, rfl⟩
  have hargument : ∀ argument ∈ [dog], argument.IsArgument := List.forall_mem_singleton.2 trivial
  rcases instantiation_is_substitution rfl (holder_replaceable items) rfl hargument hplain hschema
    with ⟨hreplaced, hnames⟩ | ⟨⟨failure, hfailure⟩, -⟩
  · have hdog : usedNames ((holders items).schemaOf (some (.reference (.str "Holder") [dog]))
        .empty []).trace = [.str "Dog"] := rfl
    exact ⟨schema, hschema, hreplaced, hnames.trans hdog⟩
  · cases hfailure

/-- With `type Holder<T> = { x: T }["x"][number]`, the schema of `Holder<string[]>` is one of any
value, since the type `T` of the member does not look like an array. With `string[]` in the place of
`T` there is an element to be taken, and an object type has no path to it. -/
theorem holder_of_texts_not_replaced :
    let item (type : TypeExpr) : TypeExpr :=
      .indexed (.indexed (.object [⟨"x", some type, false, false, []⟩] none) (.literal (.str "x")))
        (.keyword .number)
    let body := item (.reference (.str "T") [])
    let texts : TypeExpr := .array (.keyword .string)
    (holders body).find (.str "Holder") = .ok (some (holder body)) ∧
      (holders body).Replaceable (holder body) body ∧ texts.IsArgument ∧
      body.PlainIn (scopeOf (holder body).parameters) ∧
      (holder body).instance? [texts] = some (item texts) ∧
      ((holders body).schemaOf (some (.reference (.str "Holder") [texts])) .empty []).result =
        .ok (.call "any" []) ∧
      ∃ failure, ((holders body).schemaOf (some (item texts)) .empty []).result =
        .error failure := by
  intro item body texts
  refine ⟨rfl, holder_replaceable body, trivial, ?_, rfl, rfl, _, rfl⟩
  have hindex {index : TypeExpr} (hparts : index.parts = [])
      (hparen : ∀ inner, index ≠ .paren inner) {base : TypeExpr}
      (hbase : base.PlainIn (scopeOf (holder body).parameters)) :
      (TypeExpr.indexed base index).PlainIn (scopeOf (holder body).parameters) :=
    .of_parts (by simp) (by simp)
      (List.forall_mem_cons.2 ⟨hbase, List.forall_mem_singleton.2 (.of_no_parts hparts hparen)⟩)
  refine hindex rfl (by simp) (hindex rfl (by simp) ?_)
  exact .of_parts (by simp) (by simp) (List.forall_mem_singleton.2 (.of_no_parts rfl (by simp)))

end Holders

end Program

end Schemata
