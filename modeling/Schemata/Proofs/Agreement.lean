import Schemata.Proofs.StructuralCore

/-!
# Schemas agree with types

A job of the structural core asks for the schema of a type of the core. `Agrees` says that a schema
accepts the values that belong to the type of a job and those that its context allows beside them.
`PlanAgrees` says that a plan gives such a schema when all of it is done without a warning. Here it
is shown for each kind of type that is not a reference: `literal_plan_agrees`, `array_plan_agrees`,
`union_plan_agrees`, `rest_tuple_plan_agrees`, `object_plan_agrees` and so on.
-/

namespace Schemata

open List

namespace Traced

variable {α β : Type}

/-- A computation gives a value, and no warning on the way. -/
structure Clean (computation : Compilation α) (value : α) : Prop where
  result : computation.result = .ok value
  silent : warnings computation.trace = []

theorem clean_pure_iff {v found : α} : (Pure.pure v : Compilation α).Clean found ↔ v = found := by
  constructor
  · rintro ⟨hres, -⟩
    exact Except.ok.inj hres
  · rintro rfl
    exact ⟨rfl, rfl⟩

/-- Two computations are without a warning when both are. -/
theorem clean_bind_iff {a : Compilation α} {next : α → Compilation β} {v : β} :
    (a >>= next).Clean v ↔ ∃ middle, a.Clean middle ∧ (next middle).Clean v := by
  constructor
  · rintro ⟨hres, hsilent⟩
    obtain ⟨middle, ha, hnext⟩ := bind_ok_iff.1 hres
    rw [bind_trace_of_ok ha, warnings, filterMap_append, append_eq_nil_iff] at hsilent
    exact ⟨middle, ⟨ha, hsilent.1⟩, hnext, hsilent.2⟩
  · rintro ⟨middle, ⟨ha, hquiet⟩, hnext, hsilent⟩
    refine ⟨bind_ok_iff.2 ⟨middle, ha, hnext⟩, ?_⟩
    rw [bind_trace_of_ok ha, warnings, filterMap_append, append_eq_nil_iff]
    exact ⟨hquiet, hsilent⟩

theorem clean_lift {v : Except Fault α} {found : α}
    (h : (liftM v : Compilation α).Clean found) : v = .ok found := lift_ok_iff.1 h.result

/-- Jobs are done without a warning when each one is. -/
theorem clean_of_mapM {compile : α → Compilation β} {jobs : List α} {ss : List β}
    (h : (jobs.mapM compile).Clean ss) : Forall₂ (fun job s => (compile job).Clean s) jobs ss := by
  induction jobs generalizing ss with
  | nil =>
    rw [mapM_nil, clean_pure_iff] at h
    exact h ▸ .nil
  | cons job rest ih =>
    rw [mapM_cons] at h
    obtain ⟨a, ha, h⟩ := clean_bind_iff.1 h
    obtain ⟨others, hothers, h⟩ := clean_bind_iff.1 h
    exact clean_pure_iff.1 h ▸ .cons ha (ih hothers)

end Traced

section Lists

variable {α β γ : Type} {related : α → β → Prop} {a : List α} {b : List β}

/-- What holds of all of related values. -/
theorem forall_iff_of_forall₂ {left : α → Prop} {right : β → Prop} (h : Forall₂ related a b)
    (hiff : ∀ x y, related x y → (left x ↔ right y)) : (∀ x ∈ a, left x) ↔ ∀ y ∈ b, right y := by
  induction h with
  | nil => simp
  | cons hrel hr ih => rw [forall_mem_cons, forall_mem_cons, hiff _ _ hrel, ih]

/-- What holds of one of related values. -/
theorem exists_iff_of_forall₂ {left : α → Prop} {right : β → Prop} (h : Forall₂ related a b)
    (hiff : ∀ x y, related x y → (left x ↔ right y)) : (∃ x ∈ a, left x) ↔ ∃ y ∈ b, right y := by
  induction h with
  | nil => simp
  | cons hrel hr ih => simp [hiff _ _ hrel, ih]

/-- Values that are related to related values one by one. -/
theorem forall₂_iff_of_forall₂ {left : α → γ → Prop} {right : β → γ → Prop}
    (h : Forall₂ related a b) (hiff : ∀ x y, related x y → ∀ z, left x z ↔ right y z)
    {third : List γ} : Forall₂ left a third ↔ Forall₂ right b third := by
  induction h generalizing third with
  | nil => cases third <;> simp
  | cons hrel hr ih =>
    cases third with
    | nil => simp
    | cons =>
      rw [forall₂_cons, forall₂_cons, hiff _ _ hrel, ih]

/-- Related values of a list are related in another way, if each of them is. -/
theorem forall₂_imp_of_mem {other : α → β → Prop} (h : Forall₂ related a b)
    (himp : ∀ x ∈ a, ∀ y, related x y → other x y) : Forall₂ other a b := by
  induction h with
  | nil => exact .nil
  | cons hrel hr ih =>
    exact .cons (himp _ mem_cons_self _ hrel) (ih (forall_mem_cons.1 himp).2)

/-- What is related to two lists, one after the other, comes in two parts. -/
theorem forall₂_split {front back : List α} (h : Forall₂ related (front ++ back) b) :
    ∃ left right, b = left ++ right ∧ Forall₂ related front left ∧ Forall₂ related back right := by
  refine ⟨b.take front.length, b.drop front.length, (take_append_drop front.length b).symm, ?_, ?_⟩
  · simpa using forall₂_take front.length h
  · simpa using forall₂_drop front.length h

end Lists

/-- The key of a declaration without parameters and the key of its schema. -/
def Program.Paired (program : Program) (key schemaKey : Key) : Prop :=
  ∃ declaration ∈ program.unit.declarations, declaration.parameters = [] ∧
    declaration.name.key? = some key ∧ program.schemaKey? declaration = some schemaKey

/-- A job of the structural core. -/
structure CoreJob (program : Program) (job : Job) : Prop where
  context : job.context.Bare
  environment : job.environment.InCore program false
  type : Core program false job.environment.scope job.type

/-- The type of a job with all parameters replaced. -/
def Job.closed (job : Job) : TypeExpr :=
  job.type.instantiate job.environment.close

/-- A schema accepts the values of the type of a job and those that its context allows, given what
the schemas under names accept and what belongs to the types under names. -/
def Agrees (program : Program) (accepted known : Key → Value → Prop) (job : Job)
    (schema : Schema) : Prop :=
  ∀ value, schema.Accepts accepted value ↔
    job.context.Allows value ∨ Belongs program known job.closed value

/-- A job is done without a warning, and if it is of the core then its schema agrees with it. -/
structure Done (program : Program) (accepted known : Key → Value → Prop) (job : Job)
    (schema : Schema) : Prop where
  clean : (program.compile job).Clean schema
  agrees : CoreJob program job → Agrees program accepted known job schema

/-- What a plan gives agrees with a job when all is done without a warning. -/
def PlanAgrees (program : Program) (accepted known : Key → Value → Prop) (job : Job)
    (plan : Compilation Plan) : Prop :=
  ∀ found schemas schema, plan.Clean found →
    List.Forall₂ (Done program accepted known) found.jobs schemas →
    (found.assemble schemas).Clean schema → Agrees program accepted known job schema

section Plans

variable {p : Program} {accepted known : Key → Value → Prop} {job next : Job} {plan : Plan}
  {s : Schema}

/-- A plan that is there agrees when its assembly does. -/
theorem plan_agrees_pure
    (h : ∀ ss s, Forall₂ (Done p accepted known) plan.jobs ss →
      (plan.assemble ss).Clean s → Agrees p accepted known job s) :
    PlanAgrees p accepted known job (pure plan) := by
  intro found ss s hplan hdone hassemble
  cases Traced.clean_pure_iff.1 hplan
  exact h ss s hdone hassemble

/-- Jobs of the same values in the same context agree with the same schemas. -/
theorem Agrees.of_values (h : Agrees p accepted known next s) (hctx : next.context = job.context)
    (hvalues : ∀ v, Belongs p known next.closed v ↔
      Belongs p known job.closed v) : Agrees p accepted known job s := by
  intro v
  rw [h v, hctx, hvalues]

/-- What is left to another job agrees when that job has the same values. -/
theorem plan_agrees_through (hnext : CoreJob p next) (hctx : next.context = job.context)
    (hvalues : ∀ v, Belongs p known next.closed v ↔ Belongs p known job.closed v) :
    PlanAgrees p accepted known job (pure (.through next)) := by
  refine plan_agrees_pure fun ss s hdone hassemble => ?_
  cases hdone with
  | cons ha =>
    cases Traced.clean_pure_iff.1 hassemble
    exact (ha.agrees hnext).of_values hctx hvalues

/-- A schema with the modifiers of a context agrees when it accepts the values of the type. -/
theorem agrees_of_finish {inner : Schema} (hctx : job.context.Bare)
    (hvalues : ∀ v, inner.Accepts accepted v ↔ Belongs p known job.closed v)
    (h : (p.finish job.context inner).Clean s) : Agrees p accepted known job s := by
  intro v
  rw [Program.accepts_finish hctx h.result, hvalues]

/-- A plan without further jobs agrees when its schema accepts the values of the type. -/
theorem plan_agrees_leaf {inner : Schema} (hctx : job.context.Bare)
    (hvalues : ∀ v, inner.Accepts accepted v ↔ Belongs p known job.closed v) :
    PlanAgrees p accepted known job (pure (.leaf (p.finish job.context inner))) :=
  plan_agrees_pure fun _ _ _ hassemble => agrees_of_finish hctx hvalues hassemble

/-- Following a plan that agrees gives a schema that agrees, if the jobs that it names do. -/
theorem run_agrees {planned : Compilation Plan} (hplanned : PlanAgrees p accepted known job planned)
    (hjobs : ∀ plan, planned.result = .ok plan → ∀ next ∈ plan.jobs, ∀ s,
      (p.compile next).Clean s → CoreJob p next → Agrees p accepted known next s)
    (h : (do (← planned).run p.compile : Compilation Schema).Clean s) :
    Agrees p accepted known job s := by
  obtain ⟨plan, hplan, h⟩ := Traced.clean_bind_iff.1 h
  obtain ⟨ss, hschemas, hassemble⟩ := Traced.clean_bind_iff.1 h
  have hdone : Forall₂ (Done p accepted known) plan.jobs ss :=
    forall₂_imp_of_mem (Traced.clean_of_mapM hschemas) fun next hnext s hclean =>
      ⟨hclean, hjobs plan hplan.result next hnext s hclean⟩
  exact hplanned plan ss s hplan hdone hassemble

theorem bare_default : ({} : Context).Bare := ⟨rfl, rfl, rfl⟩

/-- A part of which nothing is asked accepts the values of its type. -/
theorem Done.accepts_iff {t : TypeExpr} {env : Environment}
    (hdone : Done p accepted known ⟨t, env, {}⟩ s) (henv : env.InCore p false)
    (ht : Core p false env.scope t) (v : Value) :
    s.Accepts accepted v ↔ Belongs p known (t.instantiate env.close) v := by
  rw [hdone.agrees ⟨bare_default, henv, ht⟩ v]
  simp [Context.Allows, Job.closed]

end Plans

namespace Program

section Types

variable {p : Program} {accepted known : Key → Value → Prop} {env : Environment}
  {ctx : Context} (hcontext : ctx.Bare) (henvironment : env.InCore p false) {arms : List TypeExpr}
  {sub : Substitution} {v : Value} {ss : List Schema}

/-- The schema of a predefined type of the core accepts its values. -/
theorem accepts_core_keyword {keyword : Keyword} (h : keyword ∈ Keyword.core) (v : Value) :
    (Schema.call keyword.word []).Accepts accepted v ↔ keyword.Holds v := by
  rw [Schema.accepts_call_atom]
  simp only [Keyword.core, mem_cons, not_mem_nil, or_false] at h
  rcases h with rfl | rfl | rfl | rfl | rfl | rfl | rfl | rfl <;>
    simp [Keyword.word, AtomAccepts, Keyword.Holds]

include hcontext in
theorem keyword_plan_agrees {keyword : Keyword} (h : keyword ∈ Keyword.core) :
    PlanAgrees p accepted known ⟨.keyword keyword, env, ctx⟩
      (p.typePlan env ctx (.keyword keyword)) := by
  have hs : p.keywordSchema keyword ctx = p.finish ctx (.call keyword.word []) := by
    cases keyword with
    | object => simp [Keyword.core] at h
    | _ => rfl
  rw [typePlan, hs]
  refine plan_agrees_leaf hcontext fun v => ?_
  rw [accepts_core_keyword h, Job.closed, TypeExpr.instantiate, belongs_keyword]

include hcontext in
theorem literal_plan_agrees {json : Json} :
    PlanAgrees p accepted known ⟨.literal json, env, ctx⟩ (p.typePlan env ctx (.literal json)) := by
  have hclosed (v : Value) : Belongs p known
      (Job.mk (.literal json) env ctx).closed v ↔ Value.ofJson? json = some v := by
    rw [Job.closed, TypeExpr.instantiate, belongs_literal]
  cases json with
  | null =>
    refine plan_agrees_leaf hcontext fun v => ?_
    rw [hclosed, Schema.accepts_call_atom]
    simp [AtomAccepts, Value.ofJson?, eq_comm]
  | _ =>
    refine plan_agrees_leaf hcontext fun v => ?_
    rw [hclosed, Schema.accepts_literal]

include hcontext henvironment in
/-- The plan of a type whose values are the arrays of the values of another type. -/
theorem array_plan_agrees {t elt : TypeExpr} (helt : Core p false env.scope elt)
    (hvalues : ∀ v, Belongs p known (t.instantiate env.close) v ↔
      ∃ xs, v = .array xs ∧ ∀ x ∈ xs, Belongs p known (elt.instantiate env.close) x) :
    PlanAgrees p accepted known ⟨t, env, ctx⟩
      (pure { jobs := [⟨elt, env, { tags := ctx.tags.element }⟩]
              assemble := fun ss => p.finish ctx (.call "array" ss) }) := by
  have htags : ctx.tags.element = [] := by simp [hcontext.tags, Tags.element, Tags.get?]
  rw [htags]
  refine plan_agrees_pure fun ss s hdone hassemble => ?_
  cases hdone with
  | cons ha hr =>
    cases hr
    refine agrees_of_finish hcontext (fun v => ?_) hassemble
    rw [Job.closed, hvalues, Schema.accepts_array]
    simp only [ha.accepts_iff henvironment helt]

include hcontext henvironment in
theorem paren_plan_agrees {t : TypeExpr} (ht : Core p false env.scope t) :
    PlanAgrees p accepted known ⟨.paren t, env, ctx⟩ (p.typePlan env ctx (.paren t)) := by
  refine plan_agrees_through ⟨hcontext, henvironment, ht⟩ rfl fun v => ?_
  rw [Job.closed, Job.closed, TypeExpr.instantiate, belongs_paren]

include henvironment in
/-- The parts of a type that are done accept the values of their types, one by one. -/
theorem accepts_parts {types : List TypeExpr}
    (hdone : Forall₂ (Done p accepted known) (types.map fun t => (⟨t, env, {}⟩ : Job)) ss)
    (hts : ∀ t ∈ types, Core p false env.scope t) :
    Forall₂ (fun closed s => ∀ v, Belongs p known closed v ↔ Schema.Accepts accepted s v)
      (types.map (TypeExpr.instantiate env.close)) ss := by
  induction types generalizing ss with
  | nil =>
    cases hdone
    exact .nil
  | cons t rest ih =>
    cases hdone with
    | cons ha hr =>
      refine .cons (fun v => ?_) (ih hr (forall_mem_cons.1 hts).2)
      rw [ha.accepts_iff henvironment (hts t mem_cons_self)]

/-- A schema that is required beside others accepts what all of them accept. -/
theorem accepts_conjunction {s : Schema} {others : List Schema} :
    (s.withModifiers (others.map fun other => ⟨"and", [other], false⟩)).Accepts accepted
        v ↔ ∀ conjunct ∈ s :: others, conjunct.Accepts accepted v := by
  induction others generalizing s with
  | nil => simp
  | cons other rest ih =>
    rw [map_cons, Schema.withModifiers_cons, ih]
    simp only [forall_mem_cons, Schema.accepts_and, and_assoc]

include hcontext henvironment in
theorem intersection_plan_agrees (hsome : arms ≠ [])
    (harms : ∀ arm ∈ arms, Core p false env.scope arm) :
    PlanAgrees p accepted known ⟨.intersection arms, env, ctx⟩
      (p.typePlan env ctx (.intersection arms)) := by
  cases arms with
  | nil => exact (hsome rfl).elim
  | cons =>
    refine plan_agrees_pure fun ss s hdone hassemble => ?_
    have hps := accepts_parts henvironment hdone harms
    cases hdone with
    | @cons _ head _ =>
      refine agrees_of_finish hcontext (fun v => ?_) hassemble
      rw [headD_cons, tail_cons, accepts_conjunction, Job.closed,
        TypeExpr.instantiate, TypeExpr.instantiate_all_eq, belongs_intersection]
      exact (forall_iff_of_forall₂ hps fun _ _ h => h v).symm

/-- Null is the only value of an arm that is the literal null. -/
theorem belongs_null {arm : TypeExpr} (h : arm.isNull = true) :
    Belongs p known (arm.instantiate sub) v ↔ v = .null := by
  have hun : arm.unwrap = .literal .null := by
    unfold TypeExpr.isNull at h
    split at h
    · assumption
    · cases h
  rw [← belongs_instantiate_unwrap, hun, TypeExpr.instantiate, belongs_literal]
  simp [Value.ofJson?, eq_comm]

/-- The values of a union are those of the arms that are not null, and null if that is an arm. -/
theorem belongs_union_iff :
    Belongs p known ((TypeExpr.union arms).instantiate sub) v ↔
      ((arms.filter (!·.isNull)).length ≠ arms.length ∧ v = .null) ∨
        ∃ arm ∈ arms.filter (!·.isNull), Belongs p known (arm.instantiate sub) v := by
  have hnull : (arms.filter (!·.isNull)).length ≠ arms.length ↔
      ∃ arm ∈ arms, arm.isNull = true := by
    simp [length_filter_eq_length_iff]
  rw [hnull, TypeExpr.instantiate, TypeExpr.instantiate_all_eq, belongs_union]
  constructor
  · rintro ⟨closed, hclosed, hv⟩
    obtain ⟨arm, harm, rfl⟩ := mem_map.1 hclosed
    by_cases h : arm.isNull = true
    · exact .inl ⟨⟨arm, harm, h⟩, (belongs_null h).1 hv⟩
    · exact .inr ⟨arm, mem_filter.2 ⟨harm, by simp [h]⟩, hv⟩
  · rintro (⟨⟨arm, harm, h⟩, hv⟩ | ⟨arm, harm, hv⟩)
    · exact ⟨_, mem_map_of_mem harm, (belongs_null h).2 hv⟩
    · exact ⟨_, mem_map_of_mem (mem_filter.1 harm).1, hv⟩

include hcontext in
/-- The schema of a union without a discriminator accepts what one of its arms accepts. -/
theorem accepts_union_schema {s : Schema}
    (h : (p.unionSchema env arms ss ctx).Clean s) (v : Value) :
    s.Accepts accepted v ↔ ctx.Allows v ∨ ∃ arm ∈ ss, arm.Accepts accepted v := by
  unfold unionSchema at h
  obtain ⟨mods, hmods, h⟩ := Traced.clean_bind_iff.1 h
  have hfield : ctx.tags.discriminator?.getD "" = "" := by
    simp [hcontext.tags, Tags.discriminator?, Tags.get?]
  simp only [hfield, ne_eq, not_true_eq_false, if_false] at h
  cases Traced.clean_pure_iff.1 h
  rw [Schema.combinator, accepts_modifiers hcontext hmods.result, Schema.accepts_union]

/-- A context that allows null allows what it did, and null. -/
theorem allows_nullable {null : Bool} :
    ({ ctx with nullable := ctx.nullable || null } : Context).Allows v ↔
      ctx.Allows v ∨ (null = true ∧ v = .null) := by
  simp only [Context.Allows, Bool.or_eq_true, or_and_right, or_assoc]

include hcontext henvironment in
theorem union_plan_agrees (hsome : arms ≠ []) (harms : ∀ arm ∈ arms, Core p false env.scope arm) :
    PlanAgrees p accepted known ⟨.union arms, env, ctx⟩ (p.typePlan env ctx (.union arms)) := by
  have hkept (arm : TypeExpr) (harm : arm ∈ arms.filter (!·.isNull)) :
      Core p false env.scope arm := harms arm (mem_filter.1 harm).1
  have hclosed (v : Value) := @belongs_union_iff p known arms env.close v
  have hbare (nullable : Bool) : ({ ctx with nullable := nullable } : Context).Bare :=
    ⟨hcontext.tags, hcontext.allOptional, hcontext.allRequired⟩
  rw [typePlan]
  dsimp only
  generalize arms.filter (fun arm => !arm.isNull) = kept at hkept hclosed
  rcases kept with _ | ⟨arm, _ | ⟨b, rest⟩⟩
  · -- Null alone: the context need not allow it.
    refine plan_agrees_pure fun ss s hdone hassemble v => ?_
    have hlen : 0 ≠ arms.length := fun h => hsome (length_eq_zero_iff.1 h.symm)
    have hatom : (Schema.call "null" []).Accepts accepted v ↔ v = .null := by
      simp [Schema.accepts_call_atom, AtomAccepts]
    have hunion : Belongs p known ((TypeExpr.union arms).instantiate env.close) v ↔ v = .null := by
      simp [hclosed, hlen]
    rw [accepts_finish (hbare false) hassemble.result, hatom, Job.closed, hunion]
    simp only [Context.Allows, Bool.false_eq_true, false_and, or_false]
    grind
  · -- One arm: it is compiled in a context that allows null.
    refine plan_agrees_pure fun ss s hdone hassemble v => ?_
    cases hdone with
    | cons ha =>
      cases Traced.clean_pure_iff.1 hassemble
      have hagrees := ha.agrees ⟨hbare _, henvironment, hkept arm mem_cons_self⟩ v
      rw [headD_cons, hagrees, allows_nullable, Job.closed, Job.closed, hclosed]
      simp [or_assoc]
  · refine plan_agrees_pure fun ss s hdone hassemble v => ?_
    have hps := accepts_parts henvironment hdone hkept
    rw [accepts_union_schema (hbare _) hassemble, allows_nullable, Job.closed, hclosed,
      ← exists_iff_of_forall₂ hps fun _ _ h => h v]
    simp [or_assoc]

section Tuples

variable {slots : List TypeExpr}

/-- A type of the core is not a spread, whatever its parameters stand for. -/
theorem closed_ne_spread {t other : TypeExpr} (henv : env.InCore p false)
    (ht : Core p false env.scope t) : t.instantiate env.close ≠ .spread other := by
  induction henv generalizing t with
  | @intro env types environments ih =>
    cases ht with
    | parameter hk hscope =>
      obtain ⟨b, hb⟩ := Option.isSome_iff_exists.1 hscope
      have hmem := mem_of_find?_eq_some hb
      rw [Environment.instantiate_bound hk hb]
      exact ih b hmem (types b hmem)
    | arrayOf _ hscope | readonly _ hscope | record _ hscope | named _ hscope
    | generic _ hscope =>
      rw [Environment.instantiate_unbound hscope]
      simp
    | _ =>
      rw [TypeExpr.instantiate]
      simp

/-- Nothing is asked of the slots of a tuple of the core. -/
theorem slot_jobs_eq (hslots : ∀ slot ∈ slots, Core p false env.scope slot) :
    slots.map (slotJob env) = slots.map fun slot => ⟨slot, env, {}⟩ := by
  refine map_congr_left fun slot hslot => ?_
  cases hslots slot hslot <;> rfl

theorem spread_type_plain
    (hslots : ∀ slot ∈ slots, Core p false env.scope slot) : spreadType env slots = .ok none := by
  unfold spreadType
  split
  · rename_i t hlast
    cases hslots _ (mem_of_getLast? hlast)
  · rfl

include hcontext henvironment in
theorem tuple_plan_agrees (hslots : ∀ slot ∈ slots, Core p false env.scope slot) :
    PlanAgrees p accepted known ⟨.tuple slots, env, ctx⟩ (p.typePlan env ctx (.tuple slots)) := by
  intro plan ss s hplan hdone hassemble v
  rw [typePlan] at hplan
  obtain ⟨mods, hmods, hplan⟩ := Traced.clean_bind_iff.1 hplan
  rw [spread_type_plain hslots] at hplan
  cases Traced.clean_pure_iff.1 hplan
  cases Traced.clean_pure_iff.1 hassemble
  dsimp only at hdone
  rw [slot_jobs_eq hslots] at hdone
  have hps := accepts_parts henvironment hdone hslots
  have hplain : ∀ slot ∈ slots.map (TypeExpr.instantiate env.close), ∀ t, slot ≠ .spread t := by
    intro slot hslot t
    obtain ⟨part, hpart, rfl⟩ := mem_map.1 hslot
    exact closed_ne_spread henvironment (hslots part hpart)
  rw [Schema.combinator, accepts_modifiers hcontext hmods.result, Schema.accepts_tuple,
    Job.closed, TypeExpr.instantiate, TypeExpr.instantiate_all_eq, belongs_plain_tuple hplain]
  simp only [forall₂_iff_of_forall₂ hps fun _ _ h => h]

/-- A spread that stands by itself is not compiled without a warning. -/
theorem not_clean_spread {t : TypeExpr} {s : Schema} :
    ¬(p.compile ⟨.spread t, env, {}⟩).Clean s := by
  intro h
  rw [compile_eq_run] at h
  obtain ⟨plan, hplan, h⟩ := Traced.clean_bind_iff.1 h
  cases Traced.clean_pure_iff.1 hplan
  rw [Plan.run_leaf, unsupported] at h
  obtain ⟨text, -, h⟩ := Traced.clean_bind_iff.1 h
  obtain ⟨done, hwarned, -⟩ := Traced.clean_bind_iff.1 h
  cases hwarned.silent

include hcontext henvironment in
theorem rest_tuple_plan_agrees (hp : CoreProgram p false) {rest : TypeExpr}
    (hslots : ∀ slot ∈ slots, Core p false env.scope slot) (hr : Core p false env.scope rest) :
    PlanAgrees p accepted known ⟨.tuple (slots ++ [.spread rest]), env, ctx⟩
      (p.typePlan env ctx (.tuple (slots ++ [.spread rest]))) := by
  intro plan ss s hplan hdone hassemble v
  rw [typePlan] at hplan
  obtain ⟨mods, hmods, hplan⟩ := Traced.clean_bind_iff.1 hplan
  obtain ⟨found, hf, hplan⟩ := Traced.clean_bind_iff.1 hplan
  have hspread : elementType env rest = .ok found := by
    simpa [spreadType] using Traced.clean_lift hf
  cases found with
  | none =>
    -- The spread is compiled like a slot, with a warning.
    cases Traced.clean_pure_iff.1 hplan
    dsimp only at hdone
    rw [map_append] at hdone
    obtain ⟨left, right, -, -, hlast⟩ := forall₂_split hdone
    cases hlast with
    | cons hlast => exact (not_clean_spread hlast.clean).elim
  | some found =>
    obtain ⟨elt, inner⟩ := found
    cases Traced.clean_pure_iff.1 hplan
    cases Traced.clean_pure_iff.1 hassemble
    obtain ⟨hi, helt, hvalues⟩ :=
      @CoreProgram.belongs_elements known _ _ hp _ _ _ _ henvironment hr hspread
    dsimp only at hdone
    rw [dropLast_concat, slot_jobs_eq hslots] at hdone
    cases hdone with
    | cons ha hothers =>
      have hps := accepts_parts henvironment hothers hslots
      have hx := ha.accepts_iff hi helt
      have hclosed : (TypeExpr.tuple (slots ++ [.spread rest])).instantiate env.close =
          .tuple (slots.map (TypeExpr.instantiate env.close) ++
            [.spread (rest.instantiate env.close)]) := by
        simp [TypeExpr.instantiate, TypeExpr.instantiate_all_eq]
      rw [Schema.combinator, Schema.withModifiers_cons,
        accepts_modifiers hcontext hmods.result, tail_cons, take_succ_cons,
        take_zero, Schema.accepts_rest, Job.closed, hclosed, belongs_rest_tuple]
      simp only [Schema.accepts_tuple, hvalues, hx, Value.array.injEq, exists_eq_left',
        forall₂_iff_of_forall₂ hps fun _ _ h => h]

end Tuples

section Objects

variable {ms : List (Member TypeExpr)} {index : Option (IndexSignature TypeExpr)}
  {fields : List (String × Value)}

/-- The context of a member without tags asks for nothing but that it may be left out. -/
theorem member_context_eq {m : Member TypeExpr} (htags : m.tags = []) :
    p.memberContext none m = { optional := m.optional } := by
  simp [memberContext, Program.tags, htags]

/-- The properties of an object accept what the types of their members allow. -/
theorem accepts_entries {named : List (String × Job)} {ss more : List Schema}
    (hdone : Forall₂ (fun e => Done p accepted known e.2) named ss)
    (hjobs : ∀ e ∈ named, CoreJob p e.2) :
    (∀ e ∈ (named.map (·.1)).zip (ss ++ more), e.2.Accepts accepted (Value.read fields e.1)) ↔
      ∀ e ∈ named, e.2.context.Allows (Value.read fields e.1) ∨
        Belongs p known e.2.closed (Value.read fields e.1) := by
  induction hdone with
  | nil => simp
  | cons ha hr ih =>
    rw [map_cons, cons_append, zip_cons_cons, forall_mem_cons,
      forall_mem_cons, ha.agrees (hjobs _ mem_cons_self),
      ih (forall_mem_cons.1 hjobs).2]

/-- What the members of an object type allow. -/
theorem member_jobs_iff (htags : ∀ m ∈ ms, m.tags = []) :
    (∀ e ∈ p.memberJobs none env ms,
        e.2.context.Allows (Value.read fields e.1) ∨
          Belongs p known e.2.closed (Value.read fields e.1)) ↔
      ∀ m ∈ ms, ∀ t ∈ m.type,
        ¬(m.optional = true ∧ Value.read fields m.name = .undefined) →
          Belongs p known (t.instantiate env.close) (Value.read fields m.name) := by
  have hallows (m : Member TypeExpr) (hm : m ∈ ms) (v : Value) :
      (p.memberContext none m).Allows v ↔ m.optional = true ∧ v = .undefined := by
    simp [member_context_eq (htags m hm), Context.Allows]
  constructor
  · intro h m hm t ht hpresent
    have he := h (m.name, ⟨t, env, p.memberContext none m⟩)
      (mem_filterMap.2 ⟨m, hm, by rw [Option.mem_def.1 ht]; rfl⟩)
    rw [hallows m hm] at he
    exact he.resolve_left hpresent
  · intro h e he
    obtain ⟨m, hm, he⟩ := mem_filterMap.1 he
    obtain ⟨t, ht, rfl⟩ := Option.map_eq_some_iff.1 he
    rw [hallows m hm]
    exact or_iff_not_imp_left.2 (h m hm t ht)

/-- The jobs of the members of an object type of the core are of the core. -/
theorem member_jobs_core (henv : env.InCore p false) (htags : ∀ m ∈ ms, m.tags = [])
    (hms : ∀ m ∈ ms, ∀ t ∈ m.type, Core p false env.scope t) :
    ∀ e ∈ p.memberJobs none env ms, CoreJob p e.2 := by
  intro e he
  obtain ⟨m, hm, he⟩ := mem_filterMap.1 he
  obtain ⟨t, ht, rfl⟩ := Option.map_eq_some_iff.1 he
  refine ⟨?_, henv, hms m hm t ht⟩
  rw [member_context_eq (htags m hm)]
  exact ⟨rfl, rfl, rfl⟩

/-- The type of the values of an index signature of the core is of the core. -/
theorem index_type_core {sig : IndexSignature TypeExpr} {scope : Scope}
    (h : ∀ t ∈ sig.type, Core p false scope t) :
    Core p false scope (sig.type.getD (.keyword .any)) := by
  cases ht : sig.type with
  | none => exact .keyword (by decide)
  | some t => exact h t ht

include henvironment in
/-- The schema of an index signature accepts what its type allows. -/
theorem accepts_index (hdone : Forall₂ (Done p accepted known) (index.map (indexJob env)).toList ss)
    (hidx : ∀ sig ∈ index, ∀ t ∈ sig.type, Core p false env.scope t) :
    (∀ s ∈ ss[0]?, ∀ field ∈ fields, s.Accepts accepted field.2) ↔
      ∀ sig ∈ index, ∀ field ∈ fields, Belongs p known
        ((sig.type.getD (.keyword .any)).instantiate env.close) field.2 := by
  cases index with
  | none =>
    cases hdone
    simp
  | some sig =>
    cases hdone with
    | cons ha =>
      have haccepts := ha.accepts_iff henvironment (index_type_core (hidx sig rfl))
      simp [haccepts]

/-- The values of an object type with all parameters replaced. -/
theorem belongs_object_iff :
    Belongs p known ((TypeExpr.object ms index).instantiate sub) v ↔
      ∃ fields, v = .object fields ∧
        (∀ m ∈ ms, ∀ t ∈ m.type,
          ¬(m.optional = true ∧ Value.read fields m.name = .undefined) →
            Belongs p known (t.instantiate sub) (Value.read fields m.name)) ∧
        ∀ sig ∈ index, ∀ field ∈ fields, Belongs p known
          ((sig.type.getD (.keyword .any)).instantiate sub) field.2 := by
  have hany (t : Option TypeExpr) : (t.map (TypeExpr.instantiate sub)).getD
      (.keyword .any) = (t.getD (.keyword .any)).instantiate sub := by
    cases t <;> rfl
  rw [TypeExpr.instantiate, belongs_object, TypeExpr.instantiate_members_eq,
    TypeExpr.instantiate_index_eq]
  simp [hany]

include hcontext henvironment in
/-- The plan of an object type or of the body of an interface. -/
theorem object_plan_agrees (hcore : Core p false env.scope (.object ms index)) :
    PlanAgrees p accepted known ⟨.object ms index, env, ctx⟩
      (pure (p.objectPlan none env ms index (p.finish ctx))) := by
  cases hcore with
  | object hnames htyped htags hms hkeys hidx =>
    refine plan_agrees_pure fun ss s hdone hassemble => ?_
    -- The schemas of the members come first, and then that of the index signature, if any.
    obtain ⟨front, back, rfl, hfront, hback⟩ := forall₂_split hdone
    have hfront := forall₂_map_left_iff.1 hfront
    have hget : (front ++ back)[(p.memberJobs none env ms).length]? = back[0]? := by
      rw [hfront.length_eq, getElem?_append_right (Nat.le_refl _), Nat.sub_self]
    refine agrees_of_finish hcontext (fun v => ?_) hassemble
    rw [Job.closed, belongs_object_iff, hget, Schema.accepts_object_schema]
    simp only [accepts_entries hfront (member_jobs_core henvironment htags hms),
      member_jobs_iff htags, accepts_index henvironment hback hidx]

end Objects

end Types

end Program

end Schemata
