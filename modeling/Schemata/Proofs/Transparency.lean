import Schemata.Proofs.BarePlans
import Schemata.Proofs.Everywhere

/-!
# Transparency of parentheses

Two jobs whose types are the same but for parentheses are done side by side: `ReachTogether` names
the pairs of jobs that come up on the way, where parentheses around a type are passed over. As long
as the same types are concealed on both sides, the jobs give the same schema or fail in the same
way, `compile_accords`. That is so where no plain name stands in parentheses,
`conceal_alike_of_seen`.
-/

namespace Schemata

open List

variable {next job : Job} {plan : Plan}

/-- The type is not a plain name in parentheses. -/
def TypeExpr.NameSeen : TypeExpr → Prop
  | .paren inner => ∀ name, inner.unwrap ≠ .reference name []
  | _ => True

/-- The types in the declarations of a source unit have a property everywhere. -/
def SourceUnit.Everywhere (holds : TypeExpr → Prop) (unit : SourceUnit) : Prop :=
  ∀ declaration ∈ unit.declarations, ∀ type ∈ declaration.types, type.Everywhere holds

namespace Program

variable {excused : Prop} {p program : Program} {unit : SourceUnit} {first second : Environment}

section Unwrapping

variable {t : TypeExpr} {env : Environment} {ctx : Context}

/-- A type in parentheses is compiled as the type inside. -/
theorem compile_unwrap (job : Job) : p.compile job.unwrap = p.compile job := by
  obtain ⟨t, env, ctx⟩ := job
  unfold Job.unwrap
  dsimp only
  fun_induction TypeExpr.unwrap t with
  | case1 t ih =>
    have hparen : typeSchema p (p.bodyFrom env) (.paren t) env
        (p.meaningsOf env) =
          inContext (typeSchema p (p.bodyFrom env) t env (p.meaningsOf env)) := by
      funext ctx
      rw [typeSchema]
    rw [ih, compile, compile, hparen, in_context_twice]
  | case2 => rfl

/-- With text to be added, no other jobs are done than without it. -/
theorem calls_without_text {text : String} {added : List Char}
    (hoverride : ctx.tags.override? = some text) (htext : text.toList = '.' :: added)
    (h : p.Calls next ⟨t, env, ctx⟩) : p.Calls next ⟨t, env, ctx.withoutText⟩ := by
  obtain ⟨plan, hplan, hnext⟩ := h
  simp only [Program.plan, hoverride, htext] at hplan
  obtain ⟨inner, hi, heq⟩ := Traced.bind_ok_iff.1 hplan
  cases heq
  refine ⟨inner, ?_, hnext⟩
  rw [Program.plan, override_without_text]
  exact hi

/-- The jobs of the type inside of parentheses come up for the type in them. -/
theorem calls_of_unwrapped (h : p.Calls next ⟨t.unwrap, env, ctx⟩) :
    Relation.TransGen p.Calls next ⟨t, env, ctx⟩ := by
  have hinside {t : TypeExpr} {ctx : Context} (hoverride : ctx.tags.override? = none) :
      p.Calls ⟨t, env, ctx⟩ ⟨.paren t, env, ctx⟩ := by
    refine ⟨.through ⟨t, env, ctx⟩, ?_, mem_singleton.2 rfl⟩
    rw [plan, hoverride]
    rfl
  fun_induction TypeExpr.unwrap t generalizing ctx with
  | case2 => exact .single h
  | case1 t ih =>
    rcases override_cases ctx.tags with hnone | ⟨text, hoverride, ⟨added, htext⟩ | htext⟩
    · exact (ih h).tail (hinside hnone)
    · -- Text to be added is left for later, so the type inside is compiled without it.
      have hparen := @hinside t ctx.withoutText (override_without_text ctx)
      exact (ih (calls_without_text hoverride htext h)).tail
        (calls_of_added hoverride htext hparen)
    · obtain ⟨plan, hplan, hnext⟩ := h
      rw [plan_replaced p hoverride htext] at hplan
      cases hplan
      cases hnext

/-- What holds of a job when it holds of all jobs of the type inside of parentheses, holds of all
jobs. -/
theorem unwrapped_induction {motive : Job → Prop}
    (h : ∀ job, (∀ next, p.Calls next job.unwrap → motive next) → motive job) (job : Job) :
    motive job :=
  p.calls_well_founded.transGen.induction job fun job ih =>
    h job fun next hnext => ih next (calls_of_unwrapped hnext)

end Unwrapping

/-- Jobs that the plans of two jobs name in the same place; parentheses are passed over. -/
def CallTogether (first second : Program) (next jobs : Job × Job) : Prop :=
  ∃ plan other, (first.plan jobs.1.unwrap).result = .ok plan ∧
    (second.plan jobs.2.unwrap).result = .ok other ∧ next ∈ plan.jobs.zip other.jobs

/-- Jobs that come up together when two jobs are done side by side. -/
def ReachTogether (first second : Program) (met jobs : Job × Job) : Prop :=
  Relation.ReflTransGen (CallTogether first second) met jobs

/-- The same types are concealed when two jobs are done side by side. -/
def ConcealAlike (first second : Program) (job other : Job) : Prop :=
  ∀ met, ReachTogether first second met (job, other) →
    second.concealed met.2 = first.concealed met.1

section Seen

variable {t : TypeExpr} {other : Job}

/-- A name outside of parentheses is not concealed. -/
theorem conceals_of_seen (env : Environment) (h : t.NameSeen) : env.conceals t = false := by
  cases t with
  | paren inner =>
    rw [Environment.conceals, TypeExpr.unwrap]
    cases hi : inner.unwrap with
    | reference name args =>
      cases args with
      | nil => exact absurd hi (h name)
      | cons => exact Bool.and_false _
    | _ => exact Bool.and_false _
  | _ => rfl

theorem map_conceals_of_seen {types others : List TypeExpr} (hlen : others.length = types.length)
    (h : ∀ t ∈ types, t.Everywhere TypeExpr.NameSeen)
    (hothers : ∀ other ∈ others, other.Everywhere TypeExpr.NameSeen) :
    others.map second.conceals = types.map first.conceals := by
  have hnone (env : Environment) {types : List TypeExpr}
      (h : ∀ t ∈ types, t.Everywhere TypeExpr.NameSeen) :
      types.map env.conceals = List.replicate types.length false := by
    refine eq_replicate_iff.2 ⟨length_map _, fun concealed hcon => ?_⟩
    obtain ⟨t, ht, rfl⟩ := mem_map.1 hcon
    exact conceals_of_seen env (h t ht).here
  rw [hnone second hothers, hnone first h, hlen]

/-- The same types are concealed in spans: none. -/
theorem span_concealed_of_seen {other : TypeExpr} (h : Coincide (t, first) (other, second))
    (htyped : t.WellTyped ∧ first.WellTyped) (ht : t.Everywhere TypeExpr.NameSeen)
    (ha : first.Everywhere TypeExpr.NameSeen) (hother : other.Everywhere TypeExpr.NameSeen)
    (hsecond : second.Everywhere TypeExpr.NameSeen) :
    spanConcealed second other = spanConcealed first t := by
  have hcon : second.conceals other = first.conceals t := by
    rw [conceals_of_seen second hother.here, conceals_of_seen first ht.here]
  have hresults := (Environment.resolve_conforms h hcon fun _ => htyped).concurs
  unfold spanConcealed
  rw [hcon]
  generalize hf : first.resolve t = result at hresults
  generalize hreached : second.resolve other = otherResult at hresults
  cases hresults with
  | error => rfl
  | @ok found reached hcoincide =>
    have hfoundSeen := (ha.resolve ht hf).1.unwrap
    have hreachedSeen := (hsecond.resolve hother hreached).1.unwrap
    have hform := hcoincide.form
    dsimp only
    generalize found.1.unwrap = kind at hform hfoundSeen
    generalize reached.1.unwrap = otherKind at hform hreachedSeen
    cases hform with
    | union harms =>
      exact congrArg (_ :: ·) (map_conceals_of_seen (length_of_map_eq harms)
        (fun _ => hfoundSeen.part) fun _ => hreachedSeen.part)
    | _ => rfl

/-- Where no plain name stands in parentheses, the same types are concealed: none. -/
theorem concealed_of_seen (h : unit.bare = p.unit.bare) (hjobs : JobsCoincide job other)
    (htyped : job.WellTyped) (hjob : job.Everywhere TypeExpr.NameSeen)
    (hother : other.Everywhere TypeExpr.NameSeen) :
    (p.withUnit unit).concealed other = p.concealed job := by
  obtain ⟨t, first, ctx⟩ := job
  obtain ⟨otherType, second, otherContext⟩ := other
  obtain ⟨hts, hctx⟩ := hjobs
  obtain ⟨htyped, henv⟩ := htyped
  obtain ⟨hjob, ha⟩ := hjob
  obtain ⟨hother, hsecond⟩ := hother
  dsimp only at hts hctx htyped henv hjob ha hother hsecond
  subst hctx
  have hform := hts.form
  have htyped := htyped.unwrap
  have hjob := hjob.unwrap
  have hother := hother.unwrap
  unfold concealed
  dsimp only
  generalize t.unwrap = t at hform htyped hjob
  generalize otherType.unwrap = otherType at hform hother
  cases hform with
  | @template head spans others hspans =>
    rw [← forall₂_eq_eq_eq, forall₂_map_left_iff, forall₂_map_right_iff]
    have hpairs := forall₂_of_map_eq hspans
    refine .flip (forall₂_iff_zip.2 ⟨hpairs.length_eq, fun {span other} hpair => ?_⟩)
    have hspan := (of_mem_zip hpair).1
    have hotherSpan := (of_mem_zip hpair).2
    have ht : other.type.bare = span.type.bare :=
      (congrArg TemplateSpan.type (forall₂_zip hpairs hpair) :)
    exact span_concealed_of_seen ⟨ht, hts.environment⟩ ⟨htyped.part (mem_map_of_mem hspan), henv⟩
      (hjob.part (mem_map_of_mem hspan)) ha
      (hother.part (mem_map_of_mem hotherSpan)) hsecond
  | union harms =>
    have hpairs : Forall₂ ((coinciding True p unit).At first second) _ _ :=
      (forall₂_of_map_eq harms).imp fun _ _ harm =>
        ⟨⟨harm, hts.environment⟩, fun h => (h trivial).elim⟩
    have hlen := (Likeness.kept_arms (coinciding True p unit).null hpairs).length_eq
    dsimp only
    split
    · rfl
    · exact congrArg (· :: []) (map_conceals_of_seen hlen.symm
        (fun _ harm => hjob.part (mem_filter.1 harm).1)
        fun _ harm => hother.part (mem_filter.1 harm).1)
  | @tuple elements others helts =>
    have hrel := last_related (forall₂_of_map_eq helts)
    dsimp only
    generalize hlast : elements.getLast? = last at hrel
    generalize hotherLast : others.getLast? = otherLast at hrel
    cases hrel with
    | none => rfl
    | @some elt otherElement helt =>
      have helementSeen := hjob.part (mem_of_getLast? hlast)
      have hotherSeen := hother.part (mem_of_getLast? hotherLast)
      cases TypeExpr.same_element helt with
      | spread =>
        dsimp only
        rw [conceals_of_seen first (helementSeen.part (mem_singleton.2 rfl)).here,
          conceals_of_seen second (hotherSeen.part (mem_singleton.2 rfl)).here]
      | named => rfl
      | plain hbare ht hotherType =>
        cases elt with
        | spread => cases ht
        | _ =>
          cases otherElement with
          | spread => cases hotherType
          | _ => rfl
  | reference name hargs =>
    cases forall₂_of_map_eq hargs with
    | nil => rfl
    | cons =>
      dsimp only
      rw [is_reserved_eq h, conceals_of_seen first (hjob.part mem_cons_self).here,
        conceals_of_seen second (hother.part mem_cons_self).here]
  | _ => rfl

/-- Well-typed jobs that coincide, in neither of which a plain name stands in parentheses. -/
structure SeenTogether (jobs : Job × Job) : Prop where
  coincide : JobsCoincide jobs.1 jobs.2
  typed : jobs.1.WellTyped
  first : jobs.1.Everywhere TypeExpr.NameSeen
  second : jobs.2.Everywhere TypeExpr.NameSeen

/-- What is asked for has no plain name in parentheses either. -/
theorem seen_of_plan (hunit : p.unit.Everywhere TypeExpr.NameSeen)
    (hjob : job.Everywhere TypeExpr.NameSeen) (hplan : (p.plan job.unwrap).result = .ok plan)
    (hnext : next ∈ plan.jobs) : next.Everywhere TypeExpr.NameSeen :=
  asked_everywhere trivial hjob.environment hjob.type.unwrap
    (fun _ _ decl _ hfind => hunit decl (mem_of_find hfind))
    (asked_of_plan hplan hnext)

/-- Jobs without plain names in parentheses call such jobs together. -/
theorem SeenTogether.step (h : unit.bare = p.unit.bare) (htyped : p.unit.WellTyped)
    (hunit : p.unit.Everywhere TypeExpr.NameSeen) (hother : unit.Everywhere TypeExpr.NameSeen)
    {next jobs : Job × Job} (hjobs : SeenTogether jobs)
    (hcall : CallTogether p (p.withUnit unit) next jobs) : SeenTogether next := by
  obtain ⟨plan, otherPlan, hplan, hotherPlan, hpair⟩ := hcall
  have hmem := of_mem_zip hpair
  have hcon := concealed_of_seen h hjobs.coincide hjobs.typed hjobs.first hjobs.second
  have hplans : (coinciding False p unit).Plans plan otherPlan :=
    (plan_accords h (fun _ => htyped) ⟨⟨hjobs.coincide.types, fun _ =>
      ⟨hjobs.typed.type, hjobs.typed.environment⟩⟩, hjobs.coincide.context⟩
      hcon).values_related hplan hotherPlan
  have hnext := forall₂_zip hplans.jobs hpair
  exact {
    coincide := ⟨hnext.types.coincide, hnext.context⟩
    typed := asked_well_typed htyped hjobs.typed.environment hjobs.typed.type.unwrap
      (asked_of_plan hplan hmem.1)
    first := seen_of_plan hunit hjobs.first hplan hmem.1
    second := @seen_of_plan _ _ _ (p.withUnit unit) hother hjobs.second hotherPlan hmem.2 }

/-- Where no plain name stands in parentheses, the same types are concealed all the way. -/
theorem conceal_alike_of_seen (h : unit.bare = p.unit.bare) (htyped : p.unit.WellTyped)
    (hunit : p.unit.Everywhere TypeExpr.NameSeen) (hother : unit.Everywhere TypeExpr.NameSeen)
    (hjobs : SeenTogether (job, other)) : ConcealAlike p (p.withUnit unit) job other := by
  intro met hmet
  have hseen : SeenTogether met := by
    induction hmet using Relation.ReflTransGen.head_induction_on with
    | refl => exact hjobs
    | head hcall _ ih => exact ih.step h htyped hunit hother hcall
  exact concealed_of_seen h hseen.coincide hseen.typed hseen.first hseen.second

end Seen

section Compile

variable {declaration other : Declaration}

/-- Declarations of the same bare form are compiled in the same way. -/
theorem declares_of_form (h : Declaration.SameForm declaration other)
    (htyped : ¬excused → declaration.WellTyped) :
    (coinciding excused p unit).Declares declaration other := by
  have hempty := is_empty_of_map_eq h.parameters_eq
  cases h with
  | enumeration => exact .enumeration rfl
  | typeAlias hbare =>
    refine .typeAlias hempty (congrArg Alias.tags hbare.symm :) fun _ => ?_
    exact ⟨⟨(congrArg Alias.type hbare :), rfl⟩, fun hexc =>
      ⟨(htyped hexc).body _ (mem_singleton.2 rfl), Environment.no_bindings_well_typed 0⟩⟩
  | interface hbare =>
    have hboth (hexc : ¬excused) := And.intro (htyped hexc) (Environment.no_bindings_well_typed 0)
    refine .interface (congrArg Interface.name hbare :) hempty
      (fun _ => interfaces_coincide rfl hbare hboth) fun _ => ?_
    refine reserved_coincide rfl hbare (fun param otherParameter _ _ => ?_) hboth
    rw [switch_concealed_of_unbound rfl, switch_concealed_of_unbound rfl]

/-- The same types are concealed when two declarations are compiled side by side. -/
def DeclarationsConcealAlike (first second : Program) (declaration other : Declaration) : Prop :=
  ∀ plan otherPlan, (first.declarationPlan declaration).result = .ok plan →
    (second.declarationPlan other).result = .ok otherPlan →
      ∀ jobs ∈ plan.jobs.zip otherPlan.jobs, ConcealAlike first second jobs.1 jobs.2

/-- The jobs of a well-typed declaration are well-typed. -/
theorem declaration_job_typed (h : declaration.WellTyped)
    (hplan : (p.declarationPlan declaration).result = .ok plan) (hjob : job ∈ plan.jobs) :
    job.WellTyped := by
  obtain ⟨henv, ht⟩ := job_of_declaration hplan hjob
  refine ⟨?_, henv ▸ Environment.no_bindings_well_typed 0⟩
  rcases ht with ht | ht
  · exact h.body _ ht
  · exact ht ▸ TypeExpr.any_well_typed

theorem declaration_job_seen (h : ∀ t ∈ declaration.types, t.Everywhere TypeExpr.NameSeen)
    (hplan : (p.declarationPlan declaration).result = .ok plan) (hjob : job ∈ plan.jobs) :
    job.Everywhere TypeExpr.NameSeen := by
  obtain ⟨henv, ht⟩ := job_of_declaration hplan hjob
  refine ⟨?_, henv ▸ Environment.no_bindings_everywhere 0⟩
  rcases ht with ht | ht
  · exact h _ (mem_append_left _ ht)
  · exact ht ▸ TypeExpr.everywhere_of_leaf rfl trivial

/-- Declarations in which no plain name stands in parentheses conceal the same types: none. -/
theorem declarations_conceal_alike_of_seen (h : unit.bare = p.unit.bare)
    (htyped : p.unit.WellTyped) (hunit : p.unit.Everywhere TypeExpr.NameSeen)
    (hother : unit.Everywhere TypeExpr.NameSeen) (hdecl : declaration ∈ p.unit.declarations)
    (hotherDeclaration : other ∈ unit.declarations)
    (hform : Declaration.SameForm declaration other) :
    DeclarationsConcealAlike p (p.withUnit unit) declaration other := by
  intro plan otherPlan hplan hotherPlan jobs hjobs
  have hmem := of_mem_zip hjobs
  have hplans : (coinciding False p unit).Plans plan otherPlan :=
    Accords.values_related ((coinciding False p unit).declaration_plan
      (declares_of_form hform fun _ => htyped _ hdecl)) hplan hotherPlan
  have hnext := forall₂_zip hplans.jobs hjobs
  refine conceal_alike_of_seen h htyped hunit hother
    ⟨⟨hnext.types.coincide, hnext.context⟩, ?_, ?_, ?_⟩
  · exact declaration_job_typed (htyped _ hdecl) hplan hmem.1
  · exact declaration_job_seen (hunit _ hdecl) hplan hmem.1
  · exact declaration_job_seen (hother _ hotherDeclaration) hotherPlan hmem.2

/-- The same types are concealed when that holds of two jobs and of all that their plans name. -/
theorem conceal_alike_of_plans {b : Program} {other : Job} {otherPlan : Plan}
    (hplan : (p.plan job.unwrap).result = .ok plan)
    (hotherPlan : (b.plan other.unwrap).result = .ok otherPlan)
    (hcon : b.concealed other = p.concealed job)
    (hnext : ∀ jobs ∈ plan.jobs.zip otherPlan.jobs, ConcealAlike p b jobs.1 jobs.2) :
    ConcealAlike p b job other := by
  intro met hmet
  rcases hmet.cases_tail with heq | ⟨jobs, hmet, found, otherFound, hf, hotherFound, hjobs⟩
  · cases heq
    exact hcon
  · cases hf.symm.trans hplan
    cases hotherFound.symm.trans hotherPlan
    exact hnext jobs hjobs met hmet

variable (h : unit.bare = p.unit.bare) (hunit : ¬excused → p.unit.WellTyped)

include h hunit

/-- Jobs that coincide give the same schema or fail in the same way, where the same types are
concealed. -/
theorem compile_accords {other : Job}
    (hjobs : (coinciding excused p unit).Jobs job other)
    (hcon : ConcealAlike p (p.withUnit unit) job other) :
    Accords excused Eq (p.compile job) ((p.withUnit unit).compile other) := by
  induction job using p.unwrapped_induction generalizing other with
  | h job ih =>
    rw [← compile_unwrap job, ← compile_unwrap other, compile_eq_run, compile_eq_run]
    refine accords_bind (plan_accords h hunit hjobs (hcon (job, other) .refl))
      fun plan otherPlan hplan hotherPlan hplans => ?_
    -- Only the jobs of the first program are known to get smaller, so the induction is on them.
    refine (coinciding excused p unit).run_of_plans
      (forall₂_iff_zip.2 ⟨hplans.jobs.length_eq, fun hpair => ?_⟩) hplans.assemble
    refine ih _ ⟨plan, hplan, (of_mem_zip hpair).1⟩ (forall₂_zip hplans.jobs hpair) ?_
    exact fun met hmet => hcon met (hmet.tail ⟨plan, otherPlan, hplan, hotherPlan, hpair⟩)

variable (hform : Declaration.SameForm declaration other)
  (hcon : DeclarationsConcealAlike p (p.withUnit unit) declaration other)
  (htyped : ¬excused → declaration.WellTyped)

include hform hcon htyped

/-- Declarations of the same bare form have the same schema or fail in the same way, where the same
types are concealed. -/
theorem declaration_accords :
    Accords excused Eq (p.declarationSchema declaration)
      ((p.withUnit unit).declarationSchema other) := by
  rw [declaration_schema_eq, declaration_schema_eq]
  refine accords_bind ((coinciding excused p unit).declaration_plan
    (declares_of_form hform htyped)) fun plan otherPlan hplan hotherPlan hplans => ?_
  refine (coinciding excused p unit).run_of_plans
    (forall₂_iff_zip.2 ⟨hplans.jobs.length_eq, fun hpair => ?_⟩) hplans.assemble
  exact compile_accords h hunit (forall₂_zip hplans.jobs hpair)
    (hcon plan otherPlan hplan hotherPlan _ hpair)

/-- Declarations of the same bare form have the same schema and dependencies or fail in the same
way, where the same types are concealed. -/
theorem compile_declaration_accords :
    Concurs Failure.SameClass (fun compiled otherCompiled : Compiled =>
        otherCompiled.schema = compiled.schema ∧ otherCompiled.dependencies = compiled.dependencies)
        (p.compileDeclaration declaration).result
        ((p.withUnit unit).compileDeclaration other).result ∨
      excused ∧ (Faulty (p.compileDeclaration declaration) ∨
        Faulty ((p.withUnit unit).compileDeclaration other)) := by
  have hfaulty {p : Program} {declaration : Declaration}
      (hs : Faulty (p.declarationSchema declaration)) :
      Faulty (p.compileDeclaration declaration) := by
    have hres : (p.declarationSchema declaration).result = .error (.fault .wrongKind) := hs
    unfold Faulty compileDeclaration
    dsimp only
    rw [hres]
    rfl
  rcases declaration_accords h hunit hform hcon htyped with
    hschemas | ⟨hexc, hs | hs⟩
  · exact .inl (compiled_concurs hform.name_eq hschemas)
  · exact .inr ⟨hexc, .inl (hfaulty hs)⟩
  · exact .inr ⟨hexc, .inr (hfaulty hs)⟩

end Compile

/-- Parentheses are transparent. Types, environments and source units that are the same but for
parentheses, other than those around a spread or labelled element of a tuple and around the keys of
a record, give the same schema and dependencies or fail in the same way, as long as the same
parameters are concealed from the rules that follow parameters before they take parentheses off.
Only where a name is no text may one of them fail alone, since a type cannot be shown. No parameter
is concealed where plain names stand outside of parentheses. -/
theorem parentheses_transparent (h : unit.bare = program.unit.bare) :
    (∀ (type other : TypeExpr) (first second : Environment) (tags : Tags),
      other.bare = type.bare → second.bare = first.bare →
      ConcealAlike program (program.withUnit unit)
        ⟨type, first, { tags := program.tags tags }⟩
        ⟨other, second, { tags := program.tags tags }⟩ →
        (Concurs Failure.SameClass Eq (program.schemaOf (some type) first tags).result
            ((program.withUnit unit).schemaOf (some other) second tags).result ∧
          usedNames ((program.withUnit unit).schemaOf (some other) second tags).trace =
            usedNames (program.schemaOf (some type) first tags).trace) ∨
        ¬(program.unit.WellTyped ∧ type.WellTyped ∧ first.WellTyped) ∧
          (Faulty (program.schemaOf (some type) first tags) ∨
            Faulty ((program.withUnit unit).schemaOf (some other) second tags))) ∧
      List.Forall₂ (fun declaration other =>
        DeclarationsConcealAlike program (program.withUnit unit) declaration other →
          Concurs Failure.SameClass (fun compiled otherCompiled : Compiled =>
              otherCompiled.schema = compiled.schema ∧
                otherCompiled.dependencies = compiled.dependencies)
            (program.compileDeclaration declaration).result
            ((program.withUnit unit).compileDeclaration other).result ∨
          ¬program.unit.WellTyped ∧ (Faulty (program.compileDeclaration declaration) ∨
            Faulty ((program.withUnit unit).compileDeclaration other)))
        program.unit.declarations unit.declarations ∧
      (program.unit.WellTyped → program.unit.Everywhere TypeExpr.NameSeen →
        unit.Everywhere TypeExpr.NameSeen →
          (∀ jobs, SeenTogether jobs →
            ConcealAlike program (program.withUnit unit) jobs.1 jobs.2) ∧
          List.Forall₂ (DeclarationsConcealAlike program (program.withUnit unit))
            program.unit.declarations unit.declarations) := by
  have hdeclarations : unit.declarations.map Declaration.bare =
      program.unit.declarations.map Declaration.bare :=
    (congrArg SourceUnit.declarations h :)
  have hpairs := forall₂_of_map_eq hdeclarations
  refine ⟨fun type other first second tags htype henvironment hconcealed => ?_, ?_,
    fun htyped hunit hother => ⟨fun jobs => conceal_alike_of_seen h htyped hunit hother, ?_⟩⟩
  · rw [schema_of_some, schema_of_some]
    have htyped (hexcused : ¬¬(program.unit.WellTyped ∧ type.WellTyped ∧ first.WellTyped)) :=
      not_not.1 hexcused
    have hjobs : (coinciding (¬(program.unit.WellTyped ∧ type.WellTyped ∧ first.WellTyped)) program
        unit).Jobs ⟨type, first, { tags := program.tags tags }⟩
          ⟨other, second, { tags := program.tags tags }⟩ :=
      ⟨⟨⟨htype, henvironment⟩, fun hexcused => (htyped hexcused).2⟩, rfl⟩
    rcases compile_accords h (fun hexcused => (htyped hexcused).1) hjobs hconcealed with
      hschemas | hfaulty
    · exact .inl ⟨hschemas.results, used_names_of_marks hschemas.marks⟩
    · exact .inr hfaulty
  · refine List.forall₂_iff_zip.2 ⟨hpairs.length_eq, fun hpair hconcealed => ?_⟩
    have hform := Declaration.same_form (List.forall₂_zip hpairs hpair)
    exact compile_declaration_accords h not_not.1 hform hconcealed fun hexcused =>
      not_not.1 hexcused _ (List.of_mem_zip hpair).1
  · refine List.forall₂_iff_zip.2 ⟨hpairs.length_eq, fun hpair => ?_⟩
    have hform := Declaration.same_form (List.forall₂_zip hpairs hpair)
    have hmem := List.of_mem_zip hpair
    exact declarations_conceal_alike_of_seen h htyped hunit hother hmem.1 hmem.2 hform

section Concealment

/-- The interface `interface Flag<B> { on: string }` and the alias `type Carton<T> = body`. -/
def cartonUnit (body : TypeExpr) : SourceUnit where
  path := .null
  declarations :=
    [.interface ⟨.str "Flag", [], true, [⟨.str "B", none, none⟩], [],
      [⟨"on", some (.keyword .string), false, false, []⟩], none⟩,
     .typeAlias ⟨.str "Carton", [], true, [⟨.str "T", none, none⟩], body⟩]
  imports := []

/-- The program of cartons, where the interface is reserved, with the names of types for schemas. -/
def cartons (body : TypeExpr) : Program where
  unit := cartonUnit body
  settings := { Settings.default with
    schemaName := some id
    maybe := some ⟨[.str "Flag"], .bool true, .bool true⟩ }

/-- With `type Carton<T> = ([(`x-${T}`), ((Dog))])`, a carton of `("a")` has the schema that a
carton of `"a"` has without these parentheses. -/
theorem wrapped_carton_transparent :
    let span : TypeExpr := .template (.str "x-") [⟨.reference (.str "T") [], .str ""⟩]
    let dog : TypeExpr := .reference (.str "Dog") []
    let program := cartons (.tuple [span, dog])
    let unit := cartonUnit (.paren (.tuple [.paren span, .paren (.paren dog)]))
    let type : TypeExpr := .reference (.str "Carton") [.literal (.str "a")]
    let other : TypeExpr := .reference (.str "Carton") [.paren (.literal (.str "a"))]
    unit.bare = program.unit.bare ∧ other.bare = type.bare ∧
      ConcealAlike program (program.withUnit unit) ⟨type, .empty, {}⟩ ⟨other, .empty, {}⟩ ∧
      ∃ schema, (program.schemaOf (some type) .empty []).result = .ok schema ∧
        ((program.withUnit unit).schemaOf (some other) .empty []).result = .ok schema ∧
        usedNames ((program.withUnit unit).schemaOf (some other) .empty []).trace =
          [.str "Dog"] := by
  intro span dog program unit type other
  have hconcealed : ConcealAlike program (program.withUnit unit) ⟨type, .empty, {}⟩
      ⟨other, .empty, {}⟩ := by
    refine conceal_alike_of_plans rfl rfl rfl (List.forall_mem_singleton.2 ?_)
    refine conceal_alike_of_plans rfl rfl rfl (List.forall_mem_cons.2 ⟨?_,
      List.forall_mem_singleton.2 ?_⟩)
    · exact conceal_alike_of_plans rfl rfl rfl (List.forall_mem_nil _)
    · exact conceal_alike_of_plans rfl rfl rfl (List.forall_mem_nil _)
  obtain ⟨schema, hschema⟩ : ∃ schema,
      (program.schemaOf (some type) .empty []).result = .ok schema := ⟨_, rfl⟩
  refine ⟨rfl, rfl, hconcealed, schema, hschema, ?_⟩
  rcases (@parentheses_transparent program unit rfl).1 type other .empty .empty [] rfl rfl
    hconcealed with ⟨hresults, hnames⟩ | ⟨-, hfaulty | hfaulty⟩
  · rw [hschema] at hresults
    generalize ((program.withUnit unit).schemaOf (some other) .empty []).result = found
      at hresults ⊢
    cases hresults with
    | ok heq => exact ⟨heq ▸ rfl, hnames.trans rfl⟩
  · cases hschema.symm.trans hfaulty
  · cases hfaulty

/-- Parentheses around the parameter of cartons change the schema of a carton of an argument. -/
structure ParenthesesMatter (body : TypeExpr → TypeExpr) (argument : TypeExpr)
    (schema other : Schema) : Prop where
  bare : (cartonUnit (body (.paren (.reference (.str "T") [])))).bare =
    (cartonUnit (body (.reference (.str "T") []))).bare
  without : ((cartons (body (.reference (.str "T") []))).schemaOf
    (some (.reference (.str "Carton") [argument])) .empty []).result = .ok schema
  within : ((cartons (body (.paren (.reference (.str "T") [])))).schemaOf
    (some (.reference (.str "Carton") [argument])) .empty []).result = .ok other
  differ : schema ≠ other

/-- Parentheses around a parameter matter in the span of a template, in a union there, in a union
that a field tells apart, after the dots of a tuple and as the argument of a reserved interface.
Around a name that is no text they matter as well: only in them can the name be shown. -/
theorem parentheses_matter :
    let text : Schema := .call "string" []
    let literal (value : String) : Schema := .call "literal" [.value (.str value)]
    let empty : Schema := .call "object" [.object []]
    ParenthesesMatter (fun type => .template (.str "x-") [⟨type, .str ""⟩]) (.literal (.str "a"))
      (literal "x-a") (.call "any" []) ∧
    ParenthesesMatter (fun type => .template (.str "x-")
        [⟨.union [type, .literal (.str "b")], .str ""⟩]) (.literal (.str "a"))
      (.call "union" [.array [literal "x-a", literal "x-b"]]) (literal "x-b") ∧
    ParenthesesMatter (fun type => .object
        [⟨"pet", some (.union [type, .reference (.str "Dog") []]), false, false,
          [("discriminator", "kind")]⟩] none) (.object [] none)
      (.call "object" [.object [("pet",
        .call "union" [.array [empty, .reference (.str "Dog")]])]])
      (.call "object" [.object [("pet", .call "discriminatedUnion"
        [.value (.str "kind"), .array [empty, .reference (.str "Dog")]])]]) ∧
    ParenthesesMatter (fun type => .tuple [.spread type]) (.array (.keyword .string))
      ((Schema.call "tuple" [.array []]).modify ⟨"rest", [text], false⟩)
      (.call "tuple" [.array [.call "any" []]]) ∧
    ParenthesesMatter (fun type => .reference (.str "Flag") [type]) (.literal (.bool true))
      (.call "object" [.object [("on", text)]])
      (.call "object" [.object [("on", text.withModifiers
        [⟨"optional", [], false⟩, ⟨"nullable", [], false⟩])]]) ∧
    Faulty ((cartons (.keyword .string)).schemaOf
      (some (.reference (.str "Dog") [.reference (.int 5) []])) .empty []) ∧
    ((cartons (.keyword .string)).schemaOf
      (some (.reference (.str "Dog") [.paren (.reference (.int 5) [])])) .empty []).result =
        .ok (.reference (.str "Dog")) := by
  intro text literal empty
  refine ⟨⟨rfl, rfl, rfl, ?_⟩, ⟨rfl, rfl, rfl, ?_⟩, ⟨rfl, rfl, rfl, ?_⟩, ⟨rfl, rfl, rfl, ?_⟩,
    ⟨rfl, rfl, rfl, ?_⟩, rfl, rfl⟩
  · simp [literal]
  · simp [literal]
  · simp
  · simp [Schema.modify]
  · simp [text, Schema.withModifiers, Schema.modify]

end Concealment

end Program

end Schemata
