import Schemata.Proofs.Calls
import Schemata.Proofs.Modifiers

/-!
# What a compilation does step by step

Finding what a type refers to takes a few kinds of steps: reading what is there, recording notices
and warnings, and failing on a broken document. A `Stepwise` property of computations is kept by
these steps, so that it holds of every lookup: the modifiers of a context, the arms of a union that
a field tells apart, the types of members and of chains of accesses, and the texts of templates. The
types of members are found without a warning, so that for them a `Searching` property is enough.
A plan is made and followed by lookups and by using the schemas of names: what is `Sequential` and
holds of these holds of it, `Stepwise.type_plan`.
-/

namespace Schemata

open List
open Traced (bind_ok_iff)

/-- A property of computations that is kept when one is done after another. -/
structure Sequential where
  holds : {α : Type} → Compilation α → Prop
  holds_pure : ∀ {α : Type} (value : α), holds (pure value)
  holds_bind : ∀ {α β : Type} {first : Compilation α} {next : α → Compilation β}, holds first →
    (∀ value, first.result = .ok value → holds (next value)) → holds (first >>= next)

/-- A property of computations that the steps of a search for a type keep. -/
structure Searching extends Sequential where
  holds_note : ∀ notice, holds (Compilation.note notice)
  holds_lift : ∀ {α : Type} (value : Except Fault α), holds (liftM value)
  holds_hides : ∀ clause key, holds (liftM (Program.hides clause key))
  holds_fault : ∀ {α : Type} fault, holds (Traced.fail (.fault fault) : Compilation α)

/-- A property of computations that the steps of a lookup keep. Only the limit on the depth of
instantiations may break it. -/
structure Stepwise extends Searching where
  holds_warn : ∀ warning, holds (Compilation.warn warning)
  holds_reject : ∀ {α : Type} {error : CompileError},
    (∀ name limit, error ≠ .genericDepth name limit) →
      holds (Compilation.reject error : Compilation α)
  holds_project : ∀ target projection keys environment,
    holds (liftM (Program.project target projection keys environment))

namespace Sequential

variable (step : Sequential) {p : Program} {env : Environment} {ctx : Context}

theorem mapM {α β : Type} {xs : List α} {compute : α → Compilation β}
    (h : ∀ x ∈ xs, step.holds (compute x)) : step.holds (xs.mapM compute) := by
  induction xs with
  | nil => exact step.holds_pure _
  | cons x rest ih =>
    rw [mapM_cons]
    refine step.holds_bind (h x mem_cons_self) fun _ _ => ?_
    refine step.holds_bind (ih (forall_mem_cons.1 h).2) fun _ _ => ?_
    exact step.holds_pure _

/-- The making of a plan has a property, and so has the assembling of its schemas. -/
structure Plans (planned : Compilation Plan) : Prop where
  made : step.holds planned
  assembled : ∀ plan, planned.result = .ok plan → ∀ schemas, step.holds (plan.assemble schemas)

theorem plan_pure {plan : Plan} (h : ∀ ss, step.holds (plan.assemble ss)) :
    step.Plans (pure plan) := ⟨step.holds_pure plan, fun _ hplan => Except.ok.inj hplan ▸ h⟩

theorem plan_through (job : Job) : step.Plans (pure (.through job)) :=
  step.plan_pure fun _ => step.holds_pure _

theorem plan_fail {failure : Failure} (h : step.holds (Traced.fail failure : Compilation Plan)) :
    step.Plans (Traced.fail failure) := ⟨h, fun _ hplan => by cases hplan⟩

theorem plan_bind {α : Type} {a : Compilation α} {next : α → Compilation Plan}
    (ha : step.holds a) (hnext : ∀ v, a.result = .ok v → step.Plans (next v)) :
    step.Plans (a >>= next) := by
  refine ⟨step.holds_bind ha fun v hv => (hnext v hv).made, fun plan hplan => ?_⟩
  obtain ⟨v, hv, hplan⟩ := bind_ok_iff.1 hplan
  exact (hnext v hv).assembled plan hplan

/-- The plan of a type that is no reference needs the modifiers of contexts, and lookups for some
kinds of types. -/
theorem written_plan {t : TypeExpr} (hmods : ∀ ctx, step.holds (p.modifiers ctx))
    (hunsupported : step.holds (p.unsupported (some t) ctx))
    (href : ∀ name args, t = .reference name args → step.Plans (p.typePlan env ctx t))
    (hunion : ∀ arms, t = .union arms →
      ∀ ss ctx, step.holds (p.unionSchema env (arms.filter (!·.isNull)) ss ctx))
    (hspread : ∀ elements, t = .tuple elements →
      step.holds (liftM (Program.spreadType env elements) : Compilation _))
    (haccess : ∀ base index, t = .indexed base index → step.holds (p.indexedAccess (some env) t))
    (hexpand : ∀ head spans, t = .template head spans → step.holds (p.expand env head spans)) :
    step.Plans (p.typePlan env ctx t) := by
  have hfinish (ctx : Context) (s : Schema) : step.holds (p.finish ctx s) :=
    step.holds_bind (hmods ctx) fun _ _ => step.holds_pure _
  cases t with
  | reference name args => exact href name args rfl
  | union arms =>
    have hunion := hunion arms rfl
    unfold Program.typePlan
    dsimp only
    generalize arms.filter (fun arm => !arm.isNull) = kept at hunion
    rcases kept with _ | ⟨a, _ | ⟨b, rest⟩⟩
    · exact step.plan_pure fun _ => hfinish _ _
    · exact step.plan_through _
    · exact step.plan_pure fun ss => hunion ss _
  | intersection arms =>
    cases arms with
    | nil => exact step.plan_pure fun _ => hunsupported
    | cons => exact step.plan_pure fun _ => hfinish _ _
  | tuple elements =>
    refine step.plan_bind (hmods ctx) fun mods _ => ?_
    refine step.plan_bind (hspread elements rfl) fun found _ => ?_
    cases found with
    | none | some => exact step.plan_pure fun _ => step.holds_pure _
  | literal v => cases v <;> exact step.plan_pure fun _ => hfinish _ _
  | indexed base index =>
    refine step.plan_pure fun _ => step.holds_bind (haccess base index rfl) fun found _ => ?_
    cases found <;> exact hfinish _ _
  | template head spans =>
    refine step.plan_pure fun _ => step.holds_bind (hexpand head spans rfl) fun found _ => ?_
    cases found with
    | none => exact hfinish _ _
    | some => exact step.holds_bind (hmods ctx) fun _ _ => step.holds_pure _
  | paren => exact step.plan_through _
  | spread | named | unsupported => exact step.plan_pure fun _ => hunsupported
  | _ => exact step.plan_pure fun _ => hfinish _ _

/-- The plan of a job is the one of its type, in its context or in one without source text. -/
theorem job_plan {job : Job}
    (h : ∀ ctx, step.Plans (p.typePlan job.environment ctx job.type)) :
    step.Plans (p.plan job) := by
  unfold Program.plan
  split
  · exact h _
  · split
    · refine step.plan_bind (h _).made fun plan hplan => step.plan_pure fun ss => ?_
      exact step.holds_bind ((h _).assembled plan hplan ss) fun _ _ => step.holds_pure _
    · exact step.plan_pure fun _ => step.holds_pure _

/-- A plan is followed by doing its jobs and assembling their schemas. -/
theorem run {planned : Compilation Plan} {compile : Job → Compilation Schema}
    (hplan : step.Plans planned)
    (hjobs : ∀ plan, planned.result = .ok plan → ∀ job ∈ plan.jobs, step.holds (compile job)) :
    step.holds (do (← planned).run compile) := by
  refine step.holds_bind hplan.made fun plan hres => ?_
  exact step.holds_bind (step.mapM (hjobs plan hres)) fun ss _ => hplan.assembled plan hres ss

/-- The plan of a declaration needs the one of an interface, in the way that it is used. -/
theorem declaration_plan {decl : Declaration}
    (hreject : decl.parameters ≠ [] →
      step.holds (Compilation.reject .genericAlias : Compilation Plan))
    (huse : ∀ d, decl = .interface d → step.holds (p.interfaceUse d))
    (hinterface : ∀ d, decl = .interface d →
      ∀ off, step.Plans (p.interfacePlan off .empty d {})) :
    step.Plans (p.declarationPlan decl) := by
  cases decl with
  | enumeration => exact step.plan_pure fun _ => step.holds_pure _
  | interface d =>
    refine step.plan_bind (huse d rfl) fun use hres => ?_
    obtain ⟨off, rfl⟩ := Program.interface_use_eq hres
    exact hinterface d rfl off
  | typeAlias =>
    rw [Program.declarationPlan]
    split
    · exact step.plan_through _
    · rename_i hgeneric
      exact step.plan_fail (hreject fun hnone => hgeneric (List.isEmpty_iff.2 hnone))

end Sequential

namespace Searching

variable (step : Searching) {p : Program}

theorem search_heritage {key : Json} {search : Name → Compilation (Option TypeExpr)}
    (hsearch : ∀ name, step.holds (search name)) (cs : List Heritage) :
    step.holds (Program.searchHeritage key search cs) := by
  induction cs with
  | nil => exact step.holds_pure _
  | cons c rest ih =>
    refine step.holds_bind (step.holds_hides _ _) fun hidden _ => ?_
    cases hidden with
    | true => exact ih
    | false =>
      refine step.holds_bind (hsearch c.name) fun found _ => ?_
      cases found with
      | none => exact ih
      | some => exact step.holds_pure _

theorem member_within (key : Json) (steps : Nat) (seen : List Key) (container : TypeExpr) :
    step.holds (p.memberTypeWithin key steps seen container) := by
  induction steps generalizing seen container with
  | zero => exact step.holds_pure _
  | succ steps ih =>
    have hnote (name : Name) : step.holds (do
        Compilation.note (.memberNotFound key name)
        return (none : Option TypeExpr)) :=
      step.holds_bind (step.holds_note _) fun _ _ => step.holds_pure _
    unfold Program.memberTypeWithin
    split
    · exact step.holds_pure _
    · refine step.holds_bind (step.holds_lift _) fun nameKey _ => ?_
      dsimp only
      split
      · exact step.holds_pure _
      · split
        · exact ih _ _
        · split
          · exact step.holds_pure _
          · refine step.holds_bind (step.search_heritage (fun _ => ih _ _) _) fun found _ => ?_
            cases found with
            | none => exact hnote _
            | some => exact step.holds_pure _
        · exact hnote _
    · exact step.holds_pure _

theorem member_type (container : Option TypeExpr) (key : Json) :
    step.holds (p.memberType container key) := by
  cases container with
  | none => exact step.holds_pure _
  | some container => exact step.member_within key _ _ container

theorem chain_type (chain : Chain) : step.holds (p.chainType chain) := by
  induction chain with
  | broken => exact step.holds_fault _
  | root t =>
    cases t with
    | reference =>
      refine step.holds_bind (step.holds_lift _) fun found _ => ?_
      split <;> exact step.holds_pure _
    | _ => exact step.holds_pure _
  | index access key object ih =>
    refine step.holds_bind (step.holds_lift _) fun key _ => ?_
    cases key with
    | property =>
      dsimp only
      split
      · exact step.holds_bind (step.holds_pure _) fun _ _ => step.member_type _ _
      · exact step.holds_bind ih fun _ _ => step.member_type _ _
    | _ => exact step.holds_pure _

end Searching

namespace Stepwise

variable (step : Stepwise) {p : Program} {env : Environment} {ctx : Context} {α : Type}

theorem holds_warned (warning : Json → Warning) (t : TypeExpr) (v : α) :
    step.holds (do
      Compilation.warn (warning (← t.text))
      return v) :=
  step.holds_bind (step.holds_lift _) fun _ _ =>
    step.holds_bind (step.holds_warn _) fun _ _ => step.holds_pure _

section Schemas

theorem modifiers : step.holds (p.modifiers ctx) :=
  step.holds_bind (step.holds_lift _) fun _ _ => Refinement.modifiers_keep step.holds
    step.holds_pure step.holds_note step.holds_bind (fun _ => step.holds_lift _) ctx

theorem finish (s : Schema) : step.holds (p.finish ctx s) :=
  step.holds_bind step.modifiers fun _ _ => step.holds_pure _

theorem unsupported (t : Option TypeExpr) : step.holds (p.unsupported t ctx) :=
  step.holds_bind (step.holds_lift _) fun _ _ =>
    step.holds_bind (step.holds_warn _) fun _ _ => step.finish _

theorem discriminated (field : String) (arms : List TypeExpr) :
    step.holds (Program.discriminated env field arms) := by
  induction arms with
  | nil => exact step.holds_pure _
  | cons arm rest ih =>
    refine step.holds_bind (step.holds_lift _) fun arm _ => ?_
    dsimp only
    split
    · exact ih
    · split
      · exact ih
      · exact step.holds_warned (.armWithoutField · field) _ _
    · exact step.holds_warned .armNotAnObject _ _

theorem union (arms : List TypeExpr) (ss : List Schema) :
    step.holds (p.unionSchema env arms ss ctx) := by
  refine step.holds_bind step.modifiers fun mods _ => ?_
  dsimp only
  split
  · refine step.holds_bind (step.discriminated _ _) fun told _ => ?_
    split <;> exact step.holds_pure _
  · exact step.holds_pure _

end Schemas

section Access

theorem segment (access : TypeExpr) (key : IndexKey) (object : Chain) :
    step.holds (p.segment access key object) := by
  cases key with
  | property | position => exact step.holds_pure _
  | unsupported => exact step.holds_warned .unsupportedIndex _ _
  | element =>
    refine step.holds_bind (step.chain_type object) fun t _ => ?_
    refine step.holds_bind (step.holds_lift _) fun segment _ => ?_
    cases segment with
    | none => exact step.holds_warned .unresolvedAccess _ _
    | some => exact step.holds_pure _

theorem reject_access (t : TypeExpr) :
    step.holds (do Compilation.reject (.indexedAccess (← t.text)) : Compilation α) :=
  step.holds_bind (step.holds_lift _) fun _ _ => step.holds_reject fun _ _ h => by cases h

theorem check_object (object : Chain) : step.holds (Program.checkObject object) := by
  unfold Program.checkObject
  split
  · exact step.holds_pure _
  · exact step.holds_pure _
  · exact step.reject_access _
  · exact step.holds_fault _

end Access

section Templates

theorem harvest_members (enumName : Name) (ms : List Enumerator) :
    step.holds (Program.harvestMembers enumName ms) := by
  induction ms with
  | nil => exact step.holds_pure _
  | cons m rest ih =>
    have hr (make : Option (List String) → Option (List String)) :
        step.holds (do return make (← Program.harvestMembers enumName rest)) :=
      step.holds_bind ih fun _ _ => step.holds_pure _
    unfold Program.harvestMembers
    split
    · exact step.holds_bind (step.holds_warn _) fun _ _ => hr fun _ => none
    · exact hr _

theorem harvest_named (name : Name) : step.holds (p.harvestNamed name) := by
  have hunknown : step.holds (do
      Compilation.warn (.unknownSpan name)
      return (none : Option Values)) :=
    step.holds_bind (step.holds_warn _) fun _ _ => step.holds_pure _
  refine step.holds_bind (step.holds_lift _) fun found _ => ?_
  split
  · split
    · exact step.holds_bind (step.holds_lift _) fun _ _ => step.holds_pure _
    · exact hunknown
    · exact step.holds_pure _
    · exact hunknown
  · exact step.holds_bind (step.harvest_members _ _) fun _ _ => step.holds_pure _
  · exact hunknown

theorem harvest (t : TypeExpr) : step.holds (p.harvest env t) := by
  refine step.holds_bind (step.holds_lift _) fun found _ => ?_
  obtain ⟨t, inner⟩ := found
  dsimp only
  split
  · exact step.holds_pure _
  · exact step.holds_bind (step.holds_lift _) fun _ _ => step.holds_pure _
  · refine step.holds_bind (step.holds_lift _) fun text _ => ?_
    cases text with
    | none => exact step.holds_bind (step.holds_warn _) fun _ _ => step.holds_pure _
    | some => exact step.holds_pure _
  · exact step.harvest_named _
  · exact step.holds_bind (step.holds_lift _) fun _ _ =>
      step.holds_bind (step.holds_warn _) fun _ _ => step.holds_pure _

theorem expand (head : Json) (spans : List (TemplateSpan TypeExpr)) :
    step.holds (p.expand env head spans) := by
  have hspans : step.holds (p.harvestSpans env spans) := by
    induction spans with
    | nil => exact step.holds_pure _
    | cons span rest ih =>
      refine step.holds_bind (step.harvest span.type) fun _ _ => ?_
      exact step.holds_bind ih fun _ _ => step.holds_pure _
  refine step.holds_bind hspans fun harvested _ => ?_
  cases harvested with
  | none => exact step.holds_pure _
  | some =>
    dsimp only
    split
    · exact step.holds_bind (step.holds_lift _) fun _ _ =>
        step.holds_bind (step.holds_warn _) fun _ _ => step.holds_pure _
    · exact step.holds_bind (step.holds_lift _) fun _ _ =>
        step.holds_bind (step.holds_lift _) fun _ _ => step.holds_pure _

end Templates

section Plans

variable {cs : List Heritage}

theorem inherited {c : Heritage} (h : step.holds (p.reference c.name)) :
    step.holds (p.inherited c) := by
  refine step.holds_bind h fun s _ => ?_
  split
  · exact step.holds_pure _
  · exact step.holds_project _ _ _ _

theorem extend (h : ∀ c ∈ cs, step.holds (p.reference c.name)) (chain : Schema) :
    step.holds (p.extend chain cs) := by
  induction cs generalizing chain with
  | nil => exact step.holds_pure _
  | cons c rest ih =>
    refine step.holds_bind (step.inherited (h c mem_cons_self)) fun _ _ => ?_
    exact ih (forall_mem_cons.1 h).2 _

theorem extension_chain (h : ∀ c ∈ cs, step.holds (p.reference c.name)) (own : Schema) :
    step.holds (p.extensionChain cs (some own)) := by
  have hchain : step.holds (p.inheritedChain cs) := by
    cases cs with
    | nil => exact step.holds_pure _
    | cons c rest =>
      refine step.holds_bind (step.inherited (h c mem_cons_self)) fun s _ => ?_
      have hrest := step.extend (forall_mem_cons.1 h).2 s
      exact step.holds_bind hrest fun _ _ => step.holds_pure _
  refine step.holds_bind hchain fun chain _ => ?_
  dsimp only
  split
  · exact step.holds_pure _
  · exact step.holds_pure _
  · exact step.holds_fault _

/-- An interface uses the schemas of what it extends. -/
theorem interface_plan {off : Option Context} {d : Interface}
    (h : ∀ c ∈ d.heritage, step.holds (p.reference c.name)) :
    step.Plans (p.interfacePlan off env d ctx) := by
  unfold Program.interfacePlan
  cases hher : d.heritage with
  | nil => exact step.plan_pure fun _ => step.finish _
  | cons =>
    dsimp only
    split
    · exact step.plan_fail (step.holds_reject fun _ _ h => by cases h)
    · refine step.plan_pure fun ss => ?_
      refine step.holds_bind (step.extension_chain (hher ▸ h) _) fun chain _ => ?_
      cases chain with
      | none => exact step.holds_fault _
      | some => exact step.finish _

/-- A name with its arguments uses its own schema or none. -/
theorem name_plan {name : Name} (h : step.holds (p.reference name)) (use : NameUse TypeExpr) :
    step.Plans (pure (p.namePlan env ctx name use)) := by
  refine step.plan_pure fun ss => ?_
  cases use with
  | maybe | adjusted => exact step.holds_pure _
  | projected => exact step.holds_bind (step.holds_project _ _ _ _) fun _ _ => step.finish _
  | schema => exact step.holds_bind h fun _ _ => step.finish _
  | _ => exact step.finish _

/-- A type uses its own name, the names that an interface extends which it refers to, or the one
that an index is taken of. -/
theorem type_plan {t : TypeExpr}
    (huse : ∀ name args, t = .reference name args → step.holds (p.use env name args))
    (hnamed : ∀ name args use, t = .reference name args →
      (p.use env name args).result = .ok (.name use) → step.holds (p.reference name))
    (hextended : ∀ name args d inner off, t = .reference name args →
      (p.use env name args).result = .ok (.interface d inner off) →
        ∀ c ∈ d.heritage, step.holds (p.reference c.name))
    (haccess : ∀ base index, t = .indexed base index →
      step.holds (p.indexedAccess (some env) t)) : step.Plans (p.typePlan env ctx t) := by
  refine step.written_plan (fun _ => step.modifiers) (step.unsupported _) (fun name args ht => ?_)
    (fun _ _ _ _ => step.union _ _) (fun _ _ => step.holds_lift _) haccess
    fun head spans _ => step.expand head spans
  subst ht
  refine step.plan_bind (huse name args rfl) fun use hu => ?_
  cases use with
  | type => exact step.plan_through _
  | interface d inner off => exact step.interface_plan (hextended name args d inner off rfl hu)
  | name use => exact step.name_plan (hnamed name args use rfl hu) use

end Plans

end Stepwise

end Schemata
