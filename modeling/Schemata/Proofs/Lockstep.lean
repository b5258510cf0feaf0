import Schemata.Proofs.Likeness
import Schemata.Proofs.Substitution

/-!
# Plans in lockstep

Jobs are related when their types are and they ask for the same, and plans when they name related
jobs and put schemas together in the same way. The rules of compilation that only name the parts of
a type keep to every `Likeness`: types of the same kind have related plans, `type_plan`, if what is
looked at for them agrees. A reference is used in the same way when what is declared under its name
is entered in the same way, `use`. Related jobs whose plans are related give schemas that are
compared, `compile_of_plans`.
-/

namespace Schemata

open List

variable {found : Option TypeExpr} {α : Type}

theorem Program.slot_job_of_plain {t : TypeExpr} (h : t.isElement = false)
    (env : Environment) : slotJob env t = ⟨t, env, {}⟩ := by
  cases t with
  | named => cases h
  | _ => rfl

/-- A tuple whose last element is not spread has none that it spreads. -/
theorem Program.spread_type_of_plain {t : TypeExpr} {elements : List TypeExpr}
    {env : Environment} (hlast : elements.getLast? = some t)
    (h : t.isElement = false) : spreadType env elements = .ok none := by
  unfold spreadType
  rw [hlast]
  cases t with
  | spread => cases h
  | _ => rfl

namespace TypeExpr

variable {sub : Substitution} {t : TypeExpr}

/-- Replacing parameters makes nothing null. -/
theorem is_null_instantiate (h : sub.Proper) : (t.instantiate sub).isNull = t.isNull := by
  unfold isNull
  rw [unwrap_instantiate h]
  cases t.unwrap with
  | reference name =>
    rcases replaced_or_unbound sub name with ⟨key, found, hk, hf⟩ | hn
    · rw [instantiate_replaced hk hf]
      have harg := h.argument key found hf
      split
      · exact harg.elim
      · rfl
    · rw [instantiate_reference hn]
  | _ => rfl

/-- Replacing parameters makes nothing an element that is spread or labelled. -/
theorem is_element_instantiate (h : sub.Proper) (ht : t.isElement = false) :
    (t.instantiate sub).isElement = false := by
  cases t with
  | reference name =>
    rcases replaced_or_unbound sub name with ⟨key, found, hk, hf⟩ | hn
    · rw [instantiate_replaced hk hf]
      have harg := h.argument key found hf
      cases found with
      | spread | named => exact harg.elim
      | _ => rfl
    · rw [instantiate_reference hn]
      rfl
  | spread | named => exact ht
  | _ => rfl

section SameKind

variable {types : TypeExpr → TypeExpr → Prop} {tags : Tags → Tags → Prop}

section Map

variable {f : TypeExpr → TypeExpr} {retag : Tags → Tags}

theorem related_map {parts : List TypeExpr} (h : ∀ part ∈ parts, types part (f part)) :
    Forall₂ types parts (parts.map f) := by
  rw [forall₂_map_right_iff, forall₂_same]
  exact h

/-- What a type is apart from its parts is not changed when its parts are mapped, if elements of
tuples stay what they are. -/
theorem same_kind_map (htags : ∀ written, tags written (retag written))
    (hslot : ∀ elt, elt.isElement = true → f elt = elt.mapParts f retag)
    (hplain : ∀ elt, elt.isElement = false → (f elt).isElement = false)
    (hps : ∀ part ∈ t.parts, types part (f part))
    (hi : ∀ part ∈ t.parts, ∀ inner ∈ part.parts, types inner (f inner)) :
    t.SameKind types tags (t.mapParts f retag) := by
  cases t with
  | keyword word => exact .keyword word
  | reference => exact .reference (fun _ => rfl) (related_map hps)
  | literal v => exact .literal v
  | enumMember enumName memberName => exact .enumMember enumName memberName
  | object ms index =>
    refine .object ?_ ?_
    · rw [forall₂_map_right_iff, forall₂_same]
      exact fun m hm => ⟨rfl, rfl, htags m.tags, rel_map fun part hpart =>
        hps part (mem_parts_member hm hpart)⟩
    · cases index with
      | none => exact .none
      | some => exact .some (rel_map fun part hpart => hps part (mem_parts_index hpart))
  | array elt => exact .array (hps elt (mem_singleton.2 rfl))
  | spread inner => exact .spread inner _
  | named name inner optional => exact .named name name inner _ optional optional
  | tuple =>
    refine .tuple ?_
    rw [forall₂_map_right_iff, forall₂_same]
    intro elt helt
    cases hkind : elt.isElement with
    | false => exact .plain (hps elt helt) hkind (hplain elt hkind)
    | true =>
      have hself := hps elt helt
      rw [hslot elt hkind] at hself ⊢
      cases elt with
      | named name inner optional =>
        exact .named name optional (hi _ helt inner (mem_singleton.2 rfl))
      | spread inner => exact .spread hself (hi _ helt inner (mem_singleton.2 rfl))
      | _ => cases hkind
  | union => exact .union (related_map hps)
  | intersection => exact .intersection (related_map hps)
  | function params result =>
    refine .function ?_ (hps result (by simp [parts]))
    rw [forall₂_map_right_iff, forall₂_same]
    exact fun param hparam => ⟨rfl, rel_map fun part hpart =>
      hps part (mem_parts_parameter hparam hpart)⟩
  | template head =>
    refine .template head ?_
    rw [forall₂_map_right_iff, forall₂_same]
    exact fun span hspan => ⟨rfl, hps span.type (mem_map_of_mem hspan)⟩
  | indexed base index =>
    exact .indexed (hps base mem_cons_self) (hps index (by simp [parts]))
  | paren inner => exact .paren (hps inner (mem_singleton.2 rfl))
  | unsupported kind text => exact .unsupported kind text

end Map

/-- What a type is apart from its parts is not changed when parameters are replaced, if a name stays
one and keeps its arguments. -/
theorem same_kind_instantiate (hproper : sub.Proper) (htags : ∀ written, tags written written)
    (hn : ∀ name args, t = .reference name args → ∃ other,
      t.instantiate sub = .reference other (args.map (instantiate sub)) ∧
        (args ≠ [] → other = name))
    (hps : ∀ part ∈ t.parts, types part (part.instantiate sub))
    (hi : ∀ part ∈ t.parts, ∀ inner ∈ part.parts, types inner (inner.instantiate sub)) :
    t.SameKind types tags (t.instantiate sub) := by
  by_cases hname : ∃ name args, t = .reference name args
  · obtain ⟨name, args, rfl⟩ := hname
    obtain ⟨other, heq, hsame⟩ := hn name args rfl
    rw [heq]
    exact .reference hsame (related_map hps)
  · rw [instantiate_eq_map fun name args ht => (hname ⟨name, args, ht⟩).elim]
    refine same_kind_map htags (fun elt helt => instantiate_eq_map fun name args ht => ?_)
      (fun _ => is_element_instantiate hproper) hps hi
    rw [ht] at helt
    cases helt

end SameKind

end TypeExpr

/-- The last elements of lists that are related one by one. -/
theorem last_related {related : α → α → Prop} {xs others : List α}
    (h : Forall₂ related xs others) : Option.Rel related xs.getLast? others.getLast? := by
  induction h with
  | nil => exact .none
  | cons ha hr ih =>
    cases hr with
    | nil => exact .some ha
    | cons => rwa [getLast?_cons_cons, getLast?_cons_cons]

theorem is_empty_related {related : α → α → Prop} {xs others : List α}
    (h : Forall₂ related xs others) : others.isEmpty = xs.isEmpty := by
  cases h <;> rfl

namespace Likeness

variable {program : Program} {version : Version} (like : Likeness program version)
  {first second : Environment} {decl : Declaration}

/-- Jobs for related types, in the same context. -/
structure Jobs (job other : Job) : Prop where
  types : like.At job.environment other.environment job.type other.type
  context : other.context = job.context

/-- Plans that name related jobs and put their schemas together in the same way. -/
structure Plans (plan other : Plan) : Prop where
  jobs : List.Forall₂ like.Jobs plan.jobs other.jobs
  assemble : ∀ schemas, like.compares Eq (plan.assemble schemas) (other.assemble schemas)

section Plans

variable {t other : TypeExpr}

theorem jobs_of (h : like.At first second t other) (ctx : Context) :
    like.Jobs ⟨t, first, ctx⟩ ⟨other, second, ctx⟩ := ⟨h, rfl⟩

theorem plans_leaf {s other : Compilation Schema} (h : like.compares Eq s other) :
    like.Plans (.leaf s) (.leaf other) := ⟨.nil, fun _ => h⟩

theorem plans_through {job other : Job} (h : like.Jobs job other) :
    like.Plans (.through job) (.through other) := ⟨.cons h .nil, fun _ => like.compares_refl _⟩

/-- Plans that put schemas together in the same way. -/
theorem plans_same {jobs others : List Job} (h : Forall₂ like.Jobs jobs others)
    (assemble : List Schema → Compilation Schema) :
    like.Plans ⟨jobs, assemble⟩ ⟨others, assemble⟩ := ⟨h, fun _ => like.compares_refl _⟩

/-- Source text is put in the place of related plans, or added to them, in the same way. -/
theorem plan_of_types {ctx : Context}
    (h : ∀ inner, inner = ctx ∨ inner = { ctx with tags := ctx.tags.without Tags.overrideTag } →
      like.compares like.Plans (program.typePlan first inner t)
        ((program.under version).typePlan second inner other)) :
    like.compares like.Plans (program.plan ⟨t, first, ctx⟩)
      ((program.under version).plan ⟨other, second, ctx⟩) := by
  unfold Program.plan
  dsimp only
  split
  · exact h ctx (.inl rfl)
  · split
    · refine like.compares_bind (h _ (.inr rfl)) fun plan otherPlan _ _ hplans => ?_
      refine like.compares_pure ⟨hplans.jobs, fun ss => ?_⟩
      exact like.compares_then (hplans.assemble ss) fun s _ => like.compares_refl _
    · exact like.compares_pure (like.plans_leaf (like.compares_refl _))

/-- Plans are followed alike if the jobs that they name are done alike. -/
theorem run_of_plans {plan other : Plan} {compile otherCompile : Job → Compilation Schema}
    (hjobs : Forall₂ (fun next otherNext =>
      like.compares Eq (compile next) (otherCompile otherNext)) plan.jobs other.jobs)
    (h : ∀ ss, like.compares Eq (plan.assemble ss) (other.assemble ss)) :
    like.compares Eq (plan.run compile) (other.run otherCompile) :=
  like.compares_then (like.compares_mapM hjobs) fun ss _ => h ss

/-- Related jobs give schemas that are compared, if they have related plans or are known to do so.
What else is known of two jobs has to be known of the jobs that they name in the same place. -/
theorem compile_of_plans (known : Job → Job → Prop)
    (hnext : ∀ {job other plan otherPlan next otherNext}, known job other →
      (program.plan job).result = .ok plan →
      ((program.under version).plan other).result = .ok otherPlan →
      (next, otherNext) ∈ plan.jobs.zip otherPlan.jobs → known next otherNext)
    (hplan : ∀ {job other}, like.Jobs job other → known job other →
      like.compares Eq (program.compile job) ((program.under version).compile other) ∨
        like.compares like.Plans (program.plan job) ((program.under version).plan other))
    {job other : Job} (hjobs : like.Jobs job other) (hknown : known job other) :
    like.compares Eq (program.compile job) ((program.under version).compile other) := by
  -- Only the jobs of the first program are known to get smaller, so the induction is on them.
  induction job using program.job_induction generalizing other with
  | h job ih =>
    rcases hplan hjobs hknown with hdone | hplans
    · exact hdone
    rw [Program.compile_eq_run, Program.compile_eq_run]
    refine like.compares_bind hplans fun plan otherPlan hres hotherResult hplans => ?_
    refine like.run_of_plans (forall₂_iff_zip.2 ⟨hplans.jobs.length_eq, fun hpair => ?_⟩)
      hplans.assemble
    exact ih _ ⟨plan, hres, (of_mem_zip hpair).1⟩ (forall₂_zip hplans.jobs hpair)
      (hnext hknown hres hotherResult hpair)

end Plans

section Parts

variable {types others : List TypeExpr} {ctx : Context}

theorem jobs_map (h : Forall₂ (like.At first second) types others) (ctx : Context) :
    Forall₂ like.Jobs (types.map (⟨·, first, ctx⟩)) (others.map (⟨·, second, ctx⟩)) := by
  rw [forall₂_map_left_iff, forall₂_map_right_iff]
  exact h.imp fun _ _ ht => like.jobs_of ht ctx

/-- A type that may be missing, where any value stands for a missing one. -/
theorem at_or_any {other : Option TypeExpr}
    (hany : like.At first second (.keyword .any) (.keyword .any))
    (h : Option.Rel (like.At first second) found other) :
    like.At first second (found.getD (.keyword .any)) (other.getD (.keyword .any)) := by
  cases h with
  | none => exact hany
  | some ht => exact ht

/-- The arms of unions that are not null. -/
theorem kept_arms {related : TypeExpr → TypeExpr → Prop}
    (hnull : ∀ {arm other}, related arm other → other.isNull = arm.isNull)
    (h : Forall₂ related types others) :
    Forall₂ related (types.filter (!·.isNull)) (others.filter (!·.isNull)) := by
  induction h with
  | nil => exact .nil
  | cons harm hr ih =>
    rw [filter_cons, filter_cons, hnull harm]
    split
    · exact .cons harm ih
    · exact ih

/-- Unions whose arms are related have related plans, if the arms are told apart in the same way. -/
theorem union_plan (h : Forall₂ (like.At first second) types others)
    (hseen : ctx.tags.discriminator?.getD "" ≠ "" → Forall₂ (like.Sees first second)
      (types.filter (!·.isNull)) (others.filter (!·.isNull))) :
    like.compares like.Plans (program.typePlan first ctx (.union types))
      ((program.under version).typePlan second ctx (.union others)) := by
  have hkept := kept_arms like.null h
  rw [Program.typePlan, Program.typePlan, ← h.length_eq, ← hkept.length_eq]
  generalize types.filter (!·.isNull) = kept at hkept hseen
  generalize others.filter (!·.isNull) = otherKept at hkept hseen
  dsimp only
  cases hkept with
  | nil => exact like.compares_pure (like.plans_leaf (like.compares_refl _))
  | cons harm hr =>
    cases hr with
    | nil => exact like.compares_pure (like.plans_through (like.jobs_of harm _))
    | cons hnext hmore =>
      refine like.compares_pure ⟨like.jobs_map (.cons harm (.cons hnext hmore)) {}, fun ss => ?_⟩
      refine like.compares_then (like.compares_refl _) fun mods _ => ?_
      dsimp only
      split
      · rename_i hsome
        exact like.compares_then (like.discriminated (hseen hsome)) fun told _ =>
          like.compares_refl _
      · exact like.compares_refl _

theorem slot_jobs {t other : TypeExpr} (h : t.SameSlot (like.At first second) other) :
    like.Jobs (Program.slotJob first t) (Program.slotJob second other) := by
  cases h with
  | spread h => exact like.jobs_of h {}
  | named name optional h => exact like.jobs_of h { optional := optional }
  | plain h ht hother =>
    rw [Program.slot_job_of_plain ht, Program.slot_job_of_plain hother]
    exact like.jobs_of h {}

/-- Tuples whose elements are related have related plans, if they spread what is seen alike. -/
theorem tuple_plan (h : Forall₂ (TypeExpr.SameSlot (like.At first second)) types others)
    (hseen : ∀ {t other}, types.getLast? = some (.spread t) →
      others.getLast? = some (.spread other) → like.Sees first second t other) :
    like.compares like.Plans (program.typePlan first ctx (.tuple types))
      ((program.under version).typePlan second ctx (.tuple others)) := by
  have hslots : Forall₂ like.Jobs (types.map (Program.slotJob first))
      (others.map (Program.slotJob second)) := by
    rw [forall₂_map_left_iff, forall₂_map_right_iff]
    exact h.imp fun _ _ => like.slot_jobs
  have hspread : like.agrees (Option.Rel like.relates) (Program.spreadType first types)
      (Program.spreadType second others) := by
    have hlast := last_related h
    generalize hf : types.getLast? = found at hlast hseen
    generalize hother : others.getLast? = other at hlast hseen
    cases hlast with
    | none =>
      rw [Program.spreadType, Program.spreadType, hf, hother]
      exact like.agrees_ok .none
    | some hslot =>
      cases hslot with
      | spread =>
        rw [Program.spreadType, Program.spreadType, hf, hother]
        exact like.element_type (hseen rfl rfl)
      | named =>
        rw [Program.spreadType, Program.spreadType, hf, hother]
        exact like.agrees_ok .none
      | plain _ ht hplain =>
        rw [Program.spread_type_of_plain hf ht, Program.spread_type_of_plain hother hplain]
        exact like.agrees_ok .none
  rw [Program.typePlan, Program.typePlan]
  refine like.compares_then (like.compares_refl _) fun mods _ => ?_
  refine like.compares_bind (like.compares_lift hspread) fun found other _ _ hf => ?_
  cases hf with
  | none => exact like.compares_pure (like.plans_same hslots _)
  | some hf =>
    refine like.compares_pure (like.plans_same (.cons (like.jobs_of hf {}) ?_) _)
    rw [map_dropLast, map_dropLast, dropLast_eq_take, dropLast_eq_take, hslots.length_eq]
    exact forall₂_take _ hslots

end Parts

section Objects

variable {off : Option Context} {members others : List (Member TypeExpr)}

theorem member_jobs (h : Forall₂ (Member.Alike (like.At first second) like.tags) members others) :
    Forall₂ (fun named other => other.1 = named.1 ∧ like.Jobs named.2 other.2)
      (program.memberJobs off first members)
      ((program.under version).memberJobs off second others) := by
  induction h with
  | nil => exact .nil
  | @cons m other rest others hm hr ih =>
    have hctx : (program.under version).memberContext off other = program.memberContext off m := by
      unfold Program.memberContext
      rw [like.tags_eq hm.tags, hm.optional]
    have ht := hm.type
    unfold Program.memberJobs at ih ⊢
    rw [filterMap_cons, filterMap_cons, hctx, hm.name]
    generalize m.type = t at ht
    generalize other.type = otherType at ht
    cases ht with
    | none => exact ih
    | some ht => exact .cons ⟨rfl, like.jobs_of ht _⟩ ih

theorem names_of_related {named otherNamed : List (String × Job)}
    (h : Forall₂ (fun named other => other.1 = named.1 ∧ like.Jobs named.2 other.2)
      named otherNamed) :
    otherNamed.map (·.1) = named.map (·.1) ∧
      Forall₂ like.Jobs (named.map (·.2)) (otherNamed.map (·.2)) := by
  induction h with
  | nil => exact ⟨rfl, .nil⟩
  | cons ha hr ih => exact ⟨by simp [ha.1, ih.1], .cons ha.2 ih.2⟩

/-- Object types whose members are related have related plans. -/
theorem object_plan {index otherIndex : Option (IndexSignature TypeExpr)}
    {finish : Schema → Compilation Schema}
    (hany : like.At first second (.keyword .any) (.keyword .any))
    (hms : Forall₂ (Member.Alike (like.At first second) like.tags) members others)
    (hidx : Option.Rel (fun sig other =>
      Option.Rel (like.At first second) sig.type other.type) index otherIndex) :
    like.Plans (program.objectPlan off first members index finish)
      ((program.under version).objectPlan off second others otherIndex finish) := by
  obtain ⟨hnames, hjobs⟩ := like.names_of_related (@member_jobs _ _ like _ _ off _ _ hms)
  have hlen := congrArg List.length hnames
  rw [length_map, length_map] at hlen
  refine ⟨rel_append hjobs ?_, fun ss => ?_⟩
  · cases hidx with
    | none => exact .nil
    | some ht => exact .cons (like.jobs_of (like.at_or_any hany ht) {}) .nil
  · dsimp only [Program.objectPlan]
    rw [hnames, hlen]
    exact like.compares_refl _

/-- Interfaces that extend the same and whose members are related. -/
structure Interfaces (first second : Environment) (declared other : Interface) : Prop where
  tags : like.tags declared.tags other.tags
  members : List.Forall₂ (Member.Alike (like.At first second) like.tags) declared.members
    other.members
  index : Option.Rel (fun signature other =>
    Option.Rel (like.At first second) signature.type other.type) declared.index other.index
  heritage : other.heritage.isEmpty = declared.heritage.isEmpty
  chain : ∀ own, (program.under version).extensionChain other.heritage own =
    program.extensionChain declared.heritage own
  any : like.At first second (.keyword .any) (.keyword .any)

/-- Related interfaces have related plans. -/
theorem interface_plan {d other : Interface} (h : like.Interfaces first second d other)
    (ctx : Context) :
    like.compares like.Plans (program.interfacePlan off first d ctx)
      ((program.under version).interfacePlan off second other ctx) := by
  obtain ⟨hnames, hjobs⟩ := like.names_of_related (@member_jobs _ _ like _ _ off _ _ h.members)
  have hidx := h.index
  have hsome : other.index.isSome = d.index.isSome := by
    generalize d.index = index, other.index = otherIndex at hidx
    cases hidx <;> rfl
  have hempty := h.heritage
  have hchain := h.chain
  unfold Program.interfacePlan
  rw [like.tags_eq h.tags, hsome]
  dsimp only
  generalize d.heritage = heritage at hempty hchain
  generalize other.heritage = otherHeritage at hempty hchain
  cases heritage with
  | nil =>
    cases List.isEmpty_iff.1 hempty
    exact like.compares_pure (like.object_plan h.any h.members h.index)
  | cons =>
    cases otherHeritage with
    | nil => cases hempty
    | cons =>
      dsimp only
      split
      · exact like.compares_fail _
      · refine like.compares_pure ⟨hjobs, fun ss => ?_⟩
        dsimp only
        rw [hnames, hchain]
        exact like.compares_refl _

end Objects

/-- Uses of two names whose plans are related. -/
def Uses (name otherName : Name) (first second : Environment) (use other : Use) : Prop :=
  ∀ context, like.compares like.Plans (program.usePlan first context name use)
    ((program.under version).usePlan second context otherName other)

section Names

variable {name : Name} {args others : List TypeExpr}

/-- A name is compiled as the same with arguments that are related, if it is told in the same way
whether all texts are keys of a record. -/
theorem name_use (h : like.At first second (.reference name args) (.reference name others))
    (hargs : Forall₂ (like.At first second) args others)
    (hk : Builtin.ofName? name = some .record →
      ∀ key ∈ args.head?, ∀ other ∈ others.head?, like.agrees Eq (Program.anyKey first key)
        (Program.anyKey second other)) :
    like.compares (fun use other => like.Uses name name first second (.name use) (.name other))
      (program.nameUse id name first args)
      ((program.under version).nameUse id name second others) := by
  have huse {use other : NameUse TypeExpr} (hplans : ∀ ctx, like.Plans
        (program.namePlan first ctx name use)
        ((program.under version).namePlan second ctx name other)) :
      like.Uses name name first second (.name use) (.name other) :=
    fun ctx => like.compares_pure (hplans ctx)
  cases hargs with
  | nil =>
    refine like.compares_pure (huse fun ctx => ?_)
    split
    · exact like.plans_leaf (like.compares_refl _)
    · exact like.plans_leaf (like.compares_refl _)
  | @cons arg other rest others harg hr =>
    have hone (ctx : Context) : Forall₂ like.Jobs [⟨arg, first, ctx⟩]
        [⟨other, second, ctx⟩] := .cons (like.jobs_of harg ctx) .nil
    have hsecond : Option.Rel (like.At first second) rest.head? others.head? := by
      cases hr with
      | nil => exact .none
      | cons hv => exact .some hv
    by_cases hdate : Builtin.ofName? name = some .date
    · rw [Program.nameUse, Program.nameUse, if_pos hdate, if_pos hdate]
      exact like.compares_pure (huse fun ctx => like.plans_leaf (like.compares_refl _))
    rw [Program.nameUse, Program.nameUse, if_neg hdate, if_neg hdate]
    refine like.compares_then (like.compares_refl _) fun isMaybe _ => ?_
    split
    · refine like.compares_then (like.compares_refl _) fun _ _ => ?_
      exact like.compares_pure (huse fun ctx => like.plans_same (hone {}) _)
    · cases hbuiltin : Builtin.ofName? name with
      | none =>
        dsimp only
        rw [map_id, map_id]
        refine like.compares_bind (like.compares_lift (like.text h)) fun _ _ _ _ hshows => ?_
        refine like.compares_then (like.compares_note .ignoredArguments hshows) fun _ _ => ?_
        exact like.compares_pure (huse fun ctx => like.plans_leaf (like.compares_refl _))
      | some builtin =>
        cases builtin with
        | date => exact (hdate hbuiltin).elim
        | array => exact like.compares_pure (huse fun ctx => like.plans_same (hone _) _)
        | allOptional | allRequired | readonly =>
          exact like.compares_pure (huse fun ctx =>
            like.plans_through (like.jobs_of harg _))
        | record =>
          refine like.compares_then (like.compares_lift (hk hbuiltin arg rfl other rfl))
            fun any _ => ?_
          refine like.compares_pure (huse fun ctx => like.plans_same ?_ _)
          refine .cons (like.jobs_of (like.at_or_any (like.any h) hsecond) {}) ?_
          cases any with
          | true => exact .nil
          | false => exact hone {}
        | set | promise =>
          exact like.compares_pure (huse fun ctx =>
            like.plans_same (like.jobs_map (.cons harg hr) {}) _)
        | projection =>
          refine like.compares_pure (huse fun ctx => ⟨hone {}, fun ss => ?_⟩)
          dsimp only [Program.namePlan]
          rw [Option.map_id_apply, Option.map_id_apply]
          exact like.compares_then (like.project hsecond) fun s _ => like.compares_refl _

end Names

section Uses

variable {name otherName : Name} {args others : List TypeExpr} {outer otherOuter : Environment}
  {d other : Interface}

/-- The environments of two bodies, after the parameters of their declarations are bound. -/
theorem instantiates {params otherParameters : List GenericParameter}
    {related : Environment → Environment → Prop}
    (h : like.At first second (.reference name args) (.reference otherName others))
    (hbound : like.agrees related (Program.bindTypes first params args first.enter)
      (Program.bindTypes second otherParameters others second.enter))
    (hnote : ∀ {inner otherInner text other}, related inner otherInner → like.shows text other →
      like.compares Eq (Compilation.note (.instantiating text inner.display))
        (Compilation.note (.instantiating other otherInner.display))) :
    like.compares related (Program.instantiation params name args first)
      (Program.instantiation otherParameters otherName others second) := by
  refine like.compares_bind (like.compares_lift hbound) fun inner otherInner _ _ hi => ?_
  refine like.compares_bind (like.compares_lift (like.text h)) fun _ _ _ _ hshows => ?_
  exact like.compares_then (hnote hi hshows) fun _ _ => like.compares_pure hi

/-- Reserved interfaces that are switched by types that are seen alike, in two environments. -/
inductive Reserved (first second : Environment) (declared other : Interface) : Prop where
  | switched {parameter otherParameter : GenericParameter}
      (hparameters : declared.parameters = [parameter])
      (hothers : other.parameters = [otherParameter])
      (hname : otherParameter.name = parameter.name)
      (hswitch : like.agrees like.Switches (Program.switchType parameter first)
        (Program.switchType otherParameter second))
      (hbody : ∀ key, parameter.name.key = .ok key → like.Interfaces
        (first.without parameter.name) (second.without parameter.name) declared other)
  | rejected (hparameters : ∀ parameter, declared.parameters ≠ [parameter])
      (hothers : ∀ parameter, other.parameters ≠ [parameter])

/-- Interfaces are reserved in the same way if parameters are related one by one. -/
theorem reserved_of_parameters {d other : Interface}
    {related : GenericParameter → GenericParameter → Prop}
    (hparams : Forall₂ related d.parameters other.parameters)
    (h : ∀ {param otherParameter}, d.parameters = [param] →
      other.parameters = [otherParameter] → related param otherParameter →
        like.Reserved first second d other) :
    like.Reserved first second d other := by
  by_cases hsingle : ∃ param, d.parameters = [param]
  · obtain ⟨param, hone⟩ := hsingle
    rw [hone] at hparams
    generalize hother : other.parameters = otherParameters at hparams
    cases hparams with
    | cons hparam hr =>
      cases hr
      exact h hone hother hparam
  · refine .rejected (fun param heq => hsingle ⟨param, heq⟩) fun param heq => ?_
    rw [heq] at hparams
    generalize d.parameters = params at hparams hsingle
    cases hparams with
    | cons hparam hr =>
      cases hr
      exact hsingle ⟨_, rfl⟩

/-- An interface is reserved in the same way where what is bound and the defaults of its parameters
are seen alike. -/
theorem reserved_same {d : Interface} (hbound : ∀ key, Option.Rel (fun b other =>
      like.Sees b.environment other.environment b.type other.type)
      (first.binding? key) (second.binding? key))
    (hdefaults : ∀ t ∈ (Declaration.interface d).defaults, like.Sees first second t t)
    (hbody : ∀ {name key}, name.key? = some key →
      like.Interfaces (first.without name) (second.without name) d d) :
    like.Reserved first second d d := by
  refine like.reserved_of_parameters (forall₂_same.2 fun _ _ => rfl)
    fun {param other} hone hother heq => ?_
  subst heq
  refine .switched hone hother rfl (like.switch_type rfl (fun key _ => hbound key) fun _ _ _ =>
    rel_refl fun t ht => hdefaults t (mem_filterMap.2 ⟨param, ?_, ht⟩)) fun key hk =>
      hbody (Program.key?_of_key hk)
  rw [Declaration.parameters, hone]
  exact mem_singleton.2 rfl

/-- Reserved interfaces are used in the same way. -/
theorem reserved_use (hn : other.name = d.name) (h : like.Reserved first second d other) :
    like.compares (like.Uses name otherName outer otherOuter) (program.reservedUse d first)
      ((program.under version).reservedUse other second) := by
  unfold Program.reservedUse
  cases h with
  | @switched param otherParameter hparams hothers hnames hswitch hbody =>
    rw [hparams, hothers]
    dsimp only
    refine like.compares_then (like.compares_lift (like.off_context hswitch)) fun off _ => ?_
    rw [hnames]
    refine like.compares_then (like.compares_refl _) fun key hk =>
      like.compares_pure fun ctx => ?_
    exact like.interface_plan (hbody key (Traced.lift_ok_iff.1 hk)) ctx
  | rejected hparams hothers =>
    rw [hn]
    split
    · rename_i param heq
      exact (hparams param heq).elim
    · exact like.compares_fail _

/-- Declarations that are entered in the same way by references to them, with and without
arguments. -/
inductive Entered (name otherName : Name) (arguments others : List TypeExpr)
    (first second : Environment) : Declaration → Declaration → Prop where
  | typeAlias {declared other : Alias} (hname : other.name = declared.name)
      (hparameters : other.parameters.isEmpty = declared.parameters.isEmpty)
      (hbody : arguments ≠ [] → like.compares
        (fun inner otherInner => like.At inner otherInner declared.type other.type)
        (Program.instantiation declared.parameters name arguments first)
        (Program.instantiation other.parameters otherName others second)) :
      Entered name otherName arguments others first second (.typeAlias declared) (.typeAlias other)
  | interface {declared other : Interface} (hname : other.name = declared.name)
      (hparameters : other.parameters.isEmpty = declared.parameters.isEmpty)
      (hbody : arguments ≠ [] → like.compares
        (fun inner otherInner => if program.settings.isMaybeName declared.name = .ok true then
            like.Reserved inner otherInner declared other
          else like.Interfaces inner otherInner declared other)
        (Program.instantiation declared.parameters name arguments first)
        (Program.instantiation other.parameters otherName others second))
      (hreserved : program.settings.isMaybeName declared.name = .ok true →
        like.Reserved first.enter second.enter declared other) :
      Entered name otherName arguments others first second (.interface declared) (.interface other)
  | enumeration (declared other : Enumeration) :
      Entered name otherName arguments others first second (.enumeration declared)
        (.enumeration other)

theorem Entered.parameters {like : Likeness program version} {other : Declaration}
    (h : like.Entered name otherName args others first second decl other) :
    other.parameters.isEmpty = decl.parameters.isEmpty := by
  cases h with
  | typeAlias _ hparams | interface _ hparams => exact hparams
  | enumeration => rfl

/-- What a reference is compiled as, when what is bound to its name and declared under it is
entered in the same way. -/
structure Referring (name otherName : Name) (arguments others : List TypeExpr)
    (first second : Environment) : Prop where
  related : like.At first second (.reference name arguments) (.reference otherName others)
  types : List.Forall₂ (like.At first second) arguments others
  bound : like.agrees (fun key otherKey => Option.Rel (fun binding other =>
      like.At binding.environment other.environment binding.type other.type)
      (first.binding? key) (second.binding? otherKey) ∧
        (first.binding? key = none → otherName = name)) name.key otherName.key
  found : otherName = name → like.agrees
    (Option.Rel (like.Entered name name arguments others first second)) (program.find name)
    ((program.under version).find name)
  depth : ∀ declared, like.compares Eq (program.checkDepth declared first)
    ((program.under version).checkDepth declared second)
  anyKey : otherName = name → Builtin.ofName? name = some .record →
    ∀ key ∈ arguments.head?, ∀ other ∈ others.head?, like.agrees Eq (Program.anyKey first key)
      (Program.anyKey second other)

/-- Interfaces of the same name are reserved together. -/
theorem reserved_together (hn : other.name = d.name) :
    like.agrees (Option.Rel fun found otherFound => found = d ∧ otherFound = other ∧
        program.settings.isMaybeName d.name = .ok true)
      (program.reserved? (some (.interface d)))
      ((program.under version).reserved? (some (.interface other))) := by
  rw [Program.reserved?, Program.reserved?, hn]
  change like.agrees _ _ (do
    return if ← program.settings.isMaybeName d.name then some other else none)
  cases program.settings.isMaybeName d.name with
  | error reason => exact like.agrees_error reason
  | ok reserved =>
    cases reserved with
    | true => exact like.agrees_ok (.some ⟨rfl, rfl, rfl⟩)
    | false => exact like.agrees_ok .none

/-- References that are entered in the same way are used in the same way. -/
theorem use (h : like.Referring name otherName args others first second) :
    like.compares (like.Uses name otherName first second) (program.use first name args)
      ((program.under version).use second otherName others) := by
  unfold Program.use
  refine like.compares_bind (like.compares_lift h.bound) fun key otherKey _ _ ⟨hrel, hn⟩ => ?_
  generalize first.binding? key = b at hrel hn
  generalize second.binding? otherKey = otherBinding at hrel
  cases hrel with
  | some hbound =>
    exact like.compares_pure fun ctx =>
      like.compares_pure (like.plans_through (like.jobs_of hbound ctx))
  | none =>
    cases hn rfl
    have hnamed : like.compares (like.Uses name name first second)
        (do return .name (← program.nameUse id name first args))
        (do return .name (← (program.under version).nameUse id name second others)) :=
      like.compares_bind (like.name_use h.related h.types (h.anyKey rfl))
        fun use other _ _ huses => like.compares_pure huses
    have hempty : others.isEmpty = args.isEmpty := by
      cases h.types <;> rfl
    -- What is declared under the name decides: a generic declaration with arguments, a reserved
    -- interface, or anything else, which is compiled as a name.
    refine like.compares_bind (like.compares_lift (h.found rfl)) fun found other _ _ hrel => ?_
    cases hrel with
    | none => exact hnamed
    | @some decl other hentered =>
      rw [Option.filter_some, Option.filter_some, hempty, hentered.parameters]
      by_cases hgeneric : (!args.isEmpty && !decl.parameters.isEmpty) = true
      · have hargs : args ≠ [] := by
          rintro rfl
          cases hgeneric
        rw [if_pos hgeneric, if_pos hgeneric]
        cases hentered with
        | enumeration => simp [Declaration.parameters] at hgeneric
        | typeAlias hn _ hbody =>
          dsimp only [Declaration.name]
          rw [hn]
          refine like.compares_then (h.depth _) fun _ _ => ?_
          refine like.compares_bind (hbody hargs) fun inner otherInner _ _ hi => ?_
          exact like.compares_pure fun ctx =>
            like.compares_pure (like.plans_through (like.jobs_of hi ctx))
        | interface hn _ hbody _ =>
          dsimp only [Declaration.name]
          rw [hn]
          refine like.compares_then (h.depth _) fun _ _ => ?_
          refine like.compares_bind (hbody hargs) fun inner otherInner _ _ hi => ?_
          refine like.compares_bind (like.compares_lift (like.reserved_together hn))
            fun special otherSpecial hspecial _ hrel => ?_
          cases hrel with
          | none =>
            rw [if_neg fun hmaybe => ?_] at hi
            · exact like.compares_pure fun ctx => like.interface_plan hi ctx
            · have hspecial := Traced.lift_ok_iff.1 hspecial
              rw [Program.reserved?, hmaybe] at hspecial
              cases hspecial
          | some hsame =>
            obtain ⟨rfl, rfl, hmaybe⟩ := hsame
            rw [if_pos hmaybe] at hi
            exact like.reserved_use hn hi
      · rw [if_neg hgeneric, if_neg hgeneric]
        cases hentered with
        | enumeration | typeAlias => exact hnamed
        | interface hn _ _ hreserved =>
          refine like.compares_bind (like.compares_lift (like.reserved_together hn))
            fun special otherSpecial _ _ hrel => ?_
          cases hrel with
          | none => exact hnamed
          | some hsame =>
            obtain ⟨rfl, rfl, hmaybe⟩ := hsame
            dsimp only
            rw [hn]
            refine like.compares_then (h.depth _) fun _ _ => ?_
            exact like.reserved_use hn (hreserved hmaybe)

end Uses

section Types

variable {ctx : Context} {type other : TypeExpr}

/-- What the plans of two types of the same kind are told by, beside their parts, is seen alike. -/
structure Looks (first second : Environment) (context : Context) (type other : TypeExpr) :
    Prop where
  arms : ∀ {arms others}, type = .union arms → other = .union others →
    context.tags.discriminator?.getD "" ≠ "" → List.Forall₂ (like.Sees first second)
      (arms.filter (!·.isNull)) (others.filter (!·.isNull))
  spread : ∀ {elements others last otherLast}, type = .tuple elements → other = .tuple others →
    elements.getLast? = some (.spread last) → others.getLast? = some (.spread otherLast) →
      like.Sees first second last otherLast
  texts : ∀ {head spans others}, type = .template head spans → other = .template head others →
    like.compares Eq (program.expand first head spans)
      ((program.under version).expand second head others)
  path : ∀ {base index otherBase otherIndex}, type = .indexed base index →
    other = .indexed otherBase otherIndex → like.compares Eq
      (program.indexedAccess (some first) type)
      ((program.under version).indexedAccess (some second) other)
  use : ∀ {name arguments otherName others}, type = .reference name arguments →
    other = .reference otherName others → like.compares (like.Uses name otherName first second)
      (program.use first name arguments) ((program.under version).use second otherName others)

/-- Related types of the same kind have related plans. -/
theorem type_plan (h : like.At first second type other)
    (hkind : type.SameKind (like.At first second) like.tags other)
    (hlooks : like.Looks first second ctx type other) :
    like.compares like.Plans (program.typePlan first ctx type)
      ((program.under version).typePlan second ctx other) := by
  have hany := like.any h
  have hunsupported : like.compares Eq (program.unsupported (some type) ctx)
      ((program.under version).unsupported (some other) ctx) :=
    like.warned h .unsupportedType _
  have hleaf {s other : Compilation Schema} (h : like.compares Eq s other) :
      like.compares like.Plans (pure (.leaf s)) (pure (.leaf other)) :=
    like.compares_pure (like.plans_leaf h)
  cases hkind with
  | reference _ _ =>
    exact like.compares_bind (hlooks.use rfl rfl) fun use other _ _ huses => huses ctx
  | object hms hidx => exact like.compares_pure (like.object_plan hany hms hidx)
  | union harms => exact like.union_plan harms (hlooks.arms rfl rfl)
  | intersection harms =>
    cases harms with
    | nil => exact hleaf hunsupported
    | cons harm hr =>
      exact like.compares_pure (like.plans_same (like.jobs_map (.cons harm hr) {}) _)
  | tuple helts => exact like.tuple_plan helts (hlooks.spread rfl rfl)
  | function hparams hres =>
    refine like.compares_pure (like.plans_same
      (rel_append ?_ (.cons (like.jobs_of hres {}) .nil)) _)
    rw [forall₂_map_left_iff, forall₂_map_right_iff]
    refine hparams.imp fun param other ⟨hoptional, ht⟩ => ?_
    unfold Program.parameterJob
    rw [hoptional]
    exact like.jobs_of (like.at_or_any hany ht) _
  | array helt =>
    exact like.compares_pure (like.plans_same (.cons (like.jobs_of helt _) .nil) _)
  | indexed _ _ =>
    exact hleaf (like.compares_then (hlooks.path rfl rfl) fun _ _ => like.compares_refl _)
  | template head _ =>
    exact hleaf (like.compares_then (hlooks.texts rfl rfl) fun _ _ => like.compares_refl _)
  | paren ht => exact like.compares_pure (like.plans_through (like.jobs_of ht _))
  | spread | named => exact hleaf hunsupported
  | unsupported | enumMember | keyword => exact hleaf (like.compares_refl _)
  | literal v => cases v <;> exact hleaf (like.compares_refl _)

/-- All related types are seen alike. -/
structure Clear : Prop where
  leads : ∀ {first second type other}, like.At first second type other →
    like.agrees (fun found reached => like.Ends found reached ∧ like.Harvested found.1 reached.1 ∧
        found.1.SameKind (like.At found.2 reached.2) like.tags reached.1)
      (first.resolve type) (second.resolve other)

end Types

namespace Clear

variable {like} (hclear : like.Clear) {ctx : Context} {t other : TypeExpr}

include hclear

theorem sees (h : like.At first second t other) : like.Sees first second t other :=
  like.agrees_mono (hclear.leads h) fun _ _ hends => hends.1

theorem sees_span (h : like.At first second t other) : like.SeesSpan first second t other := by
  refine like.agrees_mono (hclear.leads h) ?_
  rintro ⟨found, inner⟩ ⟨reached, otherInner⟩ ⟨hends, hnamed, -⟩
  refine ⟨hends, hnamed, fun arms others harms hothers => ?_⟩
  have hkind := hends.kind
  dsimp only at harms hothers hkind
  rw [harms, hothers] at hkind
  cases hkind with
  | union h => exact h.imp fun _ _ => hclear.sees

/-- Both types are those of all texts, or neither is. -/
theorem any_key (h : like.At first second t other) :
    like.agrees Eq (Program.anyKey first t) (Program.anyKey second other) := by
  have hf : like.agrees (fun found reached => ∃ types, found.SameKind types like.tags reached)
      (first.substitute t) (second.substitute other) := by
    refine like.agrees_bind (hclear.leads h) ?_
    rintro _ _ ⟨-, -, hkind⟩
    exact like.agrees_ok ⟨_, hkind⟩
  refine like.agrees_bind hf ?_
  rintro _ _ ⟨_, hkind⟩
  refine like.agrees_ok ?_
  cases hkind <;> rfl

/-- Types of the same kind are looked at alike if their names, texts and paths are. -/
theorem looks (h : like.At first second t other)
    (hkind : t.SameKind (like.At first second) like.tags other) (hm : like.SameEnumerators)
    (hpath : ∀ {base index otherBase otherIndex}, t = .indexed base index →
      other = .indexed otherBase otherIndex →
        like.compares Eq (program.indexedAccess (some first) t)
          ((program.under version).indexedAccess (some second) other))
    (huse : ∀ {name args otherName others}, t = .reference name args →
      other = .reference otherName others → like.compares (like.Uses name otherName first second)
        (program.use first name args) ((program.under version).use second otherName others)) :
    like.Looks first second ctx t other where
  arms ht hother _ := by
    subst ht hother
    cases hkind with
    | union harms => exact (kept_arms like.null harms).imp fun _ _ => hclear.sees
  spread ht hother hlast hotherLast := by
    subst ht hother
    cases hkind with
    | tuple helts =>
      have hslot := last_related helts
      rw [hlast, hotherLast] at hslot
      cases hslot with
      | some hslot =>
        cases hslot with
        | spread _ hi => exact hclear.sees hi
        | plain _ ht => cases ht
  texts ht hother := by
    subst ht hother
    cases hkind with
    | template head hspans =>
      exact like.expand h (hspans.imp fun _ _ hspan =>
        ⟨hspan.1, like.harvest hm (hclear.sees_span hspan.2)⟩)
  path := hpath
  use := huse

end Clear

section Declarations

/-- Declarations that are compiled in the same way. -/
inductive Declares : Declaration → Declaration → Prop where
  | enumeration {declared other : Enumeration} (hname : other.name = declared.name) :
      Declares (.enumeration declared) (.enumeration other)
  | typeAlias {declared other : Alias}
      (hparameters : other.parameters.isEmpty = declared.parameters.isEmpty)
      (htags : like.tags declared.tags other.tags)
      (htype : declared.parameters.isEmpty → like.At .empty .empty declared.type other.type) :
      Declares (.typeAlias declared) (.typeAlias other)
  | interface {declared other : Interface} (hname : other.name = declared.name)
      (hparameters : other.parameters.isEmpty = declared.parameters.isEmpty)
      (hbody : declared.parameters.isEmpty → like.Interfaces .empty .empty declared other)
      (hreserved : program.settings.isMaybeName declared.name = .ok true →
        like.Reserved .empty .empty declared other) :
      Declares (.interface declared) (.interface other)

/-- Declarations that are compiled in the same way have related plans. -/
theorem declaration_plan {other : Declaration} (h : like.Declares decl other) :
    like.compares like.Plans (program.declarationPlan decl)
      ((program.under version).declarationPlan other) := by
  unfold Program.declarationPlan
  cases h with
  | enumeration hn =>
    dsimp only
    rw [hn]
    exact like.compares_pure (like.plans_leaf (like.compares_refl _))
  | typeAlias hparams htags ht =>
    dsimp only
    rw [hparams, like.tags_eq htags]
    split
    · rename_i hempty
      exact like.compares_pure (like.plans_through (like.jobs_of (ht hempty) _))
    · exact like.compares_fail _
  | @interface d other hn hparams hbody hreserved =>
    have huses : like.compares (like.Uses d.name other.name .empty .empty)
        (program.interfaceUse d) ((program.under version).interfaceUse other) := by
      unfold Program.interfaceUse
      refine like.compares_bind (like.compares_lift (like.reserved_together hn))
        fun special otherSpecial _ _ hrel => ?_
      cases hrel with
      | none =>
        dsimp only
        rw [hparams]
        split
        · rename_i hempty
          exact like.compares_pure fun ctx => like.interface_plan (hbody hempty) ctx
        · exact like.compares_fail _
      | some hsame =>
        obtain ⟨rfl, rfl, hmaybe⟩ := hsame
        exact like.reserved_use hn (hreserved hmaybe)
    exact like.compares_bind huses fun use otherUse _ _ hplans => hplans {}

/-- Declarations give schemas that are compared if the jobs of their plans do. -/
theorem declaration_schema {decl other : Declaration} (h : like.Declares decl other)
    (hjobs : ∀ {job otherJob}, like.Jobs job otherJob →
      like.compares Eq (program.compile job) ((program.under version).compile otherJob)) :
    like.compares Eq (program.declarationSchema decl)
      ((program.under version).declarationSchema other) := by
  rw [Program.declaration_schema_eq, Program.declaration_schema_eq]
  refine like.compares_bind (like.declaration_plan h) fun plan otherPlan _ _ hplans => ?_
  exact like.run_of_plans (hplans.jobs.imp fun _ _ => hjobs) hplans.assemble

end Declarations

end Likeness

end Schemata
