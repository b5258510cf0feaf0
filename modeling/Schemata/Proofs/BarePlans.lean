import Schemata.Proofs.BareLookup
import Schemata.Proofs.Instantiation
import Schemata.Proofs.Totality

/-!
# Plans but for parentheses

`Program.concealed` tells which of the types are concealed that a job follows before it takes their
parentheses off: the types of spans, the arms of a union that a field tells apart, what a tuple
spreads, and the argument that switches a reserved interface. Jobs whose types are the same but for
parentheses have plans that coincide where the same types are concealed, `plan_accords`.
-/

namespace Schemata

open List

/-- The job for the type inside of parentheses. -/
def Job.unwrap (job : Job) : Job :=
  { job with type := job.type.unwrap }

/-- Jobs for types that are the same but for parentheses, in the same context. -/
structure JobsCoincide (job other : Job) : Prop where
  types : Coincide (job.type, job.environment) (other.type, other.environment)
  context : other.context = job.context

namespace Program

variable {excused : Prop} {p : Program} {unit : SourceUnit} {first second : Environment}
  {d : Interface}

/-- The bodies of interfaces of the same bare form. -/
theorem interfaces_coincide {other : Interface} (h : second.bare = first.bare)
    (hd : other.bare = d.bare)
    (htyped : ¬excused → (Declaration.interface d).WellTyped ∧ first.WellTyped) :
    (coinciding excused p unit).Interfaces first second d other := by
  have hher : other.heritage.map Heritage.bare = d.heritage.map Heritage.bare :=
    (congrArg Interface.heritage hd :)
  have hform : TypeExpr.SameForm (.object d.members d.index) (.object other.members other.index) :=
    .object (congrArg Interface.members hd :) (congrArg Interface.index hd :)
  have hobj : CoincideTyped excused (.object d.members d.index, first)
      (.object other.members other.index, second) := by
    refine ⟨⟨?_, h⟩, fun hexc => ⟨.intro trivial ?_, (htyped hexc).2⟩⟩
    · dsimp only [TypeExpr.bare]
      rw [TypeExpr.bare_members_eq, TypeExpr.bare_members_eq, TypeExpr.bare_index_eq,
        TypeExpr.bare_index_eq]
      exact congrArg₂ TypeExpr.object (congrArg Interface.members hd :)
        (congrArg Interface.index hd :)
    · exact (htyped hexc).1.body
  have hkind := (hobj.leads hform).kind
  dsimp only at hkind
  cases hkind with
  | object hms hidx =>
    exact ⟨(congrArg Interface.tags hd.symm :), hms, hidx, is_empty_of_map_eq hher,
      extension_chain_alike rfl (heritage_alike hher),
      (coinciding excused p unit).any hobj⟩

section Names

variable {name : Name}

/-- The keys of records are compared with their parentheses on. -/
theorem any_key_concurs {key other : TypeExpr} (h : Coincide (key, first) (other, second))
    (hwrapped : other.isWrapped = key.isWrapped) :
    Concurs Eq Eq (anyKey first key) (anyKey second other) := by
  unfold anyKey Environment.substitute
  cases hk : key.isWrapped with
  | true =>
    rw [hk] at hwrapped
    rw [Environment.resolve_of_wrapped first hk, Environment.resolve_of_wrapped second hwrapped]
    cases key with
    | paren =>
      cases other with
      | paren => exact .ok rfl
      | _ => cases hwrapped
    | _ => cases hk
  | false =>
    rw [hk] at hwrapped
    have hresults := Environment.resolve_unwrap_concurs h
    rw [TypeExpr.unwrap_of_not_wrapped hk, TypeExpr.unwrap_of_not_wrapped hwrapped] at hresults
    refine concurs_bind (concurs_bind hresults fun found reached hf => .ok hf.2)
      fun found reached hform => ?_
    cases hform <;> exact .ok rfl

theorem record_of_builtin (h : Builtin.ofName? name = some .record) :
    name.isText "Record" = true := by
  obtain ⟨text, rfl, hmem⟩ := Builtin.mem_names_of_name h
  simp [Builtin.names] at hmem
  rw [hmem]
  rfl

end Names

/-- Whether the type that switches a reserved interface is concealed. -/
def switchConcealed (parameter : GenericParameter) (environment : Environment) : Bool :=
  match parameter.name.key?.bind environment.binding? with
  | some binding => binding.environment.conceals binding.type
  | none => parameter.default.any environment.conceals

section Entering

variable {name : Name} {param otherParameter : GenericParameter} {inner : Environment}

theorem bind_concurs {t other : TypeExpr} {otherInner : Environment}
    (hi : otherInner.bare = inner.bare) (ht : Coincide (t, first) (other, second)) (name : Name) :
    Concurs Eq (fun bound otherBound => Environment.bare otherBound = Environment.bare bound)
      (inner.bind name t first) (otherInner.bind name other second) := by
  refine concurs_of_map_eq ?_
  rw [← Environment.bind_bare, ← Environment.bind_bare, hi, ht.type, ht.environment]

/-- Parameters are bound in the same way. -/
theorem bind_types_concur {params others : List GenericParameter}
    {args otherArguments : List TypeExpr} {inner otherInner : Environment}
    (h : second.bare = first.bare)
    (hparams : Forall₂ (fun param other =>
      GenericParameter.bare other = GenericParameter.bare param) params others)
    (hargs : Forall₂ TypeExpr.SameBare args otherArguments)
    (hi : otherInner.bare = inner.bare) :
    Concurs Eq (fun bound otherBound => Environment.bare otherBound = Environment.bare bound)
      (bindTypes first params args inner)
      (bindTypes second others otherArguments otherInner) := by
  induction hparams generalizing args otherArguments inner otherInner with
  | nil =>
    rw [bindTypes, bindTypes]
    exact .ok hi
  | @cons param other rest others hparam hr ih =>
    have hn : other.name = param.name := (congrArg GenericParameter.name hparam :)
    cases hargs with
    | cons harg hothers =>
      rw [bindTypes, bindTypes, hn]
      refine concurs_bind (bind_concurs hi ⟨harg, h⟩ param.name)
        fun bound otherBound hbound => ih hothers hbound
    | nil =>
      have hdefault := rel_of_map_eq (congrArg GenericParameter.default hparam)
      obtain ⟨name, limit, default⟩ := param
      obtain ⟨otherName, otherLimit, otherDefault⟩ := other
      dsimp only at hn hdefault
      subst hn
      cases hdefault with
      | none =>
        rw [bindTypes, bindTypes]
        exact ih .nil hi
      | some hbare =>
        rw [bindTypes, bindTypes]
        refine concurs_bind (bind_concurs hi ⟨hbare, hi⟩ otherName)
          fun bound otherBound hbound => ih .nil hbound

/-- The argument of a reserved interface switches it. -/
theorem switch_concealed_of_bound {arg : TypeExpr} {rest : List TypeExpr}
    (h : bindTypes first [param] (arg :: rest) first.enter = .ok inner) :
    switchConcealed param inner = first.conceals arg := by
  rw [bindTypes] at h
  unfold Environment.bind at h
  cases hk : param.name.key with
  | error =>
    rw [hk] at h
    cases h
  | ok key =>
    have hkey? := key?_of_key hk
    rw [hk] at h
    dsimp only [Bind.bind, Except.bind, pure, Except.pure] at h
    rw [bindTypes] at h
    cases h
    simp [switchConcealed, hkey?, Environment.binding?, Environment.bindings, Environment.enter,
      Environment.putBinding]

/-- Where nothing is bound, a reserved interface is switched by a type that is seen. -/
theorem switch_concealed_of_unbound {env : Environment} (h : env.bindings = [])
    (param : GenericParameter) : switchConcealed param env = false := by
  have hunbound : param.name.key?.bind env.binding? = none := by
    unfold Environment.binding?
    rw [h]
    cases param.name.key? <;> rfl
  rw [switchConcealed, hunbound]
  cases param.default with
  | none => rfl
  | some t => exact conceals_of_unbound h t

end Entering

section Uses

variable {name : Name}

/-- Reserved interfaces are used in the same way where the same type switches them. -/
theorem reserved_coincide {d other : Interface} (h : second.bare = first.bare)
    (hd : other.bare = d.bare)
    (hcon : ∀ param otherParameter, d.parameters = [param] →
      other.parameters = [otherParameter] →
        switchConcealed otherParameter second = switchConcealed param first)
    (htyped : ¬excused → (Declaration.interface d).WellTyped ∧ first.WellTyped) :
    (coinciding excused p unit).Reserved first second d other := by
  have hparams :
      other.parameters.map GenericParameter.bare = d.parameters.map GenericParameter.bare :=
    (congrArg Interface.parameters hd :)
  have hpairs := forall₂_of_map_eq hparams
  refine Likeness.reserved_of_parameters _ hpairs
    fun {param otherParameter} hone hother hparam => ?_
  have hn : otherParameter.name = param.name := (congrArg GenericParameter.name hparam :)
  have hsame := hcon param otherParameter hone hother
  unfold switchConcealed at hsame
  rw [hn] at hsame
  refine .switched hone hother hn (Likeness.switch_type _ hn (fun key hk => ?_)
    fun key hk hnone => ?_) fun key hk => ?_
  · rw [key?_of_key hk, Option.bind_some, Option.bind_some] at hsame
    refine rel_imp (Environment.bindings_coincide h key) fun b hb other hother hbound => ?_
    rw [hb, hother] at hsame
    exact CoincideTyped.sees ⟨hbound, fun hexc =>
      (htyped hexc).2.binding (mem_of_find?_eq_some hb)⟩ hsame
  · have hrel := Environment.bindings_coincide h key
    rw [key?_of_key hk, Option.bind_some, Option.bind_some, hnone] at hsame
    rw [Environment.BoundAlike, hnone] at hrel
    generalize second.binding? key = otherBinding at hrel hsame
    cases hrel
    have hdefault := rel_of_map_eq (congrArg GenericParameter.default hparam)
    have hdefaults (hexc : ¬excused) (t : TypeExpr) (ht : t ∈ param.default) : t.WellTyped := by
      refine (htyped hexc).1.defaults t (mem_filterMap.2 ⟨param, ?_, ht⟩)
      rw [Declaration.parameters, hone]
      exact mem_singleton.2 rfl
    dsimp only at hsame
    refine rel_imp hdefault fun t ht other hother hbare => ?_
    rw [ht, hother] at hsame
    exact CoincideTyped.sees ⟨⟨hbare, h⟩, fun hexc => ⟨hdefaults hexc t ht, (htyped hexc).2⟩⟩ hsame
  · refine interfaces_coincide ?_ hd fun hexc =>
      ⟨(htyped hexc).1, (htyped hexc).2.without _⟩
    rw [← Environment.without_bare, ← Environment.without_bare, h]

/-- Whether a name is declared as a reserved interface. -/
def isReserved (program : Program) (name : Name) : Bool :=
  match program.find name with
  | .error _ => false
  | .ok found =>
    match program.reserved? found with
    | .ok (some _) => true
    | _ => false

theorem is_reserved_of_find {found : Option Declaration} (hfind : p.find name = .ok found)
    (hreserved : p.reserved? found = .ok (some d)) : p.isReserved name = true := by
  rw [isReserved, hfind]
  dsimp only
  rw [hreserved]

/-- The same names are declared as reserved interfaces. -/
theorem is_reserved_eq (h : unit.bare = p.unit.bare) (name : Name) :
    (p.withUnit unit).isReserved name = p.isReserved name := by
  have hfind := find_concurs h name
  unfold isReserved
  generalize p.find name = found at hfind
  generalize (p.withUnit unit).find name = otherFound at hfind
  cases hfind with
  | error => rfl
  | ok hrel =>
    cases hrel with
    | none => rfl
    | some hform =>
      cases hform with
      | typeAlias | enumeration => rfl
      | @interface d other hbare =>
        have hn : other.name = d.name := (congrArg Interface.name hbare :)
        have hsettings : (p.withUnit unit).settings = p.settings := rfl
        dsimp only [reserved?]
        rw [hn, hsettings]
        cases p.settings.isMaybeName d.name with
        | error => rfl
        | ok reserved => cases reserved <;> rfl

variable {args others : List TypeExpr}

/-- Declarations of the same bare form are entered in the same way where the same type switches a
reserved interface. -/
theorem entered_of_form {decl other : Declaration} (hform : Declaration.SameForm decl other)
    (hfind : p.find name = .ok (some decl))
    (ht : CoincideTyped excused (.reference name args, first) (.reference name others, second))
    (hargs : others.map TypeExpr.bare = args.map TypeExpr.bare)
    (hcon : p.isReserved name = true →
      others.head?.map second.conceals = args.head?.map first.conceals)
    (htyped : ¬excused → decl.WellTyped) :
    (coinciding excused p unit).Entered name name args others first second decl other := by
  have henv : second.bare = first.bare := ht.coincide.environment
  have hbound : Accords excused (fun inner otherInner =>
        otherInner.bare = inner.bare ∧ (¬excused → inner.WellTyped) ∧
          bindTypes first decl.parameters args first.enter = .ok inner ∧
          bindTypes second other.parameters others second.enter = .ok otherInner)
      (instantiation decl.parameters name args first)
      (instantiation other.parameters name others second) := by
    refine (coinciding excused p unit).compares_mono
      ((coinciding excused p unit).instantiates ht (.inl (bind_types_concur henv
        (forall₂_of_map_eq hform.parameters_eq) (forall₂_of_map_eq hargs)
        (Environment.enter_same_bare henv))) fun _ _ => .inl (corresponds_note _ _))
      fun inner otherInner hi hotherInner hbare => ?_
    refine ⟨hbare, fun hexc => ?_, bind_types_of_instantiation hi,
      bind_types_of_instantiation hotherInner⟩
    exact entered_well_typed (htyped hexc) (ht.typed hexc).2
      (fun _ => (ht.typed hexc).1.part) (entered_of_instantiation hi)
  cases hform with
  | enumeration d => exact .enumeration d d
  | typeAlias hbare =>
    refine .typeAlias (congrArg Alias.name hbare :)
      (is_empty_of_map_eq (congrArg Alias.parameters hbare :)) fun _ => ?_
    refine (coinciding excused p unit).compares_mono hbound
      fun _ _ _ _ ⟨hi, hinnerTyped, _⟩ => ⟨⟨(congrArg Alias.type hbare :), hi⟩, ?_⟩
    exact fun hexc =>
      ⟨(htyped hexc).body _ (mem_singleton.2 rfl), hinnerTyped hexc⟩
  | @interface d other hbare =>
    have hboth {inner : Environment} (hi : ¬excused → inner.WellTyped) (hexc : ¬excused) :=
      And.intro (htyped hexc) (hi hexc)
    refine .interface (congrArg Interface.name hbare :)
      (is_empty_of_map_eq (congrArg Interface.parameters hbare :)) (fun hgiven => ?_)
      fun hmaybe => ?_
    · refine (coinciding excused p unit).compares_mono hbound
        fun _ _ _ _ ⟨hi, hinnerTyped, ha, hsecond⟩ => ?_
      split
      · rename_i hmaybe
        refine reserved_coincide hi hbare (fun param otherParameter hone hother => ?_)
          (hboth hinnerTyped)
        have hsame := hcon (is_reserved_of_find hfind (by rw [reserved?, hmaybe]; rfl))
        dsimp only [Declaration.parameters] at ha hsecond
        rw [hone] at ha
        rw [hother] at hsecond
        cases forall₂_of_map_eq hargs with
        | nil => exact (hgiven rfl).elim
        | cons =>
          rw [switch_concealed_of_bound ha, switch_concealed_of_bound hsecond]
          exact Option.some.inj hsame
      · exact interfaces_coincide hi hbare (hboth hinnerTyped)
    · refine reserved_coincide (Environment.enter_same_bare henv) hbare
        (fun param otherParameter _ _ => ?_)
        (hboth fun _ => Environment.no_bindings_well_typed _)
      rw [switch_concealed_of_unbound rfl, switch_concealed_of_unbound rfl]

/-- A reference is used in the same way where the same type switches a reserved interface. -/
theorem referring_of_coincide (h : unit.bare = p.unit.bare) (hunit : ¬excused → p.unit.WellTyped)
    (ht : CoincideTyped excused (.reference name args, first) (.reference name others, second))
    (hargs : others.map TypeExpr.bare = args.map TypeExpr.bare)
    (hk : name.isText "Record" = true →
      others.head?.map TypeExpr.isWrapped = args.head?.map TypeExpr.isWrapped)
    (hcon : p.isReserved name = true →
      others.head?.map second.conceals = args.head?.map first.conceals) :
    (coinciding excused p unit).Referring name name args others first second := by
  have henv : second.bare = first.bare := ht.coincide.environment
  have hts : Forall₂ (fun arg other => CoincideTyped excused (arg, first) (other, second))
      args others := by
    have hkind := (ht.leads (.reference name hargs hk)).kind
    dsimp only at hkind
    cases hkind with
    | reference _ hts => exact hts
  refine ⟨ht, hts, ?_, fun _ => ?_, fun d => ?_, fun _ hbuiltin => ?_⟩
  · refine (conforms_refl name.key).imp fun key _ _ _ heq => heq ▸ ⟨?_, fun _ => rfl⟩
    exact rel_imp (Environment.bindings_coincide henv key) fun _ hb _ _ hbound =>
      ⟨hbound, fun hexc => (ht.typed hexc).2.binding (mem_of_find?_eq_some hb)⟩
  · exact .inl ((find_concurs h name).found fun hf hform => entered_of_form hform hf ht hargs hcon
      fun hexc => hunit hexc _ (mem_of_find hf))
  · have hdepth : (p.withUnit unit).checkDepth d second = p.checkDepth d first := by
      unfold checkDepth
      rw [Environment.depth_eq_of_bare henv]
      rfl
    exact hdepth ▸ accords_refl _
  · intro key hmem other hother
    have hwrapped := hk (record_of_builtin hbuiltin)
    cases hts with
    | nil => cases hmem
    | cons harg =>
      cases hmem
      cases hother
      exact .inl (any_key_concurs harg.coincide (Option.some.inj hwrapped))

end Uses

/-- Which of the types are concealed that a job follows before it takes their parentheses off. -/
def concealed (program : Program) (job : Job) : List (List Bool) :=
  match job.type.unwrap with
  | .template _ spans => spans.map fun span => spanConcealed job.environment span.type
  | .union arms =>
    if job.context.tags.discriminator?.getD "" = "" then []
    else [(arms.filter (!·.isNull)).map job.environment.conceals]
  | .tuple elements =>
    match elements.getLast? with
    | some (.spread type) => [[job.environment.conceals type]]
    | _ => []
  | .reference name (argument :: _) =>
    if program.isReserved name then [[job.environment.conceals argument]] else []
  | _ => []

section Types

variable {ctx : Context} {t other : TypeExpr}

/-- Types that coincide, outside of parentheses, are looked at alike where the same types are
concealed. -/
theorem looks_of_concealed (h : unit.bare = p.unit.bare) (hunit : ¬excused → p.unit.WellTyped)
    (ht : CoincideTyped excused (t, first) (other, second))
    (hform : TypeExpr.SameForm t other)
    (hcon : (p.withUnit unit).concealed ⟨other, second, ctx⟩ = p.concealed ⟨t, first, ctx⟩) :
    (coinciding excused p unit).Looks first second ctx t other := by
  have hkind := (ht.leads hform).kind
  unfold concealed at hcon
  dsimp only at hkind hcon
  refine ⟨fun heq hother hfield => ?_, fun heq hother hlast hotherLast => ?_,
    fun heq hother => ?_, fun heq hother => ?_, fun heq hother => ?_⟩
  all_goals subst heq hother
  · cases hkind with
    | union harms =>
      simp only [TypeExpr.unwrap, if_neg hfield] at hcon
      exact sees_all (Likeness.kept_arms (coinciding excused p unit).null harms)
        (List.cons.inj hcon).1
  · cases hkind with
    | tuple helts =>
      have hslot := last_related helts
      simp only [TypeExpr.unwrap, hlast, hotherLast] at hcon
      rw [hlast, hotherLast] at hslot
      cases hslot with
      | some hslot =>
        cases hslot with
        | spread _ hi =>
          exact CoincideTyped.sees hi (List.cons.inj (List.cons.inj hcon).1).1
        | plain _ ht => cases ht
  · cases hkind with
    | template head hspans =>
      refine (coinciding excused p unit).expand ht
        ((sees_spans h hunit hspans hcon).imp fun _ _ hspan => ⟨hspan.1, ?_⟩)
      exact (coinciding excused p unit).harvest
        (fun _ _ _ => .inl (enumerator_text_concurs h _ _)) hspan.2
  · exact (bareSearch h).access ht fun _ _ hleads => hleads.related.coincide.type
  · cases hform with
    | reference name hargs hk =>
      refine (coinciding excused p unit).use
        (referring_of_coincide h hunit ht hargs hk fun hreserved => ?_)
      cases forall₂_of_map_eq hargs with
      | nil => rfl
      | cons =>
        simp only [TypeExpr.unwrap, is_reserved_eq h, hreserved, if_true] at hcon
        exact congrArg some (List.cons.inj (List.cons.inj hcon).1).1

/-- The same types are concealed in a context without source text. -/
theorem concealed_without_text (p : Program) (t : TypeExpr) (env : Environment) (ctx : Context) :
    p.concealed ⟨t, env, ctx.withoutText⟩ = p.concealed ⟨t, env, ctx⟩ := by
  have htag : ctx.withoutText.tags.discriminator? = ctx.tags.discriminator? := by
    have hget : ctx.withoutText.tags.get? "discriminator" = ctx.tags.get? "discriminator" := by
      unfold Context.withoutText Tags.without Tags.get?
      rw [find?_filter]
      congr 2
      funext tag
      by_cases hn : tag.1 = "discriminator"
      · simp [hn, Tags.overrideTag]
      · simp [hn]
    rw [Tags.discriminator?, Tags.discriminator?, hget]
  unfold concealed
  rw [htag]

/-- Jobs that coincide, outside of parentheses, have plans that do so where the same types are
concealed. -/
theorem plan_accords (h : unit.bare = p.unit.bare) (hunit : ¬excused → p.unit.WellTyped)
    {job other : Job} (hjobs : (coinciding excused p unit).Jobs job other)
    (hcon : (p.withUnit unit).concealed other = p.concealed job) :
    Accords excused (coinciding excused p unit).Plans (p.plan job.unwrap)
      ((p.withUnit unit).plan other.unwrap) := by
  obtain ⟨t, first, ctx⟩ := job
  obtain ⟨otherType, second, otherContext⟩ := other
  obtain ⟨ht, hctx⟩ := hjobs
  dsimp only at ht hctx
  subst hctx
  have hun (p : Program) (t : TypeExpr) (env : Environment)
      (ctx : Context) : p.concealed ⟨t.unwrap, env, ctx⟩ = p.concealed ⟨t, env, ctx⟩ := by
    simp only [concealed, TypeExpr.unwrap_unwrap]
  have hleads := CoincideTyped.unwrap ht
  refine (coinciding excused p unit).plan_of_types fun ctx hi => ?_
  refine (coinciding excused p unit).type_plan hleads.related hleads.kind
    (looks_of_concealed h hunit hleads.related ht.coincide.form ?_)
  rw [hun, hun]
  rcases hi with rfl | rfl
  · exact hcon
  · exact (concealed_without_text _ _ _ _).trans (hcon.trans (concealed_without_text _ _ _ _).symm)

end Types

end Program

end Schemata
