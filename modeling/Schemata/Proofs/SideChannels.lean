import Schemata.Generation
import Schemata.Proofs.Exactness

/-!
# Exactness of the side channels

Beside a schema, a compilation tells the names of the schemas it uses and whether the helper is
used. `compile_exact` says that the trace of a job tells exactly what its schema bears, because the
plan of every job is exact. `side_channels_exact` says so of the names and the flag that come with
a compiled declaration.
-/

namespace Schemata

open List
open Traced (bind_ok_iff bind_trace_of_ok)

variable {α : Type}

namespace Program

variable {p : Program} {ctx : Context} {env : Environment}

section Use

/-- What a name is compiled as bears the helper when it may be absent. -/
def NameBears : NameUse TypeExpr → Mark → Prop
  | .maybe _, mark => mark = .helper
  | _, _ => False

/-- What a reference is compiled as bears by itself. -/
def UseBears : Use → Mark → Prop
  | .name use, mark => NameBears use mark
  | _, _ => False

theorem name_use_exact (name : Name) (args : List TypeExpr) :
    Exact NameBears (fun _ => False) (p.nameUse id name env args) := by
  intro use huse mark
  have hnamed := named_use_of_result huse
  generalize (p.nameUse id name env args).trace = events at hnamed ⊢
  cases hnamed <;> simp [NameBears, marks, Event.mark?]

theorem reserved_use_exact (d : Interface) :
    Exact UseBears (fun _ => False) (p.reservedUse d env) := by
  unfold reservedUse
  split
  · refine exact_quiet_bind (quiet_lift _) fun off _ => ?_
    refine exact_quiet_bind (quiet_lift _) fun key _ => ?_
    exact exact_pure fun mark => Iff.rfl
  · exact exact_fail

theorem quiet_check_depth (name : Name) : Quiet (p.checkDepth name env) := by
  unfold checkDepth
  split
  · exact quiet_fail _
  · exact quiet_pure _

theorem quiet_instantiation (params : List GenericParameter) (name : Name)
    (args : List TypeExpr) : Quiet (instantiation params name args env) := by
  refine quiet_bind (quiet_lift _) fun _ _ => ?_
  refine quiet_bind (quiet_lift _) fun _ _ => ?_
  exact quiet_bind (quiet_note _) fun _ _ => quiet_pure _

theorem generic_use_exact (decl : Declaration) :
    Exact UseBears (fun _ => False) (p.genericUse env decl) := by
  cases decl with
  | enumeration => exact exact_fail
  | typeAlias => exact exact_pure fun mark => Iff.rfl
  | interface =>
    refine exact_quiet_bind (quiet_lift _) fun reserved _ => ?_
    cases reserved with
    | none => exact exact_pure fun mark => Iff.rfl
    | some special => exact reserved_use_exact special

/-- Finding out what a reference is compiled as tells of the helper, where the name calls for it. -/
theorem use_exact (name : Name) (args : List TypeExpr) :
    Exact UseBears (fun _ => False) (p.use env name args) := by
  unfold Program.use
  refine exact_quiet_bind (quiet_lift _) fun key _ => ?_
  split
  · exact exact_pure fun mark => Iff.rfl
  · refine exact_quiet_bind (quiet_lift _) fun found _ => ?_
    split
    · refine exact_quiet_bind (quiet_check_depth _) fun _ _ => ?_
      refine exact_quiet_bind (quiet_instantiation _ _ _) fun inner _ => ?_
      exact generic_use_exact _
    · refine exact_quiet_bind (quiet_lift _) fun reserved _ => ?_
      cases reserved with
      | some d =>
        refine exact_quiet_bind (quiet_check_depth _) fun _ _ => ?_
        exact reserved_use_exact d
      | none =>
        refine exact_new_bind (name_use_exact name args) fun use _ => ?_
        exact exact_pure fun mark => by simp [UseBears]

theorem interface_use_exact (d : Interface) :
    Exact UseBears (fun _ => False) (p.interfaceUse d) := by
  refine exact_quiet_bind (quiet_lift _) fun reserved _ => ?_
  cases reserved with
  | some special => exact reserved_use_exact special
  | none =>
    dsimp only
    split
    · exact exact_pure fun mark => Iff.rfl
    · exact exact_fail

end Use

/-- The schema that a plan assembles bears what was given to the planning, what the schemas of its
jobs bear, and what the traces of planning and of assembling tell. -/
def PlanExact (given : Mark → Prop) (planned : Compilation Plan) : Prop :=
  ∀ plan, planned.result = .ok plan → ∀ schemas : List Schema, schemas.length = plan.jobs.length →
    Exact Schema.Bears
      (fun mark => (given mark ∨ mark ∈ marks planned.trace) ∨ AnyBears schemas mark)
      (plan.assemble schemas)

section Plans

variable {given : Mark → Prop} {jobs : List Job} {compile : Job → Compilation Schema}
  {ss : List Schema} {mark : Mark}

theorem plan_exact_pure {plan : Plan}
    (h : ∀ ss : List Schema, ss.length = plan.jobs.length →
      Exact Schema.Bears (fun mark => given mark ∨ AnyBears ss mark) (plan.assemble ss)) :
    PlanExact given (pure plan) := by
  intro other hother ss hlen
  cases hother
  exact (h ss hlen).congr fun mark => by simp [marks]

theorem plan_exact_bind {bears : α → Mark → Prop} {a : Compilation α}
    {next : α → Compilation Plan} (ha : Exact bears (fun _ => False) a)
    (hnext : ∀ v, PlanExact (fun mark => given mark ∨ bears v mark) (next v)) :
    PlanExact given (a >>= next) := by
  intro plan hplan ss hlen
  obtain ⟨v, hv, hplan⟩ := bind_ok_iff.1 hplan
  refine (hnext v plan hplan ss hlen).congr fun mark => ?_
  rw [bind_trace_of_ok hv, marks_append, mem_append]
  simp only [ha v hv mark, false_or, or_assoc]

theorem plan_exact_quiet_bind {a : Compilation α} {next : α → Compilation Plan} (ha : Quiet a)
    (hnext : ∀ v, PlanExact given (next v)) : PlanExact given (a >>= next) := by
  intro plan hplan ss hlen
  obtain ⟨v, hv, hplan⟩ := bind_ok_iff.1 hplan
  refine (hnext v plan hplan ss hlen).congr fun mark => ?_
  rw [bind_trace_of_ok hv, marks_append, ha, nil_append]

theorem plan_exact_fail {failure : Failure} : PlanExact given (Traced.fail failure) :=
  fun _ h => nomatch h

theorem plan_exact_leaf {s : Compilation Schema} (h : Exact Schema.Bears given s) :
    PlanExact given (pure (.leaf s)) := by
  refine plan_exact_pure fun ss hlen => ?_
  cases length_eq_zero_iff.1 hlen
  exact h.congr fun mark => by simp

theorem plan_exact_through (job : Job) : PlanExact (fun _ => False) (pure (.through job)) := by
  refine plan_exact_pure fun ss hlen => ?_
  obtain ⟨s, rfl⟩ := length_eq_one_iff.1 hlen
  exact exact_pure fun mark => by simp

/-- Jobs that are done exactly are done exactly one after the other. -/
theorem mapM_exact (h : ∀ job ∈ jobs, Exact Schema.Bears (fun _ => False) (compile job)) :
    Exact AnyBears (fun _ => False) (jobs.mapM compile) := by
  induction jobs with
  | nil => exact exact_pure fun mark => by simp
  | cons job rest ih =>
    rw [mapM_cons]
    refine exact_new_bind (h job mem_cons_self) fun s _ => ?_
    refine exact_new_bind (ih (forall_mem_cons.1 h).2) fun ss _ => ?_
    exact exact_pure fun mark => by simp

/-- Every job gives a schema. -/
theorem length_of_mapM (h : (jobs.mapM compile).result = .ok ss) : ss.length = jobs.length := by
  induction jobs generalizing ss with
  | nil =>
    cases h
    rfl
  | cons job rest ih =>
    rw [mapM_cons] at h
    obtain ⟨a, -, h⟩ := bind_ok_iff.1 h
    obtain ⟨others, hothers, h⟩ := bind_ok_iff.1 h
    cases h
    rw [length_cons, length_cons, ih hothers]

/-- A plan whose jobs are done exactly is followed exactly. -/
theorem run_exact {planned : Compilation Plan} {compile : Job → Compilation Schema}
    (hplan : PlanExact (fun _ => False) planned)
    (hjobs : ∀ plan, planned.result = .ok plan →
      ∀ job ∈ plan.jobs, Exact Schema.Bears (fun _ => False) (compile job)) :
    Exact Schema.Bears (fun _ => False) (do (← planned).run compile) := by
  intro s hs mark
  obtain ⟨plan, hres, hrun⟩ := bind_ok_iff.1 hs
  obtain ⟨ss, hschemas, hassembled⟩ := bind_ok_iff.1 hrun
  rw [hplan plan hres ss (length_of_mapM hschemas) s hassembled mark,
    bind_trace_of_ok hres, Plan.run, bind_trace_of_ok hschemas]
  simp only [mapM_exact (hjobs plan hres) ss hschemas mark, false_or, marks_append,
    mem_append, or_assoc]

/-- An object bears what its properties and the values of its index signature bear. -/
theorem bears_object_schema {es : List (String × Schema)} {v : Option Schema} :
    (objectSchema es v).Bears mark ↔ AnyBears (es.map (·.2)) mark ∨ OptionBears v mark := by
  cases v with
  | none => simp [objectSchema, OptionBears]
  | some =>
    cases es with
    | nil => simp [objectSchema, OptionBears]
    | cons => simp [objectSchema, OptionBears, or_comm]

/-- The schemas of an object are those of its properties, and after them the one of its index
signature. -/
theorem any_bears_zip {names : List String} {index : Option α}
    (h : ss.length = names.length + index.toList.length) :
    AnyBears ((names.zip ss).map (·.2)) mark ∨ OptionBears ss[names.length]? mark ↔
      AnyBears ss mark := by
  have hlen : index.toList.length ≤ 1 := by
    cases index <;> simp
  induction names generalizing ss with
  | nil =>
    rcases ss with _ | ⟨a, _ | ⟨b, rest⟩⟩
    · simp [OptionBears]
    · simp [OptionBears]
    · simp only [length_cons, length_nil] at h
      omega
  | cons name rest ih =>
    cases ss with
    | nil =>
      simp only [length_cons, length_nil] at h
      omega
    | cons a others =>
      have hothers := @ih others (by simp only [length_cons] at h; omega)
      simp only [zip_cons_cons, map_cons, any_bears_cons, length_cons,
        getElem?_cons_succ, ← hothers, or_assoc]

theorem object_plan_exact {off : Option Context} {ms : List (Member TypeExpr)}
    {index : Option (IndexSignature TypeExpr)} {finish : Schema → Compilation Schema}
    (hfinish : ∀ s, Exact Schema.Bears s.Bears (finish s)) :
    PlanExact (fun _ => False) (pure (p.objectPlan off env ms index finish)) := by
  refine plan_exact_pure fun ss hlen => ?_
  have hnames : ss.length = ((p.memberJobs off env ms).map (·.1)).length +
      (index.map (indexJob env)).toList.length := by
    simpa [objectPlan] using hlen
  refine (hfinish _).congr fun mark => ?_
  rw [bears_object_schema, false_or, ← any_bears_zip hnames, length_map]

theorem interface_plan_exact (off : Option Context) (d : Interface) :
    PlanExact (fun _ => False) (p.interfacePlan off env d ctx) := by
  unfold interfacePlan
  have hstrict {mark : Mark} : ¬ModifiersBear
      (if (p.tags d.tags).strict then [⟨"strict", [], false⟩] else []) mark := by
    split <;> simp
  have hfinish (s : Schema) : Exact Schema.Bears s.Bears
      (p.finish ctx (s.withModifiers
        (if (p.tags d.tags).strict then [⟨"strict", [], false⟩] else []))) :=
    (finish_exact _).congr fun mark => by
      rw [Schema.bears_with_modifiers, or_iff_left hstrict]
  cases d.heritage with
  | nil => exact object_plan_exact hfinish
  | cons c rest =>
    dsimp only
    split
    · exact plan_exact_fail
    · refine plan_exact_pure fun ss hlen => ?_
      have hnames : ss.length ≤ ((p.memberJobs off env d.members).map (·.1)).length := by
        simpa using Nat.le_of_eq hlen
      have hchain : Exact OptionBears (AnyBears ss)
          (p.extensionChain (c :: rest) (some (.object
            (((p.memberJobs off env d.members).map (·.1)).zip ss)))) :=
        (extension_chain_exact _ _).congr fun mark => by rw [map_snd_zip hnames]
      refine exact_bind hchain fun chain _ => ?_
      cases chain with
      | none => exact exact_fail
      | some chain => exact (hfinish chain).congr fun mark => by simp [OptionBears]

theorem name_plan_exact (name : Name) (use : NameUse TypeExpr) :
    PlanExact (NameBears use) (pure (p.namePlan env ctx name use)) := by
  cases use with
  | date => exact plan_exact_leaf ((finish_exact _).congr fun mark => by simp [NameBears])
  | schema =>
    refine plan_exact_leaf (exact_new_bind (reference_exact name) fun s _ => ?_)
    exact (finish_exact s).congr fun mark => by simp [NameBears]
  | maybe =>
    refine plan_exact_pure fun ss _ => exact_pure fun mark => ?_
    rw [Schema.bears_with_modifiers, or_iff_left Refinement.not_bears_flagged]
    simp [NameBears]
  | array | record | call =>
    exact plan_exact_pure fun ss _ => (finish_exact _).congr fun mark => by simp [NameBears]
  | adjusted => exact plan_exact_through _
  | projected =>
    refine plan_exact_pure fun ss hlen => ?_
    obtain ⟨s, rfl⟩ := length_eq_one_iff.1 hlen
    refine (exact_then (project_exact s _ _ _) fun projected _ =>
      finish_exact projected).congr fun mark => ?_
    simp [NameBears]

theorem use_plan_exact (name : Name) (use : Use) :
    PlanExact (UseBears use) (p.usePlan env ctx name use) := by
  cases use with
  | type => exact plan_exact_through _
  | interface d inner off => exact interface_plan_exact off d
  | name use => exact name_plan_exact name use

/-- The plan of a type is exact. -/
theorem type_plan_exact (t : TypeExpr) : PlanExact (fun _ => False) (p.typePlan env ctx t) := by
  have hplain {s : Schema} (h : ∀ mark, ¬s.Bears mark) :
      PlanExact (fun _ => False) (pure (.leaf (p.finish ctx s))) :=
    plan_exact_leaf (finish_leaf_exact h)
  cases t with
  | reference name args =>
    refine plan_exact_bind (use_exact name args) fun use => ?_
    simpa only [false_or] using use_plan_exact name use
  | object => exact object_plan_exact finish_exact
  | union arms =>
    unfold typePlan
    dsimp only
    generalize arms.filter (fun arm => !arm.isNull) = kept
    rcases kept with _ | ⟨a, _ | ⟨b, rest⟩⟩
    · exact plan_exact_leaf (finish_leaf_exact fun mark => by simp)
    · exact plan_exact_through _
    · exact plan_exact_pure fun ss _ => (union_exact _ ss).congr fun mark => by simp
  | intersection arms =>
    cases arms with
    | nil => exact plan_exact_leaf (unsupported_exact _)
    | cons =>
      refine plan_exact_pure fun ss hlen => (finish_exact _).congr fun mark => ?_
      cases ss with
      | nil => cases hlen
      | cons s others =>
        have hothers : ModifiersBear (others.map fun other => ⟨"and", [other], false⟩) mark ↔
            AnyBears others mark := by
          simp [ModifiersBear, flatMap_map]
        simp [hothers]
  | tuple =>
    refine plan_exact_bind modifiers_exact fun mods => ?_
    refine plan_exact_quiet_bind (quiet_lift _) fun found => ?_
    cases found with
    | none =>
      refine plan_exact_pure fun ss _ => exact_pure fun mark => ?_
      simp [or_comm]
    | some =>
      refine plan_exact_pure fun ss hlen => exact_pure fun mark => ?_
      cases ss with
      | nil => cases hlen
      | cons => simp [or_comm, or_left_comm]
  | literal v => cases v <;> exact hplain fun mark => by simp
  | enumMember => exact hplain fun mark => by simp
  | array =>
    exact plan_exact_pure fun ss _ => (finish_exact _).congr fun mark => by simp
  | function =>
    refine plan_exact_pure fun ss _ => (finish_exact _).congr fun mark => ?_
    rcases eq_nil_or_concat ss with rfl | ⟨front, last, rfl⟩
    · simp
    · simp
  | indexed =>
    refine plan_exact_leaf (exact_new_bind (access_chain_exact _ _) fun found _ => ?_)
    cases found with
    | none => exact (finish_exact _).congr fun mark => by simp [OptionBears]
    | some s => exact (finish_exact s).congr fun mark => by simp [OptionBears]
  | template head spans =>
    refine plan_exact_leaf (exact_quiet_bind (quietly.expand head spans) fun found _ => ?_)
    cases found with
    | none => exact finish_leaf_exact fun mark => by simp
    | some =>
      refine exact_new_bind modifiers_exact fun mods _ => ?_
      exact exact_pure fun mark => by simp [bears_values]
  | keyword keyword => exact plan_exact_leaf (keyword_exact keyword)
  | paren => exact plan_exact_through _
  | spread | named | unsupported => exact plan_exact_leaf (unsupported_exact _)

/-- The plan of a job is exact. -/
theorem plan_exact (job : Job) : PlanExact (fun _ => False) (p.plan job) := by
  unfold Program.plan
  split
  · exact type_plan_exact job.type
  · split
    · -- Source text that is added to a schema bears nothing.
      intro plan hplan ss hlen
      obtain ⟨inner, hi, hplan⟩ := bind_ok_iff.1 hplan
      cases hplan
      rw [bind_trace_of_ok hi, Traced.pure_eq, append_nil]
      refine exact_then (type_plan_exact job.type inner hi ss hlen) fun s _ => ?_
      exact exact_pure fun mark => by simp
    · exact plan_exact_leaf (exact_pure fun mark => by simp)

/-- The trace of a job tells exactly what its schema bears. -/
theorem compile_exact (job : Job) : Exact Schema.Bears (fun _ => False) (p.compile job) := by
  induction job using job_induction with
  | h job ih =>
    rw [compile_eq_run]
    exact run_exact (plan_exact job) fun plan hplan next hnext => ih next ⟨plan, hplan, hnext⟩

theorem declaration_plan_exact (decl : Declaration) :
    PlanExact (fun _ => False) (p.declarationPlan decl) := by
  cases decl with
  | enumeration => exact plan_exact_leaf (exact_pure fun mark => by simp)
  | typeAlias =>
    rw [declarationPlan]
    split
    · exact plan_exact_through _
    · exact plan_exact_fail
  | interface d =>
    refine plan_exact_bind (interface_use_exact d) fun use => ?_
    simpa only [false_or] using use_plan_exact d.name use

theorem declaration_exact (decl : Declaration) :
    Exact Schema.Bears (fun _ => False) (p.declarationSchema decl) := by
  rw [declaration_schema_eq]
  exact run_exact (declaration_plan_exact decl) fun _ _ job _ => compile_exact job

/-- The trace of a type tells exactly what its schema bears. -/
theorem schema_of_exact (t : Option TypeExpr) (tags : Tags) :
    Exact Schema.Bears (fun _ => False) (p.schemaOf t env tags) := by
  cases t with
  | some =>
    rw [schema_of_some]
    exact compile_exact _
  | none =>
    unfold schemaOf inContext
    dsimp only
    split
    · exact unsupported_exact none
    · split
      · refine exact_new_bind (unsupported_exact none) fun s _ => ?_
        exact exact_pure fun mark => by simp
      · exact exact_pure fun mark => by simp

end Plans

end Program

/-- How values are freed of those whose keys were seen before. -/
inductive Freed : List Key → List Json → List Json → Prop where
  | nil {seen} : Freed seen [] []
  | again {seen key} {value : Json} {rest found} (hkey : value.key? = some key) (hseen : key ∈ seen)
      (hrest : Freed seen rest found) : Freed seen (value :: rest) found
  | new {seen key} {value : Json} {rest found} (hkey : value.key? = some key) (hseen : key ∉ seen)
      (hrest : Freed (key :: seen) rest found) : Freed seen (value :: rest) (value :: found)

/-- Values without repetitions are freed of those that were seen before. -/
theorem freed_of_distinct {seen : List Key} {values found : List Json}
    (h : Json.distinctFrom seen values = .ok found) : Freed seen values found := by
  induction values generalizing seen found with
  | nil =>
    cases h
    exact .nil
  | cons v rest ih =>
    obtain ⟨key, hk, h⟩ := bind_eq_ok_iff.1 h
    split at h
    · rename_i hseen
      exact .again (Program.key?_of_key hk) hseen (ih h)
    · rename_i hseen
      obtain ⟨others, hothers, h⟩ := bind_eq_ok_iff.1 h
      cases h
      exact .new (Program.key?_of_key hk) hseen (ih hothers)

namespace Freed

variable {seen : List Key} {values found : List Json}

/-- What is kept is one of the values. -/
theorem mem (h : Freed seen values found) : ∀ v ∈ found, v ∈ values := by
  induction h with
  | nil => simp
  | again hk hseen hr ih => exact fun v hv => mem_cons_of_mem _ (ih v hv)
  | new hk hseen hr ih =>
    intro v hv
    rcases mem_cons.1 hv with rfl | hv
    · exact mem_cons_self
    · exact mem_cons_of_mem _ (ih v hv)

/-- What is kept was not seen before. -/
theorem not_seen (h : Freed seen values found) : ∀ v ∈ found, ∀ key ∈ seen, v.key? ≠ some key := by
  induction h with
  | nil => simp
  | again hk hseen hr ih => exact ih
  | new hk hseen hr ih =>
    intro v hv other hother hsame
    rcases mem_cons.1 hv with rfl | hv
    · rw [hk] at hsame
      exact hseen (Option.some.inj hsame ▸ hother)
    · exact ih v hv other (mem_cons_of_mem _ hother) hsame

/-- No key is kept twice. -/
theorem nodup (h : Freed seen values found) : (found.map Json.key?).Nodup := by
  induction h with
  | nil => exact nodup_nil
  | again hk hseen hr ih => exact ih
  | new hk hseen hr ih =>
    rw [map_cons, nodup_cons]
    refine ⟨fun hmem => ?_, ih⟩
    obtain ⟨other, hother, hsame⟩ := mem_map.1 hmem
    exact hr.not_seen other hother _ mem_cons_self (hsame.trans hk)

/-- The key of every value was seen before or is kept. -/
theorem covers (h : Freed seen values found) : ∀ v ∈ values,
    (∃ key ∈ seen, v.key? = some key) ∨ ∃ other ∈ found, other.key? = v.key? := by
  induction h with
  | nil => simp
  | again hk hseen hr ih =>
    intro v hv
    rcases mem_cons.1 hv with rfl | hv
    · exact .inl ⟨_, hseen, hk⟩
    · exact ih v hv
  | new hk hseen hr ih =>
    intro v hv
    rcases mem_cons.1 hv with rfl | hv
    · exact .inr ⟨_, mem_cons_self, rfl⟩
    · rcases ih v hv with ⟨other, hother, hsame⟩ | ⟨other, hother, hsame⟩
      · rcases mem_cons.1 hother with rfl | hother
        · exact .inr ⟨_, mem_cons_self, hk.trans hsame.symm⟩
        · exact .inl ⟨other, hother, hsame⟩
      · exact .inr ⟨other, mem_cons_of_mem _ hother, hsame⟩

end Freed

/-- The names and the flag that come with a schema are exact: no two names have the same key, every
name is one under which the schema refers to another one, all of these are there, and the flag tells
whether the helper is called. -/
structure SideChannels (schema : Schema) (dependencies : List Name) (helper : Bool) : Prop where
  distinct : (dependencies.map Json.key?).Nodup
  occurs : ∀ name ∈ dependencies, Schema.Occurs (.reference name) schema
  listed : ∀ name, Schema.Occurs (.reference name) schema →
    ∃ other ∈ dependencies, other.key? = name.key?
  helper : helper = true ↔ ∃ name arguments, Schema.Occurs (.helper name arguments) schema

namespace Program

variable {p : Program} {events : List Event} {decl : Declaration} {compiled : Compiled}

/-- The names that are used are the references of a trace. -/
theorem mem_used_names_iff_mark {name : Name} :
    name ∈ usedNames events ↔ .reference name ∈ marks events := by
  simp only [usedNames, marks, mem_filterMap]
  refine exists_congr fun event => and_congr_right fun _ => ?_
  cases event <;> simp [Event.mark?]

/-- The helper is used when a trace has the mark of it. -/
theorem uses_helper_iff_mark : usesHelper events = true ↔ .helper ∈ marks events := by
  simp only [usesHelper, marks, any_eq_true, mem_filterMap]
  refine exists_congr fun event => and_congr_right fun _ => ?_
  cases event <;> simp [Event.mark?]

/-- What an exact compilation tells is exact. -/
theorem side_channels_of_exact {comp : Compilation Schema} {s : Schema} {dependencies : List Name}
    (h : Exact Schema.Bears (fun _ => False) comp) (hs : comp.result = .ok s)
    (hdependencies : Json.distinct (usedNames comp.trace) = .ok dependencies) :
    SideChannels s dependencies (usesHelper comp.trace) := by
  have hbears (mark : Mark) : s.Bears mark ↔ mark ∈ marks comp.trace := by
    rw [h s hs mark, false_or]
  have hfreed := freed_of_distinct hdependencies
  refine ⟨hfreed.nodup, fun name hn => ?_, fun name hn => ?_, ?_⟩
  · exact (hbears (.reference name)).2 (mem_used_names_iff_mark.1 (hfreed.mem name hn))
  · have hused := mem_used_names_iff_mark.2 ((hbears (.reference name)).1 hn)
    rcases hfreed.covers name hused with ⟨key, hk, -⟩ | hlisted
    · cases hk
    · exact hlisted
  · exact uses_helper_iff_mark.trans (hbears .helper).symm

/-- What comes with a compiled declaration, in terms of the schema and its trace. -/
theorem compiled_of_result (h : (p.compileDeclaration decl).result = .ok compiled) :
    (p.declarationSchema decl).result = .ok compiled.schema ∧
      p.settings.nameOf decl.name = .ok compiled.schemaName ∧
      Json.distinct (usedNames (p.declarationSchema decl).trace) = .ok compiled.dependencies ∧
      compiled.warnings = warnings (p.declarationSchema decl).trace ∧
      compiled.usesHelper = usesHelper (p.declarationSchema decl).trace := by
  unfold compileDeclaration at h
  dsimp only at h
  cases hs : (p.declarationSchema decl).result with
  | error =>
    rw [hs] at h
    cases h
  | ok =>
    cases hn : p.settings.nameOf decl.name with
    | error =>
      rw [hs, hn] at h
      cases h
    | ok =>
      cases hnames : Json.distinct (usedNames (p.declarationSchema decl).trace) with
      | error reason =>
        rw [hs, hn, hnames] at h
        cases h
      | ok names =>
        rw [hs, hn, hnames] at h
        cases h
        exact ⟨rfl, rfl, rfl, rfl, rfl⟩

theorem side_channels_of_declaration (h : (p.compileDeclaration decl).result = .ok compiled) :
    SideChannels compiled.schema compiled.dependencies compiled.usesHelper := by
  obtain ⟨hs, -, hdependencies, -, hhelper⟩ := compiled_of_result h
  rw [hhelper]
  exact side_channels_of_exact (declaration_exact decl) hs hdependencies

/-- The side channels of compilation are exact, for every declaration and for every type in every
environment and with every tags. -/
theorem side_channels_exact (program : Program) :
    (∀ declaration compiled, (program.compileDeclaration declaration).result = .ok compiled →
      SideChannels compiled.schema compiled.dependencies compiled.usesHelper) ∧
    ∀ type environment tags schema dependencies,
      (program.schemaOf type environment tags).result = .ok schema →
      Json.distinct (usedNames (program.schemaOf type environment tags).trace) =
        .ok dependencies →
      SideChannels schema dependencies
        (usesHelper (program.schemaOf type environment tags).trace) := by
  refine ⟨fun declaration compiled => side_channels_of_declaration, ?_⟩
  intro type environment tags schema dependencies
  exact side_channels_of_exact (schema_of_exact type tags)

/-- The alias `type Owner = Maybe<Dog>`. -/
def owner : Declaration := .typeAlias
  { name := .str "Owner"
    tags := []
    exported := true
    parameters := []
    type := .reference (.str "Maybe") [.reference (.str "Dog") []] }

/-- A program in which a `Maybe` can be absent and schemas have the names of their types. -/
def owners : Program where
  unit := ⟨.null, [owner], []⟩
  settings :=
    { Settings.default with
      maybe := some ⟨[.str "Maybe"], .bool true, .bool true⟩
      schemaName := some id }

/-- The schema of the owner tells that it refers to the dog and calls the helper. -/
theorem owner_side_channels :
    ∃ compiled, (owners.compileDeclaration owner).result = .ok compiled ∧
      compiled.dependencies = [.str "Dog"] ∧ compiled.usesHelper = true ∧
      SideChannels compiled.schema compiled.dependencies compiled.usesHelper := by
  refine ⟨_, rfl, rfl, rfl, ?_⟩
  exact (side_channels_exact owners).1 owner _ rfl

end Program

end Schemata
