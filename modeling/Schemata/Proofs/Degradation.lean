import Schemata.Proofs.Everywhere
import Schemata.Proofs.Grammar

/-!
# No silent degradation

Where the compiler cannot give a schema it falls back to the schema of any value. `Schema.anyCount`
counts how often an expression does so. A computation `Accounts` for its schema when there are at
most as many fallbacks in it as in what it is made of and as warnings of the computation. Each rule
of the compiler accounts for what it makes, unless the source itself asks for any value, so
`fallbacks_are_warned` says that a declaration has at most as many fallbacks as warnings.
-/

namespace Schemata

open List
open Traced (bind_ok_iff lift_ok_iff bind_trace_of_ok)

variable {mods : List Modifier} {comp : Compilation Schema} {schema : Schema}
  {schemas : List Schema} {off : Option Context} {arms : List TypeExpr}

namespace Schema

mutual

/-- How often an expression calls for the schema of any value. -/
def anyCount : Schema → Nat
  | .call name arguments => (if name = "any" then 1 else 0) + anyCounts arguments
  | .object entries => anyCountEntries entries
  | .array items => anyCounts items
  | .helper _ arguments => anyCounts arguments
  | .field target _ => anyCountOption target
  | .modified receiver _ arguments _ => receiver.anyCount + anyCounts arguments
  | _ => 0

/-- How often expressions call for the schema of any value. -/
def anyCounts : List Schema → Nat
  | [] => 0
  | schema :: rest => schema.anyCount + anyCounts rest

/-- How often the values of an object literal call for the schema of any value. -/
def anyCountEntries : List (String × Schema) → Nat
  | [] => 0
  | (_, schema) :: rest => schema.anyCount + anyCountEntries rest

/-- How often an expression that may be missing calls for the schema of any value. -/
def anyCountOption : Option Schema → Nat
  | none => 0
  | some schema => schema.anyCount

end

section Counts

theorem any_counts_append (a b : List Schema) : anyCounts (a ++ b) = anyCounts a + anyCounts b := by
  induction a with
  | nil => exact (Nat.zero_add _).symm
  | cons schema rest ih => rw [cons_append, anyCounts, anyCounts, ih, Nat.add_assoc]

theorem any_counts_reverse (ss : List Schema) : anyCounts ss.reverse = anyCounts ss := by
  induction ss with
  | nil => rfl
  | cons schema rest ih =>
    rw [reverse_cons, any_counts_append, ih, anyCounts, anyCounts, anyCounts]
    omega

theorem any_count_entries_eq (es : List (String × Schema)) :
    anyCountEntries es = anyCounts (es.map (·.2)) := by
  induction es with
  | nil => rfl
  | cons e rest ih => rw [anyCountEntries, ih, map_cons, anyCounts]

/-- What an expression adds to the count by itself. -/
def ownAnyCount : Schema → Nat
  | .call name _ => if name = "any" then 1 else 0
  | _ => 0

/-- The count of an expression is its own and that of the expressions in it. -/
theorem any_count_eq (s : Schema) : s.anyCount = s.ownAnyCount + anyCounts s.children := by
  cases s with
  | object =>
    rw [anyCount, any_count_entries_eq]
    exact (Nat.zero_add _).symm
  | field target =>
    cases target with
    | none => rfl
    | some => simp [anyCount, anyCountOption, ownAnyCount, children, anyCounts]
  | _ => simp [anyCount, ownAnyCount, children, anyCounts]

theorem any_count_le_of_mem (h : schema ∈ schemas) : schema.anyCount ≤ anyCounts schemas := by
  induction schemas with
  | nil => cases h
  | cons a rest ih =>
    rw [anyCounts]
    rcases mem_cons.1 h with rfl | h
    · exact Nat.le_add_right _ _
    · exact Nat.le_trans (ih h) (Nat.le_add_left _ _)

theorem any_counts_eq_zero (h : ∀ schema ∈ schemas, schema.anyCount = 0) :
    anyCounts schemas = 0 := by
  induction schemas with
  | nil => rfl
  | cons a rest ih =>
    rw [anyCounts, h a mem_cons_self, ih (forall_mem_cons.1 h).2]

/-- An expression that counts none does not call for the schema of any value. -/
theorem not_makes_of_any_count (h : schema.anyCount = 0) (args : List Schema) :
    ¬schema.Makes "any" args := by
  intro hmakes
  induction hmakes with
  | here => simp [anyCount] at h
  | @inside child schema hchild hmem ih =>
    have hle := any_count_le_of_mem hmem
    rw [any_count_eq] at h
    exact ih (by omega)

/-- An expression that does not call for the schema of any value counts none. -/
theorem any_count_of_not_makes {s : Schema} (h : ∀ args, ¬s.Makes "any" args) : s.anyCount = 0 := by
  have hown : s.ownAnyCount = 0 := by
    cases s with
    | call name args =>
      refine if_neg fun hn => h args ?_
      rw [hn]
      exact .here
    | _ => rfl
  rw [any_count_eq, hown, Nat.zero_add]
  refine any_counts_eq_zero fun child hchild => ?_
  have hlt := size_of_mem_children hchild
  exact any_count_of_not_makes fun args hmakes => h args (.inside hmakes hchild)
termination_by sizeOf s

theorem any_count_modify (s : Schema) (mod : Modifier) :
    (s.modify mod).anyCount = s.anyCount + anyCounts mod.arguments := rfl

/-- Modifiers add what their arguments count. -/
theorem any_count_with_modifiers (s : Schema) (mods : List Modifier) :
    (s.withModifiers mods).anyCount = s.anyCount + anyCounts (mods.flatMap Modifier.arguments) := by
  induction mods generalizing s with
  | nil => rfl
  | cons a rest ih =>
    rw [withModifiers_cons, ih, any_count_modify, flatMap_cons, any_counts_append, Nat.add_assoc]

/-- Modifiers without calls in them add nothing. -/
theorem any_count_finished (h : CallFree mods) (s : Schema) :
    (s.withModifiers mods).anyCount = s.anyCount := by
  have hnone : anyCounts (mods.flatMap Modifier.arguments) = 0 := by
    refine any_counts_eq_zero fun arg harg => ?_
    obtain ⟨mod, hmod, hmem⟩ := mem_flatMap.1 harg
    exact any_count_of_not_makes (h mod hmod arg hmem "any")
  rw [any_count_with_modifiers, hnone, Nat.add_zero]

/-- An expression that makes the calls of one without any value counts none. -/
theorem Finishes.any_count_eq_zero {finished : Schema} (h : finished.Finishes schema)
    (hnone : schema.anyCount = 0) : finished.anyCount = 0 :=
  any_count_of_not_makes fun args hmakes =>
    not_makes_of_any_count hnone args ((h.makes "any" args).1 hmakes)

end Counts

section Parts

/-- The first of some expressions counts at most as much as all of them. -/
theorem any_count_head_le (ss : List Schema) : (ss.headD .blank).anyCount ≤ anyCounts ss := by
  cases ss with
  | nil => exact Nat.le_refl 0
  | cons => exact Nat.le_add_right _ _

/-- The entries of an object and its index signature count at most as much as all expressions that
they are taken from. -/
theorem any_count_entries_le (names : List String) (ss : List Schema) :
    anyCountEntries (names.zip ss) + anyCountOption ss[names.length]? ≤ anyCounts ss := by
  induction names generalizing ss with
  | nil =>
    cases ss with
    | nil => exact Nat.le_refl 0
    | cons => simp [anyCountEntries, anyCountOption, anyCounts]
  | cons name names ih =>
    cases ss with
    | nil => exact Nat.le_refl 0
    | cons a rest =>
      have hr := ih rest
      simp only [zip_cons_cons, anyCountEntries, anyCounts, length_cons, getElem?_cons_succ]
      omega

theorem any_count_object_schema (es : List (String × Schema)) (v : Option Schema) :
    (Program.objectSchema es v).anyCount = anyCountEntries es + anyCountOption v := by
  cases v with
  | none => simp [Program.objectSchema, anyCount, anyCounts, anyCountOption]
  | some =>
    cases es with
    | nil => simp [Program.objectSchema, anyCount, anyCounts, anyCountOption, anyCountEntries]
    | cons =>
      simp [Program.objectSchema, any_count_modify, anyCount, anyCounts, anyCountOption]
      omega

/-- The last expression and those before it count as much as all of them. -/
theorem any_counts_drop_last (ss : List Schema) :
    anyCounts ss.dropLast + anyCounts ss.getLast?.toList = anyCounts ss := by
  cases hlast : ss.getLast? with
  | none =>
    rw [getLast?_eq_none_iff.1 hlast]
    rfl
  | some last =>
    have hsplit : ss.dropLast ++ [last] = ss := dropLast_append_getLast? last hlast
    rw [Option.toList_some, ← any_counts_append, hsplit]

end Parts

end Schema

/-- A type that does not ask for any value itself, apart from the types inside of it: all that
needs a type has one. -/
def TypeExpr.Specific : TypeExpr → Prop
  | .keyword word => word ≠ .any ∧ word ≠ .object
  | .object _ index => ∀ signature ∈ index, signature.type ≠ none
  | .function parameters _ => ∀ parameter ∈ parameters, parameter.type ≠ none
  | .reference name arguments => name = .str "Record" → arguments.length ≠ 1
  | _ => True

theorem Builtin.name_of_record {name : Name} (h : Builtin.ofName? name = some .record) :
    name = .str "Record" := by
  have hnames : ∀ e ∈ Builtin.names, e.2 = .record → e.1 = "Record" := by decide
  obtain ⟨text, rfl, hmem⟩ := Builtin.mem_names_of_name h
  exact congrArg Json.str (hnames _ hmem rfl)

/-- A declaration in which nothing asks for any value. -/
structure Declaration.Specific (declaration : Declaration) : Prop where
  types : ∀ type ∈ declaration.types, type.Everywhere TypeExpr.Specific
  index : ∀ declared, declaration = .interface declared →
    ∀ signature ∈ declared.index, signature.type ≠ none

/-- There are at most as many fallbacks in the schema that a computation gives as a budget and the
warnings of the computation allow. -/
def Accounts (budget : Nat) (computation : Compilation Schema) : Prop :=
  ∀ schema, computation.result = .ok schema →
    schema.anyCount ≤ budget + (warnings computation.trace).length

/-- A computation that finds nothing warns of it. -/
def WarnsOfNone {α : Type} (computation : Compilation (Option α)) : Prop :=
  computation.result = .ok none → 0 < (warnings computation.trace).length

section Rules

variable {α β : Type} {budget : Nat}

theorem warnings_append (a b : List Event) :
    warnings (a ++ b) = warnings a ++ warnings b := filterMap_append

theorem length_warnings_bind {a : Compilation α} {next : α → Compilation β} {v : α}
    (h : a.result = .ok v) :
    (warnings (a >>= next).trace).length =
      (warnings a.trace).length + (warnings (next v).trace).length := by
  rw [bind_trace_of_ok h, warnings_append, length_append]

theorem accounts_pure (h : schema.anyCount ≤ budget) : Accounts budget (pure schema) := by
  intro found hf
  cases hf
  exact Nat.le_trans h (Nat.le_add_right _ _)

theorem accounts_fail (failure : Failure) : Accounts budget (Traced.fail failure) :=
  fun _ h => by cases h

theorem Accounts.mono {more : Nat} (h : Accounts budget comp) (hle : budget ≤ more) :
    Accounts more comp :=
  fun schema hs => Nat.le_trans (h schema hs) (Nat.add_le_add_right hle _)

/-- The warnings of a first step are there for what comes after it. -/
theorem accounts_bind {a : Compilation α} {next : α → Compilation Schema}
    (h : ∀ v, a.result = .ok v → Accounts (budget + (warnings a.trace).length) (next v)) :
    Accounts budget (a >>= next) := by
  intro schema hs
  obtain ⟨v, hv, hnext⟩ := bind_ok_iff.1 hs
  rw [length_warnings_bind hv, ← Nat.add_assoc]
  exact h v hv schema hnext

/-- A step can follow on another one whose warnings are not needed. -/
theorem accounts_then {a : Compilation α} {next : α → Compilation Schema}
    (h : ∀ v, a.result = .ok v → Accounts budget (next v)) : Accounts budget (a >>= next) :=
  accounts_bind fun v hv => (h v hv).mono (Nat.le_add_right _ _)

theorem warns_of_none_some (v : α) : WarnsOfNone (pure (some v)) := fun h => by cases h

/-- Warning is enough, whatever is found. -/
theorem warns_of_none_warn {warning : Warning} {next : Unit → Compilation (Option α)} :
    WarnsOfNone (Compilation.warn warning >>= next) := by
  intro _
  rw [length_warnings_bind rfl]
  exact Nat.lt_of_lt_of_le Nat.zero_lt_one (Nat.le_add_right _ _)

theorem warns_of_none_bind {a : Compilation β} {next : β → Compilation (Option α)}
    (h : ∀ v, a.result = .ok v → WarnsOfNone (next v)) : WarnsOfNone (a >>= next) := by
  intro hnone
  obtain ⟨v, hv, hnext⟩ := bind_ok_iff.1 hnone
  rw [length_warnings_bind hv]
  exact Nat.lt_of_lt_of_le (h v hv hnext) (Nat.le_add_left _ _)

/-- Where a search finds nothing, what comes after it needs no warning of its own. -/
theorem warns_of_none_search {a : Compilation (Option β)} {next : Option β → Compilation (Option α)}
    (ha : WarnsOfNone a) (hnext : ∀ v, a.result = .ok (some v) → WarnsOfNone (next (some v))) :
    WarnsOfNone (a >>= next) := by
  intro hnone
  obtain ⟨found, hf, hlast⟩ := bind_ok_iff.1 hnone
  rw [length_warnings_bind hf]
  cases found with
  | none => exact Nat.lt_of_lt_of_le (ha hf) (Nat.le_add_right _ _)
  | some v => exact Nat.lt_of_lt_of_le (hnext v hf hlast) (Nat.le_add_left _ _)

end Rules

namespace Program

variable {p : Program} {ctx : Context} {budget : Nat} {callee : String} {α : Type} {job : Job}

section Steps

/-- A schema that is finished has the fallbacks it had. -/
theorem accounts_finish (h : schema.anyCount ≤ budget) : Accounts budget (p.finish ctx schema) := by
  refine accounts_then fun mods hmods => accounts_pure ?_
  rw [Schema.any_count_finished (call_free_of_modifiers hmods)]
  exact h

/-- A call of anything else has the fallbacks of its arguments. -/
theorem accounts_call (h : callee ≠ "any") :
    Accounts (Schema.anyCounts schemas) (p.finish ctx (.call callee schemas)) := by
  refine accounts_finish ?_
  rw [Schema.anyCount, if_neg h, Nat.zero_add]

/-- A projection of a schema has the fallbacks of the schema. -/
theorem any_count_of_project {target : Schema} {proj : String} {keys : Option TypeExpr}
    {read : Option Environment} (h : project target proj keys read = .ok schema) :
    schema.anyCount = target.anyCount := by
  obtain ⟨names, -, h⟩ := bind_eq_ok_iff.1 h
  cases h
  exact Schema.any_count_finished (Refinement.call_free_single (by simp)) target

/-- The fallback for a type without a schema is warned of. -/
theorem accounts_unsupported (t : Option TypeExpr) : Accounts budget (p.unsupported t ctx) := by
  refine accounts_then fun text _ => accounts_bind fun _ _ => accounts_finish ?_
  show 1 ≤ budget + 1
  exact Nat.le_add_left _ _

/-- Source text that is added to a schema has no fallbacks. -/
theorem accounts_add {text : String} (h : Accounts budget comp) :
    Accounts budget (do return (← comp).modify ⟨text, [], true⟩) := by
  refine accounts_bind fun schema hs => accounts_pure ?_
  exact h schema hs

/-- The fallback for what is not found is warned of. -/
theorem accounts_fallback {search : Compilation (Option α)} {next : Option α → Compilation Schema}
    (hsearch : WarnsOfNone search) (hnone : next none = p.finish ctx (.call "any" []))
    (hsome : ∀ v, search.result = .ok (some v) → Accounts budget (next (some v))) :
    Accounts budget (search >>= next) := by
  refine accounts_bind fun found hf => ?_
  cases found with
  | some v => exact (hsome v hf).mono (Nat.le_add_right _ _)
  | none =>
    rw [hnone]
    exact accounts_finish (Nat.le_trans (hsearch hf) (Nat.le_add_left _ _))

end Steps

section Lookup

/-- An indexed access without a path is warned of. -/
theorem access_chain_warns (chain : Chain) (later : List String) :
    WarnsOfNone (p.accessChain chain later) := by
  intro hnone
  obtain ⟨warning, h⟩ := (access_chain_comes chain later).of_none hnone
  rw [← warnings_findings, h]
  exact Nat.zero_lt_one

theorem harvest_members_warns (enumName : Name) (ms : List Enumerator) :
    WarnsOfNone (harvestMembers enumName ms) := by
  induction ms with
  | nil => exact warns_of_none_some _
  | cons m rest ih =>
    unfold harvestMembers
    split
    · exact warns_of_none_warn
    · exact warns_of_none_search ih fun _ _ => warns_of_none_some _

theorem harvest_named_warns (name : Name) : WarnsOfNone (p.harvestNamed name) := by
  unfold harvestNamed
  refine warns_of_none_bind fun found _ => ?_
  split
  · split
    · exact warns_of_none_bind fun _ _ => warns_of_none_some _
    · exact warns_of_none_warn
    · exact warns_of_none_some _
    · exact warns_of_none_warn
  · exact warns_of_none_search (harvest_members_warns _ _) fun _ _ => warns_of_none_some _
  · exact warns_of_none_warn

/-- A type in a template whose texts cannot be told is warned of. -/
theorem harvest_warns (env : Environment) (t : TypeExpr) : WarnsOfNone (p.harvest env t) := by
  unfold harvest
  refine warns_of_none_bind fun found _ => ?_
  obtain ⟨found, inner⟩ := found
  dsimp only
  split
  · exact warns_of_none_some _
  · exact warns_of_none_bind fun _ _ => warns_of_none_some _
  · refine warns_of_none_bind fun text _ => ?_
    cases text with
    | some => exact warns_of_none_some _
    | none => exact warns_of_none_warn
  · exact harvest_named_warns _
  · exact warns_of_none_bind fun _ _ => warns_of_none_warn

theorem harvest_spans_warns (env : Environment) (spans : List (TemplateSpan TypeExpr)) :
    WarnsOfNone (p.harvestSpans env spans) := by
  induction spans with
  | nil => exact warns_of_none_some _
  | cons span rest ih =>
    refine warns_of_none_search (harvest_warns env span.type) fun values _ => ?_
    exact warns_of_none_search ih fun others _ => warns_of_none_some _

/-- A template whose texts cannot be told is warned of. -/
theorem expand_warns (env : Environment) (head : Json) (spans : List (TemplateSpan TypeExpr)) :
    WarnsOfNone (p.expand env head spans) := by
  refine warns_of_none_search (harvest_spans_warns env spans) fun harvested _ => ?_
  dsimp only
  split
  · exact warns_of_none_bind fun _ _ => warns_of_none_warn
  · exact warns_of_none_bind fun _ _ => warns_of_none_bind fun _ _ => warns_of_none_some _

end Lookup

/-- The jobs of a plan are for types in which nothing asks for any value, and there are at most as
many fallbacks in what it puts together as in the schemas of its jobs, but for those warned of. -/
structure PlanAccounts (planned : Compilation Plan) : Prop where
  jobs : ∀ plan, planned.result = .ok plan →
    ∀ job ∈ plan.jobs, job.Everywhere TypeExpr.Specific
  assembles : ∀ plan, planned.result = .ok plan →
    ∀ schemas, Accounts (Schema.anyCounts schemas) (plan.assemble schemas)

section PlanRules

theorem plan_accounts_pure {plan : Plan}
    (hjobs : ∀ job ∈ plan.jobs, job.Everywhere TypeExpr.Specific)
    (hassemble : ∀ schemas, Accounts (Schema.anyCounts schemas) (plan.assemble schemas)) :
    PlanAccounts (pure plan) :=
  ⟨fun _ hplan => Except.ok.inj hplan ▸ hjobs, fun _ hplan => Except.ok.inj hplan ▸ hassemble⟩

theorem plan_accounts_bind {a : Compilation α} {next : α → Compilation Plan}
    (h : ∀ v, a.result = .ok v → PlanAccounts (next v)) : PlanAccounts (a >>= next) := by
  refine ⟨fun plan hplan => ?_, fun plan hplan => ?_⟩
  · obtain ⟨v, hv, hnext⟩ := bind_ok_iff.1 hplan
    exact (h v hv).jobs plan hnext
  · obtain ⟨v, hv, hnext⟩ := bind_ok_iff.1 hplan
    exact (h v hv).assembles plan hnext

theorem plan_accounts_reject (error : CompileError) : PlanAccounts (Compilation.reject error) :=
  ⟨fun _ h => (by cases h), fun _ h => (by cases h)⟩

theorem plan_accounts_leaf {s : Compilation Schema} (h : Accounts 0 s) :
    PlanAccounts (pure (.leaf s)) :=
  plan_accounts_pure (forall_mem_nil _) fun _ => h.mono (Nat.zero_le _)

theorem plan_accounts_through (h : job.Everywhere TypeExpr.Specific) :
    PlanAccounts (pure (.through job)) :=
  plan_accounts_pure (fun _ hjob => mem_singleton.1 hjob ▸ h) fun schemas =>
    accounts_pure (Schema.any_count_head_le schemas)

end PlanRules

section Objects

variable {env : Environment} {ms : List (Member TypeExpr)}
  {index : Option (IndexSignature TypeExpr)}

/-- What an interface extends adds no fallbacks to those of its own properties. -/
theorem any_count_of_extension {heritage : List Heritage} {es : List (String × Schema)}
    (h : (p.extensionChain heritage (some (.object es))).result = .ok (some schema)) :
    schema.anyCount ≤ Schema.anyCountEntries es := by
  obtain ⟨chain, ⟨name, hn⟩, hs⟩ := heritable_finishes.of_extension h
  have hnone : chain.anyCount = 0 := hn.any_count_eq_zero rfl
  rcases hs with ⟨-, rfl⟩ | rfl
  · omega
  · rw [Schema.any_count_modify, hnone]
    show 0 + (Schema.anyCountEntries es + 0) ≤ _
    omega

variable (henv : env.Everywhere TypeExpr.Specific)

include henv

theorem part_jobs_specific {types : List TypeExpr}
    (hts : ∀ t ∈ types, t.Everywhere TypeExpr.Specific) :
    ∀ job ∈ types.map fun t => Job.mk t env {}, job.Everywhere TypeExpr.Specific := by
  intro job hjob
  obtain ⟨t, ht, rfl⟩ := mem_map.1 hjob
  exact ⟨hts t ht, henv⟩

/-- The jobs of typed members are for types of the object. -/
theorem member_jobs_specific
    (hts : ∀ t ∈ objectTypes ms index, t.Everywhere TypeExpr.Specific) :
    ∀ job ∈ (p.memberJobs off env ms).map (·.2), job.Everywhere TypeExpr.Specific := by
  intro job hjob
  simp only [memberJobs, mem_map, mem_filterMap, Option.map_eq_some_iff] at hjob
  obtain ⟨named, ⟨m, hm, t, ht, rfl⟩, rfl⟩ := hjob
  exact ⟨hts t (mem_append_left _ (mem_filterMap.2 ⟨m, hm, ht⟩)), henv⟩

theorem object_plan_accounts {finish : Schema → Compilation Schema}
    (hts : ∀ t ∈ objectTypes ms index, t.Everywhere TypeExpr.Specific)
    (hidx : ∀ sig ∈ index, sig.type ≠ none)
    (hfinish : ∀ budget schema, schema.anyCount ≤ budget → Accounts budget (finish schema)) :
    PlanAccounts (pure (p.objectPlan off env ms index finish)) := by
  refine plan_accounts_pure (fun job hjob => ?_) fun schemas => ?_
  · rcases mem_append.1 hjob with hjob | hjob
    · exact member_jobs_specific henv hts job hjob
    · obtain ⟨sig, hsig, rfl⟩ := Option.map_eq_some_iff.1 (Option.mem_toList.1 hjob)
      cases ht : sig.type with
      | none => exact (hidx sig hsig ht).elim
      | some t =>
        have hmem : t ∈ objectTypes ms index := by
          subst hsig
          refine mem_append_right _ ?_
          simp [IndexSignature.types, ht]
        refine ⟨?_, henv⟩
        rw [indexJob, ht]
        exact hts t hmem
  · refine hfinish _ _ ?_
    rw [Schema.any_count_object_schema]
    have hle := Schema.any_count_entries_le ((p.memberJobs off env ms).map (·.1)) schemas
    rw [length_map] at hle
    exact hle

theorem interface_plan_accounts {d : Interface} (hd : (Declaration.interface d).Specific) :
    PlanAccounts (p.interfacePlan off env d ctx) := by
  have hts (t : TypeExpr) (ht : t ∈ objectTypes d.members d.index) :
      t.Everywhere TypeExpr.Specific :=
    hd.types t (mem_append_left _ ht)
  have hfinish (budget : Nat) (schema : Schema) (h : schema.anyCount ≤ budget) :
      Accounts budget (p.finish ctx (schema.withModifiers
        (if (p.tags d.tags).strict then [⟨"strict", [], false⟩] else []))) := by
    refine accounts_finish ?_
    rw [Schema.any_count_finished (call_free_strict _)]
    exact h
  unfold interfacePlan
  cases d.heritage with
  | nil =>
    exact object_plan_accounts henv hts (hd.index d rfl) hfinish
  | cons =>
    dsimp only
    split
    · exact plan_accounts_reject _
    · refine plan_accounts_pure (member_jobs_specific henv hts) fun schemas => ?_
      refine accounts_then fun found hf => ?_
      cases found with
      | none => exact accounts_fail _
      | some =>
        refine hfinish _ _ (Nat.le_trans (any_count_of_extension hf) ?_)
        exact Nat.le_trans (Nat.le_add_right _ _) (Schema.any_count_entries_le _ schemas)

end Objects

section Names

variable {env : Environment} {name : Name} {args : List TypeExpr}
  (henv : env.Everywhere TypeExpr.Specific)

include henv

/-- What a name is compiled as asks for its arguments, all of which are there, and adds nothing. -/
theorem name_plan_accounts {events : List Event} {use : NameUse TypeExpr}
    (ht : (TypeExpr.reference name args).Everywhere TypeExpr.Specific)
    (huse : NamedUse p env name args events use) :
    PlanAccounts (pure (p.namePlan env ctx name use)) := by
  have harg (arg : TypeExpr) (hmem : arg ∈ args) (inner : Context) :
      Job.Everywhere TypeExpr.Specific ⟨arg, env, inner⟩ :=
    ⟨ht.part hmem, henv⟩
  have hjobs (types : List TypeExpr) (hts : types ⊆ args) :=
    part_jobs_specific henv fun t hmem => ht.part (hts hmem)
  cases huse with
  | date => exact plan_accounts_leaf (accounts_finish (Nat.le_refl 0))
  | bare | ignored =>
    refine plan_accounts_leaf (accounts_then fun schema hs => accounts_finish ?_)
    obtain ⟨found, -, hs⟩ := bind_ok_iff.1 hs
    obtain ⟨done, -, hs⟩ := bind_ok_iff.1 hs
    cases hs
    exact Nat.le_refl 0
  | maybe =>
    refine plan_accounts_pure (hjobs [_] (by simp)) fun schemas => accounts_pure ?_
    rw [Schema.any_count_finished (Refinement.call_free_flagged _ _), Schema.anyCount]
  | array =>
    refine plan_accounts_pure (fun job hjob => ?_) fun schemas => accounts_call (by decide)
    cases mem_singleton.1 hjob
    exact harg _ mem_cons_self _
  | allOptional | allRequired | readonly =>
    exact plan_accounts_through (harg _ mem_cons_self _)
  | @record a rest any hn =>
    -- Of a record with a single argument the values could be any.
    have hlen := ht.here (Builtin.name_of_record hn)
    cases rest with
    | nil => exact (hlen rfl).elim
    | cons =>
      refine plan_accounts_pure (hjobs _ fun t hmem => ?_) fun schemas => ?_
      · rcases mem_cons.1 hmem with rfl | hmem
        · exact mem_cons_of_mem _ mem_cons_self
        · cases any with
          | true => cases hmem
          | false =>
            cases mem_singleton.1 hmem
            exact mem_cons_self
      · rw [← Schema.any_counts_reverse]
        exact accounts_call (by decide)
  | set | promise =>
    exact plan_accounts_pure (hjobs _ fun _ h => h) fun schemas => accounts_call (by decide)
  | projected =>
    refine plan_accounts_pure (hjobs [_] (by simp)) fun schemas => ?_
    refine accounts_then fun schema hs => accounts_finish ?_
    rw [any_count_of_project hs]
    exact Schema.any_count_head_le schemas

/-- A reference asks for its arguments or for the body of what it names. -/
theorem use_plan_accounts {use : Use} (hp : ∀ decl ∈ p.unit.declarations, decl.Specific)
    (ht : (TypeExpr.reference name args).Everywhere TypeExpr.Specific)
    (huse : p.UseOf env name args use) : PlanAccounts (p.usePlan env ctx name use) := by
  have hentered {decl : Declaration} {inner : Environment} (hdecl : decl.Specific)
      (hi : Entered decl env args inner) :
      inner.Everywhere TypeExpr.Specific :=
    entered_everywhere henv (fun arg harg => ht.part harg)
      (fun t hdefault => hdecl.types t (mem_append_right _ hdefault)) hi
  cases huse with
  | bound hb =>
    obtain ⟨hbound, hread⟩ := henv.binding hb
    exact plan_accounts_through ⟨hbound, hread⟩
  | @aliasBody d inner hfind _ _ hi =>
    have hdecl := hp _ (mem_of_find hfind)
    exact plan_accounts_through ⟨hdecl.types d.type mem_cons_self, hentered hdecl hi⟩
  | interfaceBody hfind _ _ hi =>
    have hdecl := hp _ (mem_of_find hfind)
    exact interface_plan_accounts (hentered hdecl hi) hdecl
  | name huse => exact name_plan_accounts henv ht (named_use_of_result huse)

end Names

section Types

variable {env : Environment}

/-- A combinator on a list of schemas, with modifiers that call nothing. -/
theorem any_count_combinator {parts : List Schema} (hcallee : callee ≠ "any") (h : CallFree mods) :
    (Schema.combinator callee parts mods).anyCount = Schema.anyCounts parts := by
  rw [Schema.combinator, Schema.any_count_finished h, Schema.anyCount, if_neg hcallee, Nat.zero_add]

theorem accounts_union :
    Accounts (Schema.anyCounts schemas) (p.unionSchema env arms schemas ctx) := by
  refine accounts_then fun mods hmods => ?_
  have hfree := call_free_of_modifiers hmods
  have hunion : Accounts (Schema.anyCounts schemas)
      (pure (Schema.combinator "union" [.array schemas] mods)) := by
    refine accounts_pure (Nat.le_of_eq ?_)
    rw [any_count_combinator (by decide) hfree]
    rfl
  dsimp only
  split
  · refine accounts_then fun told _ => ?_
    cases told with
    | false => exact hunion
    | true =>
      refine accounts_pure (Nat.le_of_eq ?_)
      rw [any_count_combinator (by decide) hfree]
      simp [Schema.anyCounts, Schema.anyCount]
  · exact hunion

/-- A path that is found leads into a schema that has a name. -/
theorem accounts_indexed {base index : TypeExpr} :
    Accounts 0 (do
      match ← p.indexedAccess (some env) (.indexed base index) with
      | some schema => p.finish ctx schema
      | none => p.finish ctx (.call "any" [])) := by
  refine accounts_fallback (access_chain_warns _ _) rfl fun schema hs => accounts_finish ?_
  obtain ⟨name, path, rfl⟩ := access_schema hs
  exact Nat.le_refl 0

theorem accounts_template {head : Json} {spans : List (TemplateSpan TypeExpr)} :
    Accounts 0 (do
      match ← p.expand env head spans with
      | some values => return values.schema (← p.modifiers ctx)
      | none => p.finish ctx (.call "any" [])) := by
  refine accounts_fallback (expand_warns _ _ _) rfl fun values _ => ?_
  refine accounts_then fun mods hmods => accounts_pure (Nat.le_of_eq ?_)
  rcases values_schema_cases values (call_free_of_modifiers hmods) with
    ⟨text, hfinishes⟩ | ⟨texts, hfinishes⟩
  · exact hfinishes.any_count_eq_zero rfl
  · refine hfinishes.any_count_eq_zero ?_
    have hnone :
        Schema.anyCounts (texts.map fun text => .call "literal" [.value (.str text)]) = 0 := by
      refine Schema.any_counts_eq_zero fun schema hs => ?_
      obtain ⟨text, -, rfl⟩ := mem_map.1 hs
      rfl
    simp [Schema.anyCount, Schema.anyCounts, hnone]

theorem accounts_keyword {word : Keyword} (h : (TypeExpr.keyword word).Specific) :
    Accounts 0 (p.keywordSchema word ctx) := by
  obtain ⟨hany, hobj⟩ := h
  refine accounts_finish (Nat.le_of_eq ?_)
  cases word with
  | any => exact (hany rfl).elim
  | object => exact (hobj rfl).elim
  | _ => rfl

variable (henv : env.Everywhere TypeExpr.Specific)

include henv

theorem union_plan_accounts (ht : (TypeExpr.union arms).Everywhere TypeExpr.Specific) :
    PlanAccounts (p.typePlan env ctx (.union arms)) := by
  have hkept (arm : TypeExpr) (harm : arm ∈ arms.filter (!·.isNull)) :
      arm.Everywhere TypeExpr.Specific := ht.part (mem_filter.1 harm).1
  rw [typePlan]
  dsimp only
  generalize arms.filter (fun arm => !arm.isNull) = kept at hkept ⊢
  rcases kept with _ | ⟨a, _ | ⟨b, rest⟩⟩
  · exact plan_accounts_leaf (accounts_finish (Nat.le_refl 0))
  · exact plan_accounts_through ⟨hkept a mem_cons_self, henv⟩
  · exact plan_accounts_pure (part_jobs_specific henv hkept) fun _ => accounts_union

theorem intersection_plan_accounts
    (ht : (TypeExpr.intersection arms).Everywhere TypeExpr.Specific) :
    PlanAccounts (p.typePlan env ctx (.intersection arms)) := by
  cases arms with
  | nil => exact plan_accounts_leaf (accounts_unsupported _)
  | cons =>
    refine plan_accounts_pure (part_jobs_specific henv fun _ harm => ht.part harm)
      fun schemas => accounts_finish ?_
    rw [Schema.any_count_with_modifiers, flatMap_map]
    cases schemas with
    | nil => exact Nat.le_refl 0
    | cons => simp [Schema.anyCounts]

theorem tuple_plan_accounts {elements : List TypeExpr}
    (ht : (TypeExpr.tuple elements).Everywhere TypeExpr.Specific) :
    PlanAccounts (p.typePlan env ctx (.tuple elements)) := by
  have hslot (elt : TypeExpr) (helt : elt ∈ elements) :
      (slotJob env elt).Everywhere TypeExpr.Specific := by
    cases elt with
    | named =>
      exact ⟨(ht.part helt).part (mem_singleton.2 rfl), henv⟩
    | _ => exact ⟨ht.part helt, henv⟩
  rw [typePlan]
  refine plan_accounts_bind fun mods hmods => plan_accounts_bind fun found hf => ?_
  have hfree := call_free_of_modifiers hmods
  have hspread := lift_ok_iff.1 hf
  cases found with
  | none =>
    refine plan_accounts_pure (fun job hjob => ?_) fun schemas => accounts_pure ?_
    · obtain ⟨elt, helt, rfl⟩ := mem_map.1 hjob
      exact hslot elt helt
    · rw [any_count_combinator (by decide) hfree]
      exact Nat.le_refl _
  | some found =>
    obtain ⟨t, inner⟩ := found
    refine plan_accounts_pure (fun job hjob => ?_) fun schemas => accounts_pure ?_
    · rcases mem_cons.1 hjob with rfl | hjob
      · obtain ⟨front, spread, rfl⟩ := eq_append_spread hspread
        rw [spreadType, getLast?_concat] at hspread
        have hlast := ht.part (mem_append_right front (mem_singleton.2 rfl))
        obtain ⟨hf, hi⟩ := element_type_everywhere henv (hlast.part (mem_singleton.2 rfl)) hspread
        exact ⟨hf, hi⟩
      · obtain ⟨elt, helt, rfl⟩ := mem_map.1 hjob
        exact hslot elt (dropLast_subset elements helt)
    · -- The elements that are spread are compiled first and written last.
      rw [Schema.combinator, Schema.withModifiers_cons, Schema.any_count_finished hfree]
      cases schemas with
      | nil => exact Nat.le_refl 0
      | cons =>
        simp [Schema.any_count_modify, Schema.anyCount, Schema.anyCounts]
        omega

theorem function_plan_accounts {params : List (Parameter TypeExpr)} {result : TypeExpr}
    (ht : (TypeExpr.function params result).Everywhere TypeExpr.Specific) :
    PlanAccounts (p.typePlan env ctx (.function params result)) := by
  refine plan_accounts_pure (fun job hjob => ?_) fun schemas => accounts_finish ?_
  · rcases mem_append.1 hjob with hjob | hjob
    · obtain ⟨param, hparam, rfl⟩ := mem_map.1 hjob
      cases hwritten : param.type with
      | none => exact (ht.here param hparam hwritten).elim
      | some =>
        refine ⟨?_, henv⟩
        rw [parameterJob, hwritten]
        exact ht.part (mem_append_left _ (mem_filterMap.2 ⟨param, hparam, hwritten⟩))
    · cases mem_singleton.1 hjob
      exact ⟨ht.part (mem_append_right _ (mem_singleton.2 rfl)), henv⟩
  · rw [Schema.any_count_with_modifiers, ← Schema.any_counts_drop_last schemas]
    simp [Schema.anyCount, Schema.anyCounts, Schema.any_counts_append]

/-- Each type accounts for its schema. -/
theorem type_plan_accounts {t : TypeExpr} (hp : ∀ decl ∈ p.unit.declarations, decl.Specific)
    (ht : t.Everywhere TypeExpr.Specific) : PlanAccounts (p.typePlan env ctx t) := by
  cases t with
  | reference =>
    rw [typePlan]
    exact plan_accounts_bind fun use huse =>
      use_plan_accounts henv hp ht (use_of_result huse)
  | object =>
    exact object_plan_accounts henv (fun t hpart => ht.part hpart) ht.here
      fun budget schema h => accounts_finish h
  | union => exact union_plan_accounts henv ht
  | intersection => exact intersection_plan_accounts henv ht
  | tuple => exact tuple_plan_accounts henv ht
  | literal v =>
    cases v <;> exact plan_accounts_leaf (accounts_finish (Nat.le_refl 0))
  | enumMember =>
    exact plan_accounts_leaf (accounts_finish (Nat.le_refl 0))
  | array =>
    refine plan_accounts_pure (fun job hjob => ?_) fun _ => accounts_call (by decide)
    cases mem_singleton.1 hjob
    exact ⟨ht.part (mem_singleton.2 rfl), henv⟩
  | function => exact function_plan_accounts henv ht
  | indexed => exact plan_accounts_leaf accounts_indexed
  | template => exact plan_accounts_leaf accounts_template
  | keyword => exact plan_accounts_leaf (accounts_keyword ht.here)
  | paren =>
    exact plan_accounts_through ⟨ht.part (mem_singleton.2 rfl), henv⟩
  | spread | named | unsupported => exact plan_accounts_leaf (accounts_unsupported _)

end Types

section Runs

variable {compile : Job → Compilation Schema} {decl : Declaration}

/-- Schemas that are made one after the other have no more fallbacks than are warned of on the
way. -/
theorem any_counts_of_mapM {jobs : List Job} (hjobs : ∀ job ∈ jobs, Accounts 0 (compile job))
    (h : (jobs.mapM compile).result = .ok schemas) :
    Schema.anyCounts schemas ≤ (warnings (jobs.mapM compile).trace).length := by
  induction jobs generalizing schemas with
  | nil =>
    cases h
    exact Nat.le_refl 0
  | cons job rest ih =>
    rw [mapM_cons] at h ⊢
    obtain ⟨a, ha, h⟩ := bind_ok_iff.1 h
    obtain ⟨others, hothers, h⟩ := bind_ok_iff.1 h
    cases h
    have hhead := hjobs job mem_cons_self a ha
    have htail := ih (forall_mem_cons.1 hjobs).2 hothers
    rw [length_warnings_bind ha, length_warnings_bind hothers, Schema.anyCounts]
    omega

/-- A plan that accounts for what it puts together does so when it is followed. -/
theorem accounts_run {planned : Compilation Plan} (hplanned : PlanAccounts planned)
    (hjobs : ∀ plan, planned.result = .ok plan → ∀ job ∈ plan.jobs, Accounts 0 (compile job)) :
    Accounts 0 (do (← planned).run compile) := by
  refine accounts_then fun plan hplan => accounts_bind fun schemas hschemas => ?_
  refine (hplanned.assembles plan hplan schemas).mono ?_
  rw [Nat.zero_add]
  exact any_counts_of_mapM (hjobs plan hplan) hschemas

theorem declaration_plan_accounts (h : decl.Specific) : PlanAccounts (p.declarationPlan decl) := by
  have hempty : Environment.empty.Everywhere TypeExpr.Specific :=
    Environment.no_bindings_everywhere 0
  cases decl with
  | enumeration => exact plan_accounts_leaf (accounts_pure (Nat.le_refl 0))
  | typeAlias d =>
    rw [declarationPlan]
    split
    · exact plan_accounts_through ⟨h.types d.type mem_cons_self, hempty⟩
    · exact plan_accounts_reject _
  | interface =>
    refine plan_accounts_bind fun use huse => ?_
    obtain ⟨off, rfl⟩ := interface_use_eq huse
    exact interface_plan_accounts hempty h

variable (hprogram : ∀ declaration ∈ p.unit.declarations, declaration.Specific)

include hprogram

/-- Source text in place of a schema or after it adds no fallbacks. -/
theorem plan_accounts (hjob : job.Everywhere TypeExpr.Specific) : PlanAccounts (p.plan job) := by
  unfold plan
  split
  · exact type_plan_accounts hjob.environment hprogram hjob.type
  · split
    · have hwritten (ctx : Context) : PlanAccounts (p.typePlan job.environment ctx job.type) :=
        type_plan_accounts hjob.environment hprogram hjob.type
      refine plan_accounts_bind fun planned hplanned => ?_
      refine plan_accounts_pure ((hwritten _).jobs planned hplanned) fun schemas => ?_
      exact accounts_add ((hwritten _).assembles planned hplanned schemas)
    · exact plan_accounts_leaf (accounts_pure (Nat.le_refl 0))

/-- A job for a type in which nothing asks for any value accounts for its schema. -/
theorem accounts_compile (job : Job) (hjob : job.Everywhere TypeExpr.Specific) :
    Accounts 0 (p.compile job) := by
  induction job using p.job_induction with
  | h job ih =>
    rw [compile_eq_run]
    have hplan := plan_accounts hprogram hjob
    refine accounts_run hplan fun plan hres next hnext => ?_
    exact ih next ⟨plan, hres, hnext⟩ (hplan.jobs plan hres next hnext)

theorem accounts_declaration (h : decl.Specific) : Accounts 0 (p.declarationSchema decl) := by
  rw [declaration_schema_eq]
  have hplan : PlanAccounts (p.declarationPlan decl) := declaration_plan_accounts h
  refine accounts_run hplan fun plan hres job hjob => ?_
  exact accounts_compile hprogram job (hplan.jobs plan hres job hjob)

end Runs

/-- Nothing degrades silently. When neither `any` nor `object` is written in a program, all
parameters of functions and index signatures have a type and no `Record` has a single argument, a
declaration that compiles calls for the schema of any value at most as often as it has warnings.
Without warnings it does so nowhere. -/
theorem fallbacks_are_warned {program : Program}
    (hprogram : ∀ declaration ∈ program.unit.declarations, declaration.Specific) :
    ∀ declaration ∈ program.unit.declarations, ∀ compiled,
      (program.compileDeclaration declaration).result = .ok compiled →
        compiled.schema.anyCount ≤ compiled.warnings.length ∧
          (compiled.warnings = [] →
            ∀ arguments, ¬compiled.schema.Makes "any" arguments) := by
  intro declaration hmem compiled hcompiled
  obtain ⟨hschema, -, -, hwarnings, -⟩ := compiled_of_result hcompiled
  have hle : compiled.schema.anyCount ≤ compiled.warnings.length := by
    rw [hwarnings, ← Nat.zero_add (List.length _)]
    exact accounts_declaration hprogram (hprogram declaration hmem) compiled.schema hschema
  refine ⟨hle, fun hnone => Schema.not_makes_of_any_count ?_⟩
  rw [hnone] at hle
  exact Nat.le_zero.1 hle

/-- A generic alias of an object with a member that has no schema. -/
def slotAlias : Declaration :=
  .typeAlias ⟨.str "Slot", [], true, [⟨.str "T", none, none⟩], .object
    [{ name := "value", type := some (.reference (.str "T") []), optional := false
       readonly := false, tags := [] },
     { name := "kind", type := some (.unsupported (.str "ConditionalType") (.str "A extends B"))
       optional := false, readonly := false, tags := [] }] none⟩

/-- An alias of a tuple of two slots and a template over an unknown name. -/
def parcelAlias : Declaration :=
  .typeAlias ⟨.str "Parcel", [], true, [], .tuple
    [.reference (.str "Slot") [.keyword .string], .reference (.str "Slot") [.keyword .number],
     .template (.str "id-") [⟨.reference (.str "Unknown") [], .str ""⟩]]⟩

/-- The program of both aliases. -/
def parcels : Program where
  unit := ⟨.null, [slotAlias, parcelAlias], []⟩
  settings := Settings.default

/-- The member without a schema is warned of once for each slot, and so is the template. -/
theorem parcel_fallbacks_warned : ∃ compiled,
    (parcels.compileDeclaration parcelAlias).result = .ok compiled ∧
      compiled.schema.anyCount = 3 ∧ compiled.warnings.length = 3 ∧
      compiled.schema.anyCount ≤ compiled.warnings.length := by
  have hspecific : ∀ declaration ∈ parcels.unit.declarations, declaration.Specific := by
    intro declaration hdeclaration
    rcases List.mem_cons.1 hdeclaration with rfl | hdeclaration
    · refine ⟨fun type htype => ?_, fun _ h => by cases h⟩
      cases List.mem_singleton.1 htype
      refine TypeExpr.everywhere_of_holds_within 2 ?_
      simp [TypeExpr.HoldsWithin, TypeExpr.Specific, TypeExpr.parts, objectTypes]
    · cases List.mem_singleton.1 hdeclaration
      refine ⟨fun type htype => ?_, fun _ h => by cases h⟩
      cases List.mem_singleton.1 htype
      refine TypeExpr.everywhere_of_holds_within 3 ?_
      simp [TypeExpr.HoldsWithin, TypeExpr.Specific, TypeExpr.parts]
  have hmem : parcelAlias ∈ parcels.unit.declarations := List.mem_cons_of_mem _ List.mem_cons_self
  refine ⟨_, rfl, rfl, rfl, ?_⟩
  exact (fallbacks_are_warned hspecific parcelAlias hmem _ rfl).1

end Program

end Schemata
