import Schemata.Proofs.Calls

/-!
# Termination of compilation

A job can ask for a larger type, since a parameter may be bound to any type, and for one in an
environment of lower depth, since an argument is compiled where it is written. That there is no
endless chain of jobs all the same, `calls_well_founded`, is shown by reducibility: a type is
`Reducible` in an environment when the jobs that lead on from it come to an end. Types are reducible
in an environment whose bindings are, by induction on the nestings that are left and on the type.
-/

namespace Schemata

open List

variable {key : Key} {read bound env inner : Environment} {name : Name}
  {binding : Binding Environment} {t : TypeExpr}

namespace Environment

/-- What the binding of a key leads to is what its type leads to. -/
theorem resolve_in_eq (bindings : List (Binding Environment)) (key : Key) :
    resolveIn bindings key =
      (bindings.find? fun binding => binding.name.key? = some key).map fun binding =>
        binding.environment.resolve binding.type.unwrap := by
  induction bindings with
  | nil => rfl
  | cons binding rest ih =>
    obtain ⟨name, t, env⟩ := binding
    by_cases h : name.key? = some key
    · simp [resolveIn, h]
    · simp [resolveIn, h, ih]

/-- A parameter leads to what its binding leads to, another name to itself. -/
theorem resolve_reference (env : Environment) (hk : name.key = .ok key) :
    env.resolve (.reference name []) =
      match env.binding? key with
      | some binding => binding.environment.resolve binding.type.unwrap
      | none => .ok (.reference name [], env) := by
  obtain ⟨depth, bindings⟩ := env
  simp only [resolve, hk, resolve_in_eq, binding?, Environment.bindings]
  cases bindings.find? fun binding => binding.name.key? = some key <;> rfl

/-- A type leads to itself, or it is a parameter and leads where its binding leads. -/
theorem resolve_cases {found : TypeExpr} (h : env.resolve t = .ok (found, inner)) :
    (found = t ∧ inner = env) ∨ ∃ name key b, t = .reference name [] ∧ name.key = .ok key ∧
      env.binding? key = some b ∧ b.environment.resolve b.type.unwrap = .ok (found, inner) := by
  by_cases hn : ∃ name, t = .reference name []
  · obtain ⟨name, rfl⟩ := hn
    cases hk : name.key with
    | error =>
      obtain ⟨depth, bindings⟩ := env
      simp [resolve, hk] at h
    | ok key =>
      rw [env.resolve_reference hk] at h
      split at h
      · exact .inr ⟨name, key, _, rfl, hk, ‹_›, h⟩
      · cases h
        exact .inl ⟨rfl, rfl⟩
  · rw [resolve_of_ne fun name heq => hn ⟨name, heq⟩] at h
    cases h
    exact .inl ⟨rfl, rfl⟩

end Environment

/-- The environments of bindings are smaller. -/
theorem Environment.size_of_binding (h : binding ∈ env.bindings) :
    sizeOf binding.environment < sizeOf env := by
  obtain ⟨depth, bindings⟩ := env
  have hlt : sizeOf binding < sizeOf bindings := sizeOf_lt_of_mem h
  obtain ⟨name, t, read⟩ := binding
  simp at hlt ⊢
  omega

/-- A binding among others is the one that was put or one of the others. -/
theorem Environment.mem_put_binding {added : Binding Environment}
    {bindings : List (Binding Environment)} (h : binding ∈ putBinding key added bindings) :
    (binding.type = added.type ∧ binding.environment = added.environment) ∨ binding ∈ bindings := by
  fun_induction putBinding key added bindings with
  | case1 => exact .inl (by cases mem_singleton.1 h; exact ⟨rfl, rfl⟩)
  | case2 =>
    rcases mem_cons.1 h with rfl | h
    · exact .inl ⟨rfl, rfl⟩
    · exact .inr (mem_cons_of_mem _ h)
  | case3 a rest ha ih =>
    rcases mem_cons.1 h with rfl | h
    · exact .inr mem_cons_self
    · exact (ih h).imp_right (mem_cons_of_mem _)

/-- The bindings of an environment with one more are that one and those of the environment. -/
theorem Environment.mem_bind (hbind : env.bind name t read = .ok bound)
    (h : binding ∈ bound.bindings) :
    (binding.type = t ∧ binding.environment = read) ∨ binding ∈ env.bindings := by
  obtain ⟨key, -, hbind⟩ := bind_eq_ok_iff.1 hbind
  cases hbind
  exact mem_put_binding h

/-- The bindings of an environment without a name are bindings of the environment. -/
theorem Environment.mem_without (h : binding ∈ (env.without name).bindings) :
    binding ∈ env.bindings := (mem_filter.1 h).1

namespace Program

variable {p : Program} {elt : TypeExpr} {a b : Job → Compilation Schema}

/-- What a declaration is entered in is one level deeper. -/
theorem depth_of_entered {decl : Declaration} {caller inner : Environment} {args : List TypeExpr}
    (h : Entered decl caller args inner) : inner.depth = caller.depth + 1 := by
  induction h with
  | enter => rfl
  | argument _ _ hbind ih | default _ _ hbind ih => rw [Environment.depth_bind hbind, ih]
  | without hi ih => exact ih

/-- The type of the elements of a type is one of its parts, in the same environment. -/
theorem mem_of_element (h : elementOf? env t = some (elt, inner)) :
    elt ∈ t.unwrap.parts ∧ inner = env := by
  unfold elementOf? at h
  split at h
  · rename_i found hf
    cases h
    exact ⟨hf ▸ mem_singleton.2 rfl, rfl⟩
  · rename_i name a rest hf
    split at h
    · cases h
      exact ⟨hf ▸ mem_cons_self, rfl⟩
    · cases h
  · cases h

/-- Elements are a part of the type that parameters were followed to. -/
theorem resolve_of_element (h : elementType env t = .ok (some (elt, inner))) :
    ∃ found, env.resolve t = .ok (found, inner) ∧ elt ∈ found.unwrap.parts := by
  unfold elementType at h
  cases hres : env.resolve t with
  | error => simp [hres, Except.map] at h
  | ok found =>
    rw [hres] at h
    obtain ⟨hpart, rfl⟩ := mem_of_element (Except.ok.inj h)
    exact ⟨found.1, rfl, hpart⟩

/-- Elements that are found without going through parentheses are found by going through them. -/
theorem element_type_unwrap (h : elementType env t = .ok (some (elt, inner))) :
    elementType env t.unwrap = .ok (some (elt, inner)) := by
  by_cases hn : ∃ name, t = .reference name []
  · obtain ⟨name, rfl⟩ := hn
    exact h
  rw [elementType, Environment.resolve_of_ne fun name heq => hn ⟨name, heq⟩] at h
  by_cases hi : ∃ name, t.unwrap = .reference name []
  · obtain ⟨name, hi⟩ := hi
    simp [Except.map, elementOf?, hi] at h
  · rw [elementType, Environment.resolve_of_ne fun name heq => hi ⟨name, heq⟩]
    simpa only [Except.map, elementOf?, TypeExpr.unwrap_unwrap] using h

/-- All chains of jobs from a type in an environment come to an end, and so do those from the
elements that the type leads to. -/
structure Reducible (program : Program) (type : TypeExpr) (environment : Environment) : Prop where
  ends (context : Context) : Acc program.Calls ⟨type, environment, context⟩
  elements_end (element : TypeExpr) (inner : Environment)
    (h : elementType environment type.unwrap = .ok (some (element, inner))) (context : Context) :
    Acc program.Calls ⟨element, inner, context⟩

/-- What the parameters of an environment are bound to is reducible. -/
def Good (program : Program) (environment : Environment) : Prop :=
  ∀ binding ∈ environment.bindings, program.Reducible binding.type binding.environment

section Good

variable {decl : Declaration} {args : List TypeExpr}

/-- One more reducible binding keeps an environment good. -/
theorem good_bind (hgood : p.Good env) (ht : p.Reducible t read)
    (hbind : env.bind name t read = .ok bound) : p.Good bound := by
  intro binding hb
  rcases Environment.mem_bind hbind hb with ⟨rfl, rfl⟩ | hold
  · exact ht
  · exact hgood binding hold

/-- What a declaration is entered in is good, if types one level deeper are reducible in good
environments. -/
theorem good_of_entered
    (hdeeper : ∀ inner, inner.depth = env.depth + 1 → p.Good inner → ∀ t, p.Reducible t inner)
    (hargs : ∀ arg ∈ args, p.Reducible arg env)
    (h : Entered decl env args inner) : p.Good inner := by
  induction h with
  | enter =>
    intro binding hb
    cases hb
  | argument hi harg hbind ih => exact good_bind ih (hargs _ harg) hbind
  | default hi hdefault hbind ih =>
    exact good_bind ih (hdeeper _ (depth_of_entered hi) ih _) hbind
  | without hi ih => exact fun binding hb => ih binding (Environment.mem_without hb)

/-- The type of any value asks for nothing. -/
theorem any_ends (env : Environment) (ctx : Context) : Acc p.Calls ⟨.keyword .any, env, ctx⟩ := by
  constructor
  rintro next ⟨plan, hplan, hnext⟩
  have hasked := asked_of_plan hplan hnext
  unfold Program.plan at hplan
  split at hplan
  · cases hplan
    cases hnext
  · split at hplan <;>
    · cases hplan
      cases hnext

/-- A type leads to elements that are written in it or that a parameter in it is bound to. -/
theorem elements_end_of_parts {t : TypeExpr} (hgood : p.Good env)
    (hps : ∀ part : TypeExpr, part.Within t → ∀ ctx, Acc p.Calls ⟨part, env, ctx⟩)
    (elt : TypeExpr) (inner : Environment)
    (h : elementType env t.unwrap = .ok (some (elt, inner))) (ctx : Context) :
    Acc p.Calls ⟨elt, inner, ctx⟩ := by
  obtain ⟨found, hres, hpart⟩ := resolve_of_element h
  rcases Environment.resolve_cases hres with ⟨rfl, rfl⟩ | ⟨_, _, b, -, -, hb, hbound⟩
  · rw [TypeExpr.unwrap_unwrap] at hpart
    exact hps elt (TypeExpr.within_of_mem_parts_unwrap hpart) ctx
  · -- a bound parameter is followed, and its binding is reducible
    refine (hgood b (mem_of_find?_eq_some hb)).elements_end elt inner ?_ ctx
    rw [elementType, hres] at h
    rwa [elementType, hbound]

/-- Types are reducible in a good environment. -/
theorem reducible_of_good (env : Environment) (hgood : p.Good env)
    (t : TypeExpr) : p.Reducible t env := by
  -- the outer induction is on the nestings that are left, the inner one on the size of the type
  induction hleft : p.nestingsLeft env.depth using Nat.strongRecOn generalizing env t with
  | ind left ihleft =>
    subst hleft
    induction hsize : sizeOf t using Nat.strongRecOn generalizing t with
    | ind size ihsize =>
      subst hsize
      have hps (part : TypeExpr) (hpart : part.Within t) :
          p.Reducible part env := ihsize _ hpart.size_lt part rfl
      refine ⟨fun ctx => ⟨_, ?_⟩,
        elements_end_of_parts hgood fun part hpart => (hps part hpart).ends⟩
      rintro next ⟨plan, hplan, hnext⟩
      cases asked_of_plan hplan hnext with
      | part hpart => exact (hps _ hpart).ends _
      | any => exact any_ends _ _
      | bound hb => exact (hgood _ hb).ends _
      | spread hspread helt =>
        exact (hps _ hspread).elements_end _ _ (element_type_unwrap helt) _
      | body ht hfind hentered hleft hi =>
        subst ht
        have hdeeper (inner : Environment) (hdepth : inner.depth = env.depth + 1)
            (hi : p.Good inner) (t : TypeExpr) :
            p.Reducible t inner := by
          refine ihleft _ ?_ inner hi t rfl
          rw [hdepth, nestings_left_succ]
          exact Nat.sub_one_lt hleft
        have hgood := good_of_entered hdeeper (fun arg harg => hps arg (.part harg)) hi
        exact (hdeeper _ (depth_of_entered hi) hgood _).ends _

end Good

/-- All environments are good. -/
theorem good (env : Environment) : p.Good env := by
  intro binding hb
  have hsmaller := Environment.size_of_binding hb
  exact reducible_of_good binding.environment (good binding.environment) binding.type
termination_by sizeOf env

/-- There is no endless chain of jobs. -/
theorem calls_well_founded (p : Program) : WellFounded p.Calls :=
  ⟨fun job => (reducible_of_good job.environment (good job.environment) job.type).ends job.context⟩

/-- Jobs that are done alike give the same schemas. -/
theorem mapM_congr {jobs : List Job} (h : ∀ job ∈ jobs, a job = b job) :
    jobs.mapM a = jobs.mapM b := by
  induction jobs with
  | nil => rfl
  | cons job rest ih =>
    rw [mapM_cons, mapM_cons, h job mem_cons_self, ih (forall_mem_cons.1 h).2]

/-- What a job gives depends only on the jobs that its plan names. -/
theorem run_congr {job : Job} (h : ∀ next, p.Calls next job → a next = b next) :
    (do (← p.plan job).run a) = (do (← p.plan job).run b) := by
  refine Traced.bind_congr fun plan hplan => ?_
  unfold Plan.run
  rw [mapM_congr fun next hnext => h next ⟨plan, hplan, hnext⟩]

/-- What holds of a job when it holds of all jobs that its plan names, holds of all jobs. -/
theorem job_induction {motive : Job → Prop}
    (h : ∀ job, (∀ next, p.Calls next job → motive next) → motive job) (job : Job) : motive job :=
  p.calls_well_founded.induction job h

end Program

end Schemata
