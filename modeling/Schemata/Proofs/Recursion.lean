import Schemata.Proofs.Plan

/-!
# The recursion of compilation

`compile_eq_run` says that a job is done by its plan, and `declaration_schema_eq` that a declaration
is. What bound parameters mean is what their types are compiled to in the environments of their
bindings, and how many nestings are left is read off the depth of an environment.
-/

namespace Schemata

open List

variable {read bound : Environment} {type : TypeExpr} {name : Name} {key : Key}

namespace Traced

variable {ω α β : Type}

/-- A value that is there is the result of a computation without a trace. -/
theorem lift_ok (v : α) : (liftM (Except.ok v : Except Fault α) : Traced ω α) = Pure.pure v := rfl

/-- What follows a computation matters only for its result. -/
theorem bind_congr {a : Traced ω α} {next other : α → Traced ω β}
    (h : ∀ v, a.result = .ok v → next v = other v) : (a >>= next) = (a >>= other) := by
  obtain ⟨trace, result⟩ := a
  cases result with
  | error => rfl
  | ok v => simp only [bind_ok, h v rfl]

end Traced

/-- Two steps succeed when one succeeds after the other. -/
theorem bind_eq_ok_iff {ε α β : Type} {a : Except ε α} {next : α → Except ε β} {v : β} :
    (a >>= next) = .ok v ↔ ∃ middle, a = .ok middle ∧ next middle = .ok v := by
  cases a <;> simp [bind, Except.bind]

/-- Two steps fail when the first one does, or the second one after it. -/
theorem bind_eq_error_iff {ε α β : Type} {a : Except ε α} {next : α → Except ε β} {e : ε} :
    (a >>= next) = .error e ↔ a = .error e ∨ ∃ middle, a = .ok middle ∧ next middle = .error e := by
  cases a <;> simp [bind, Except.bind]

/-- Inside all parentheses there is no further one. -/
theorem TypeExpr.unwrap_unwrap (t : TypeExpr) : t.unwrap.unwrap = t.unwrap := by
  fun_induction TypeExpr.unwrap t with
  | case1 t ih => exact ih
  | case2 t => cases t <;> simp_all [TypeExpr.unwrap]

namespace Environment

variable {env : Environment}

/-- A type that is not a bare name leads to itself. -/
theorem resolve_of_ne (h : ∀ name, type ≠ .reference name []) :
    env.resolve type = .ok (type, env) := by
  obtain ⟨depth, bindings⟩ := env
  cases type with
  | reference name args =>
    cases args with
    | nil => exact absurd rfl (h name)
    | cons => simp [resolve]
  | _ => simp [resolve]

/-- The environment with one more binding is inside of as many instantiations. -/
theorem depth_bind (h : env.bind name type read = .ok bound) : bound.depth = env.depth := by
  obtain ⟨key, -, h⟩ := bind_eq_ok_iff.1 h
  cases h
  rfl

end Environment

section NameUse

variable {α β : Type}

/-- The use of a name with its arguments changed. -/
def NameUse.map (f : α → β) : NameUse α → NameUse β
  | .date => .date
  | .maybe argument => .maybe (f argument)
  | .array element => .array (f element)
  | .adjusted argument adjust => .adjusted (f argument) adjust
  | .record key value => .record (key.map f) (value.map f)
  | .call callee arguments => .call callee (arguments.map f)
  | .projected projection target keys => .projected projection (f target) keys
  | .schema => .schema

namespace Program

/-- What a name is compiled as does not depend on what its arguments are beside their types. -/
theorem name_use_map (p : Program) (f : α → β) (typeOf : β → TypeExpr) (name : Name)
    (env : Environment) (args : List α) :
    p.nameUse typeOf name env (args.map f) =
      NameUse.map f <$> p.nameUse (fun arg => typeOf (f arg)) name env args := by
  cases args with
  | nil =>
    rw [map_nil, nameUse, nameUse, map_pure]
    split <;> rfl
  | cons a rest =>
    rw [map_cons, nameUse, nameUse]
    by_cases hdate : Builtin.ofName? name = some .date
    · rw [if_pos hdate, if_pos hdate]
      rfl
    rw [if_neg hdate, if_neg hdate]
    cases p.settings.isMaybeName name with
    | error => rfl
    | ok isMaybe =>
      cases isMaybe with
      | true => rfl
      | false =>
        rw [Traced.lift_ok, pure_bind, pure_bind, if_neg Bool.false_ne_true,
          if_neg Bool.false_ne_true]
        rcases Builtin.ofName? name with
          _ | _ | _ | _ | _ | _ | _ | _ | _ | proj
        · simp only [map_cons, map_map, Function.comp_def, map_bind]
          rfl
        · rfl
        · rfl
        · rfl
        · rfl
        · rfl
        · dsimp only
          cases anyKey env (typeOf (f a)) with
          | error => rfl
          | ok any => cases any <;> cases rest <;> rfl
        · rfl
        · rfl
        · cases rest <;> rfl

/-- The schema of a name with changed arguments is the one with the change made later. -/
theorem name_schema_map (p : Program) (f : α → β) (schemaOf : β → Context → Compilation Schema)
    (name : Name) (env : Environment) (ctx : Context) (use : NameUse α) :
    p.nameSchema schemaOf name env ctx (use.map f) =
      p.nameSchema (fun arg => schemaOf (f arg)) name env ctx use := by
  cases use with
  | record key v => cases key <;> cases v <;> rfl
  | call =>
    simp only [NameUse.map, nameSchema, mapM_map]
    rfl
  | _ => rfl

end Program

end NameUse

/-- The context without source text that replaces a schema or is added to it. -/
def Context.withoutText (context : Context) : Context :=
  { context with tags := context.tags.without Tags.overrideTag }

theorem override_without_text (ctx : Context) : ctx.withoutText.tags.override? = none := by
  simp [Context.withoutText, Tags.override?, Tags.get?, Tags.without]

/-- Source text is missing, or it is added to a schema, or it takes the place of one. -/
theorem override_cases (tags : Tags) :
    tags.override? = none ∨ ∃ text, tags.override? = some text ∧
      ((∃ added, text.toList = '.' :: added) ∨ ∀ added, text.toList ≠ '.' :: added) := by
  cases tags.override? with
  | none => exact .inl rfl
  | some text => exact .inr ⟨text, rfl, (Classical.em _).imp_right not_exists.1⟩

namespace Plan

/-- A plan without further jobs gives its schema. -/
theorem run_leaf (s : Compilation Schema) (compile : Job → Compilation Schema) :
    (leaf s).run compile = s := by
  simp only [run, leaf, mapM_nil, pure_bind]

/-- A plan that leaves everything to a job gives what that gives. -/
theorem run_through (job : Job) (compile : Job → Compilation Schema) :
    (through job).run compile = compile job := by
  simp only [run, through, mapM_cons, mapM_nil, bind_assoc, pure_bind, headD_cons, bind_pure]

end Plan

namespace Program

variable {α : Type} {env : Environment}

section Meanings

variable (p program : Program)

/-- One more body inside of an environment leaves one less. -/
theorem nestings_left_succ (depth : Nat) :
    p.nestingsLeft (depth + 1) = p.nestingsLeft depth - 1 := by
  unfold nestingsLeft
  split <;> omega

/-- How bodies are compiled depends on the depth of the environment alone. -/
theorem body_from_congr {a b : Environment} (h : a.depth = b.depth) :
    p.bodyFrom a = p.bodyFrom b := by
  simp only [bodyFrom, h]

/-- A body is compiled as long as a nesting is left, and what it enters is inside of it. -/
theorem body_from_eq (env : Environment) (e : Entry) (depth : Nat) (ctx : Context) :
    p.bodyFrom env e depth ctx =
      (do p.checkDepth e.name env
          bodySchema p (p.bodyFrom env.enter) e depth ctx) := by
  have hsucc := p.nestings_left_succ env.depth
  simp only [bodyFrom, checkDepth, show env.enter.depth = env.depth + 1 from rfl]
  rw [hsucc]
  cases p.nestingsLeft env.depth with
  | zero | succ => rfl

/-- What a binding means. -/
def boundMeaning (binding : Binding Environment) : Meaning :=
  meaning program (program.bodyFrom binding.environment) binding.type binding.environment
    (program.meaningsOf binding.environment)

/-- A key means what its binding means. -/
theorem meanings_of_eq (env : Environment) (key : Key) :
    p.meaningsOf env key = (env.binding? key).map p.boundMeaning := by
  obtain ⟨depth, bindings⟩ := env
  simp only [meaningsOf, Environment.binding?, Environment.bindings]
  induction bindings with
  | nil => rfl
  | cons b rest ih =>
    obtain ⟨name, type, env⟩ := b
    by_cases h : name.key? = some key
    · simp [meaningsIn, h, boundMeaning]
    · simp [meaningsIn, h, ih]

/-- Binding a name gives its key the new meaning and leaves the others. -/
theorem meanings_of_bind (hk : name.key = .ok key) (hbind : env.bind name type read = .ok bound) :
    p.meaningsOf bound = (p.meaningsOf env).bind key (p.boundMeaning ⟨name, type, read⟩) := by
  obtain ⟨depth, bindings⟩ := env
  simp only [Environment.bind, hk, bind, Except.bind, pure, Except.pure, Except.ok.injEq,
    Environment.depth, Environment.bindings] at hbind
  subst hbind
  have hn : name.key? = some key := by
    unfold Json.key at hk
    split at hk <;> simp_all
  funext other
  simp only [Meanings.bind, meanings_of_eq, Environment.binding?, Environment.bindings]
  induction bindings with
  | nil =>
    by_cases h : key = other
    · simp [Environment.putBinding, hn, h]
    · simp [Environment.putBinding, hn, h, Ne.symm h]
  | cons b rest ih =>
    by_cases ha : b.name.key? = some key
    · by_cases h : key = other
      · simp [Environment.putBinding, ha, h, boundMeaning]
      · simp [Environment.putBinding, ha, h, Ne.symm h]
    · by_cases hother : b.name.key? = some other
      · have h : other ≠ key := fun h => ha (h ▸ hother)
        simp [Environment.putBinding, hother, h]
      · simpa [Environment.putBinding, ha, hother] using ih

end Meanings

section Entering

variable (p : Program)

/-- Parameters are bound to types, and mean what these mean. -/
theorem bind_parameters_eq (caller : Environment) (params : List GenericParameter)
    (args : List TypeExpr) (inner : Environment) :
    bindParameters p (p.bodyFrom inner) params
        (typeArguments p (p.bodyFrom caller) args caller
          (p.meaningsOf caller)) inner (p.meaningsOf inner) =
      (bindTypes caller params args inner).map fun bound =>
        (bound, p.meaningsOf bound) := by
  induction params generalizing args inner with
  | nil => cases args <;> rfl
  | cons param rest ih =>
    obtain ⟨name, bound, default⟩ := param
    -- A parameter is bound in the same way to an argument and to its default.
    have hbound (type : TypeExpr) (read : Environment) (left : List TypeExpr) :
        (do let key ← name.key
            bindParameters p (p.bodyFrom inner) rest
              (typeArguments p (p.bodyFrom caller) left caller (p.meaningsOf caller))
              (← inner.bind name type read)
              ((p.meaningsOf inner).bind key (p.boundMeaning ⟨name, type, read⟩))) =
          (do bindTypes caller rest left (← inner.bind name type read)).map fun bound =>
            (bound, p.meaningsOf bound) := by
      cases hk : name.key with
      | error => simp [Environment.bind, hk, bind, Except.bind, Except.map]
      | ok key =>
        cases hbind : inner.bind name type read with
        | error => rfl
        | ok next =>
          have hnext := ih left next
          rw [p.body_from_congr (Environment.depth_bind hbind),
            p.meanings_of_bind hk hbind] at hnext
          exact hnext
    cases args with
    | nil =>
      cases default with
      | none => simpa [bindParameters, bindTypes, typeArguments] using ih [] inner
      | some type => exact hbound type inner []
    | cons arg others => exact hbound arg caller others

/-- The arguments of a reference keep their types. -/
theorem map_type_arguments (body : Body) (env : Environment) (meanings : Meanings)
    (args : List TypeExpr) : (typeArguments p body args env meanings).map Argument.type = args := by
  induction args with
  | nil => rfl
  | cons arg rest ih => simp [typeArguments, ih]

/-- A declaration is entered in the environment of its instantiation. -/
theorem enter_eq (caller : Environment) (params : List GenericParameter) (name : Name)
    (args : List TypeExpr) :
    enter p (p.bodyFrom caller.enter) params (.reference name args)
        (typeArguments p (p.bodyFrom caller) args caller (p.meaningsOf caller)) caller.depth =
      (do let inner ← instantiation params name args caller
          return (inner, p.meaningsOf inner)) := by
  have h : bindParameters p (p.bodyFrom caller.enter) params
      (typeArguments p (p.bodyFrom caller) args caller
        (p.meaningsOf caller)) (.mk (caller.depth + 1) []) (fun _ => none) = _ :=
    p.bind_parameters_eq caller params args caller.enter
  rw [enter, h, instantiation]
  cases bindTypes caller params args caller.enter with
  | error => rfl
  | ok => cases (TypeExpr.reference name args).text <;> rfl

end Entering

section Reserved

variable (p : Program)

/-- Two names are the same when they have the same key. -/
theorem same_iff_key {a b : Name} (hk : b.key? = some key) :
    a.same b = true ↔ a.key? = some key := by
  cases a with
  | arr | obj => cases b <;> simp_all [Json.same, Json.key?]
  | _ =>
    simp only [Json.same, hk]
    split <;> simp_all

theorem key?_of_key (hk : name.key = .ok key) : name.key? = some key := by
  unfold Json.key at hk
  split at hk <;> simp_all

/-- Without a name, its key means nothing, and the others mean what they did. -/
theorem meanings_of_without (env : Environment) (hk : name.key = .ok key) :
    p.meaningsOf (env.without name) = (p.meaningsOf env).without key := by
  obtain ⟨depth, bindings⟩ := env
  funext other
  simp only [Meanings.without, meanings_of_eq, Environment.binding?, Environment.bindings,
    Environment.without]
  induction bindings with
  | nil => simp
  | cons b rest ih =>
    have hsame : b.name.same name = true ↔ b.name.key? = some key := same_iff_key (key?_of_key hk)
    by_cases ha : b.name.key? = some key
    · by_cases h : key = other
      · simpa [hsame.2 ha, ha, h] using ih
      · simpa [hsame.2 ha, ha, h] using ih
    · have hkept : b.name.same name = false := Bool.eq_false_iff.2 fun h => ha (hsame.1 h)
      by_cases hother : b.name.key? = some other
      · have h : other ≠ key := fun h => ha (h ▸ hother)
        simp [hkept, hother, h]
      · simpa [hkept, hother] using ih

end Reserved

section Lists

variable (p : Program) (env)

/-- What follows a list of jobs is given as many schemas. -/
theorem mapM_bind_congr {compile : Job → Compilation Schema} {jobs : List Job}
    {a b : List Schema → Compilation α} (h : ∀ ss, ss.length = jobs.length → a ss = b ss) :
    (jobs.mapM compile >>= a) = (jobs.mapM compile >>= b) := by
  induction jobs generalizing a b with
  | nil => simpa only [mapM_nil, pure_bind] using h [] rfl
  | cons job rest ih =>
    simp only [mapM_cons, bind_assoc, pure_bind]
    congr 1
    funext s
    exact ih fun ss hlen => h (s :: ss) (by simp [hlen])

/-- The schemas of types are those of their jobs. -/
theorem type_schemas_eq (types : List TypeExpr) :
    typeSchemas p (p.bodyFrom env) types env (p.meaningsOf env) =
      (types.map fun type => (⟨type, env, {}⟩ : Job)).mapM p.compile := by
  induction types with
  | nil => simp [typeSchemas]
  | cons type rest ih => simp [typeSchemas, ih, compile]

/-- The schemas of the arms that are kept are those of their jobs. -/
theorem arm_schemas_eq (arms : List TypeExpr) :
    armSchemas p (p.bodyFrom env) arms env (p.meaningsOf env) =
      ((arms.filter (!·.isNull)).map fun type => (⟨type, env, {}⟩ : Job)).mapM p.compile := by
  induction arms with
  | nil => simp [armSchemas]
  | cons arm rest ih => cases h : arm.isNull <;> simp [armSchemas, h, ih, compile]

/-- The schema of the only arm that is kept, or of null if there is none. -/
theorem only_arm_schema_eq (arms : List TypeExpr) (ctx : Context) :
    onlyArmSchema p (p.bodyFrom env) arms env (p.meaningsOf env) ctx =
      match arms.filter (!·.isNull) with
      | [] => p.finish { ctx with nullable := false } (.call "null" [])
      | arm :: _ => p.compile ⟨arm, env, ctx⟩ := by
  induction arms with
  | nil => simp [onlyArmSchema]
  | cons arm rest ih => cases h : arm.isNull <;> simp [onlyArmSchema, h, ih, compile]

/-- The schemas of the elements of a tuple are those of their jobs. -/
theorem slot_schemas_eq (elements : List TypeExpr) :
    slotSchemas p (p.bodyFrom env) false elements env (p.meaningsOf env) =
      (elements.map (slotJob env)).mapM p.compile := by
  induction elements with
  | nil => simp [slotSchemas]
  | cons elt rest ih => cases elt <;> simp [slotSchemas, slotJob, ih, compile]

/-- An element that is spread has no schema of its own. -/
theorem slot_schemas_spread_eq (elements : List TypeExpr) (t : TypeExpr) :
    slotSchemas p (p.bodyFrom env) true (elements ++ [.spread t]) env (p.meaningsOf env) =
      (elements.map (slotJob env)).mapM p.compile := by
  induction elements with
  | nil => simp [slotSchemas]
  | cons elt rest ih => cases elt <;> simp [slotSchemas, slotJob, ih, compile]

/-- Only the last element of a tuple can be spread. -/
theorem spread_schema_append (body : Body) (meanings : Meanings) (elements : List TypeExpr)
    (last : TypeExpr) :
    spreadSchema p body (elements ++ [last]) env meanings =
      spreadSchema p body [last] env meanings := by
  induction elements with
  | nil => rfl
  | cons elt rest ih =>
    rw [← ih]
    cases rest <;> simp [spreadSchema]

/-- The schemas of the parameters of a function are those of their jobs. -/
theorem parameter_schemas_eq (params : List (Parameter TypeExpr)) :
    parameterSchemas p (p.bodyFrom env) params env (p.meaningsOf env) =
      (params.map (parameterJob env)).mapM p.compile := by
  induction params with
  | nil => simp [parameterSchemas]
  | cons param rest ih =>
    obtain ⟨name, type, optional⟩ := param
    cases type <;>
      simp [parameterSchemas, parameterJob, ih, compile, inContext, Tags.override?, Tags.get?,
        typeSchema]

/-- The properties of an object are the names of its members with the schemas of their jobs. -/
theorem member_schemas_eq (off : Option Context) (ms : List (Member TypeExpr)) :
    memberSchemas p (p.bodyFrom env) off ms env (p.meaningsOf env) =
      (do let named := p.memberJobs off env ms
          let ss ← (named.map (·.2)).mapM p.compile
          return (named.map (·.1)).zip ss) := by
  induction ms with
  | nil => simp [memberSchemas, memberJobs]
  | cons m rest ih =>
    obtain ⟨name, type, optional, readonly, tags⟩ := m
    cases type with
    | none =>
      rw [memberSchemas, ih]
      simp only [memberJobs, filterMap_cons, Option.map_none]
    | some =>
      rw [memberSchemas, ih]
      simp only [memberJobs, filterMap_cons, Option.map_some, map_cons,
        mapM_cons, bind_assoc, pure_bind, zip_cons_cons]
      rfl

/-- An object is compiled by its plan. -/
theorem object_schema_eq (off : Option Context) (ms : List (Member TypeExpr))
    (index : Option (IndexSignature TypeExpr)) (finish : Schema → Compilation Schema) :
    (do let es ← memberSchemas p (p.bodyFrom env) off ms env
          (p.meaningsOf env)
        let v ← indexSchema p (p.bodyFrom env) index env
          (p.meaningsOf env)
        finish (objectSchema es v)) =
      (p.objectPlan off env ms index finish).run p.compile := by
  rw [member_schemas_eq, Plan.run, objectPlan, mapM_append]
  simp only [bind_assoc, pure_bind]
  refine mapM_bind_congr fun ss hlen => ?_
  rw [length_map] at hlen
  cases index with
  | none => simp [indexSchema, ← hlen]
  | some sig =>
    have hv : indexSchema p (p.bodyFrom env) (some sig) env (p.meaningsOf env) =
        some <$> p.compile (indexJob env sig) := by
      obtain ⟨name, key, type⟩ := sig
      cases type <;>
        simp [indexSchema, indexJob, compile, inContext, Tags.override?, Tags.get?, typeSchema]
    have hzip (v : Schema) :
        ((p.memberJobs off env ms).map (·.1)).zip (ss ++ [v]) =
          ((p.memberJobs off env ms).map (·.1)).zip ss := by
      have happend := @zip_append _ _ ((p.memberJobs off env ms).map (·.1))
        [] ss [v] (by simp [hlen])
      simpa using happend
    rw [hv]
    simp only [Option.map_some, Option.toList_some, mapM_cons, mapM_nil, bind_assoc,
      pure_bind, bind_map_left, hzip]
    simp [← hlen]

end Lists

section Elements

variable (p program : Program)

/-- How elements are compiled that were found. -/
def elementsFrom (found : Option (TypeExpr × Environment)) :
    Option (Context → Compilation Schema) :=
  found.map fun (type, environment) context => program.compile ⟨type, environment, context⟩

/-- The elements of a type that is not followed to what a parameter stands for. -/
theorem element_schema_of (env : Environment) (inside : Bool) (t : TypeExpr)
    (h : inside = true → ∀ name, t.unwrap ≠ .reference name []) :
    elementSchema p (p.bodyFrom env) inside inside t env (p.meaningsOf env) =
      .ok (p.elementsFrom (elementOf? env t)) := by
  fun_induction TypeExpr.unwrap t with
  | case1 t ih => simpa [elementSchema, elementOf?, TypeExpr.unwrap] using ih h
  | case2 t hparen =>
    cases t with
    | reference name args =>
      cases args with
      | nil =>
        cases inside <;> simp_all [elementSchema, elementOf?, TypeExpr.unwrap, elementsFrom]
      | cons =>
        by_cases hn : name.isOneOf arrayNames = true <;>
          simp [elementSchema, elementOf?, TypeExpr.unwrap, elementsFrom, compile, hn]
    | paren t => exact absurd rfl (hparen t)
    | _ => simp [elementSchema, elementOf?, TypeExpr.unwrap, elementsFrom, compile]

/-- Parentheses do not matter when a bound type is followed. -/
theorem element_schema_unwrap (body : Body) (env : Environment) (meanings : Meanings)
    (t : TypeExpr) :
    elementSchema p body true true t env meanings =
      elementSchema p body true true t.unwrap env meanings := by
  fun_induction TypeExpr.unwrap t with
  | case1 t ih => simp only [elementSchema, ih]
  | case2 => rfl

mutual

/-- The elements of a bound type are those of the array that it leads to. -/
theorem element_schema_eq : ∀ (env : Environment) (type : TypeExpr),
    elementSchema p (p.bodyFrom env) true true type env (p.meaningsOf env) =
      (elementType env type.unwrap).map p.elementsFrom
  | .mk depth bindings, type => by
      by_cases h : ∃ name, type.unwrap = .reference name []
      · obtain ⟨name, h⟩ := h
        rw [element_schema_unwrap, h, elementType]
        cases hk : name.key with
        | error =>
          simp [elementSchema, Environment.resolve, hk, Except.map, bind, Except.bind]
        | ok key =>
          have hbound := element_schema_in bindings key
          simp only [elementSchema, meaningsOf, hk, Environment.resolve, if_true, bind, Except.bind]
          cases hmeaning : meaningsIn p bindings key <;>
            cases hf : Environment.resolveIn bindings key <;>
            simp only [hmeaning, hf, Option.map_some, Option.map_none, reduceCtorEq,
              Option.some.injEq] at hbound
          · rfl
          · rename_i found
            simp only [hbound, Option.getD_some]
            cases found <;> rfl
      · rw [p.element_schema_of _ _ _ (fun _ name hn => h ⟨name, hn⟩), elementType,
          Environment.resolve_of_ne (fun name hn => h ⟨name, hn⟩)]
        simp [Except.map, elementOf?, TypeExpr.unwrap_unwrap]

/-- The elements that the binding of a key means are those of the array that it leads to. -/
theorem element_schema_in : ∀ (bindings : List (Binding Environment)) (key : Key),
    (meaningsIn p bindings key).map Meaning.elements =
      (Environment.resolveIn bindings key).map fun found =>
        found.map fun (type, env) => p.elementsFrom (elementOf? env type)
  | [], _ => rfl
  | ⟨name, type, env⟩ :: rest, key => by
      by_cases h : name.key? = some key
      · simp only [meaningsIn, Environment.resolveIn, h, if_true, Option.map_some, meaning,
          element_schema_eq env type, elementType]
        cases env.resolve type.unwrap <;> rfl
      · simp only [meaningsIn, Environment.resolveIn, h, if_false, element_schema_in rest key]

end

/-- The elements of the type of a rest element are those of the array that it leads to. -/
theorem rest_element_schema_eq (env : Environment) (t : TypeExpr) :
    elementSchema p (p.bodyFrom env) false true t env (p.meaningsOf env) =
      (elementType env t).map p.elementsFrom := by
  by_cases h : ∃ name, t = .reference name []
  · obtain ⟨name, rfl⟩ := h
    have heq := p.element_schema_eq env (.reference name [])
    simpa only [elementSchema, TypeExpr.unwrap] using heq
  · have hfollow : elementSchema p (p.bodyFrom env) false true t env (p.meaningsOf env) =
        elementSchema p (p.bodyFrom env) false false t env (p.meaningsOf env) := by
      cases t with
      | reference name args => cases args <;> simp_all [elementSchema]
      | _ => simp only [elementSchema]
    rw [hfollow, p.element_schema_of _ _ _ (by simp), elementType,
      Environment.resolve_of_ne (fun name hn => h ⟨name, hn⟩)]
    rfl

/-- The elements that the last element of a tuple spreads are compiled as their type is. -/
theorem spread_schema_eq (env : Environment) (elements : List TypeExpr) :
    spreadSchema p (p.bodyFrom env) elements env (p.meaningsOf env) =
      (spreadType env elements).map p.elementsFrom := by
  obtain rfl | ⟨front, last, rfl⟩ := eq_nil_or_concat elements
  · rfl
  · rw [concat_eq_append, spread_schema_append]
    cases last with
    | spread type =>
      simpa [spreadSchema, spreadType] using p.rest_element_schema_eq env type
    | _ => simp [spreadSchema, spreadType, Except.map, elementsFrom]

end Elements

section References

variable (p : Program) {params : List GenericParameter} {args : List TypeExpr}

/-- An interface is compiled by its plan. -/
theorem interface_schema_eq (d : Interface) (env : Environment)
    (off : Option Context) (ctx : Context) :
    interfaceSchema p (p.bodyFrom env) d env (p.meaningsOf env) off ctx =
      (do (← p.interfacePlan off env d ctx).run p.compile) := by
  unfold interfaceSchema interfaceBody interfacePlan
  cases d.heritage with
  | nil =>
    simp only [bind_assoc, pure_bind]
    exact p.object_schema_eq env off d.members d.index fun s => p.finish ctx (s.withModifiers _)
  | cons c rest =>
    dsimp only
    split
    · rfl
    · simp only [member_schemas_eq, bind_assoc, pure_bind, Plan.run]
      congr 1
      funext ss
      congr 1
      funext chain
      cases chain <;> rfl

/-- A reserved interface is compiled by the plan of its use, in the environment of its body. -/
theorem reserved_schema_eq (d : Interface) (env outer : Environment) (name : Name) (ctx : Context) :
    reservedSchema p (p.bodyFrom env) d env (p.meaningsOf env) ctx =
      (do let use ← p.reservedUse d env
          (← p.usePlan outer ctx name use).run p.compile) := by
  unfold reservedSchema reservedUse
  rcases d.parameters with _ | ⟨param, _ | ⟨b, rest⟩⟩
  · rfl
  · dsimp only
    cases offContext p param env with
    | error => rfl
    | ok =>
      cases hk : param.name.key with
      | error => rfl
      | ok =>
        simp only [Traced.lift_ok, pure_bind, usePlan]
        rw [← p.meanings_of_without env hk, ← interface_schema_eq]
        rfl
  · rfl

/-- The arguments of a reference, one for each type. -/
theorem type_arguments_eq (body : Body) (env : Environment) (meanings : Meanings)
    (args : List TypeExpr) :
    typeArguments p body args env meanings =
      args.map fun type =>
        ⟨type, env, meaning p body type env meanings⟩ := by
  induction args with
  | nil => rfl
  | cons arg rest ih => simp [typeArguments, meaning, ih]

/-- Binding parameters leaves the depth. -/
theorem depth_bind_types {caller inner : Environment}
    (h : bindTypes caller params args inner = .ok bound) : bound.depth = inner.depth := by
  fun_induction bindTypes caller params args inner with
  | case1 => simp_all
  | case2 _ _ _ _ _ ih | case3 _ _ _ _ _ ih =>
    obtain ⟨next, hbind, h⟩ := bind_eq_ok_iff.1 h
    rw [ih next h, Environment.depth_bind hbind]
  | case4 name bound rest inner ih => exact ih h

/-- What follows an instantiation is done one level deeper. -/
theorem instantiation_bind_congr {a b : Environment → Compilation α}
    (h : ∀ inner, inner.depth = env.enter.depth → a inner = b inner) :
    (instantiation params name args env >>= a) = (instantiation params name args env >>= b) := by
  unfold instantiation
  cases hbind : bindTypes env params args env.enter with
  | error => rfl
  | ok inner =>
    simp only [Traced.lift_ok, pure_bind, bind_assoc, h inner (depth_bind_types hbind)]

/-- The declaration of a name is the one of its key. -/
theorem find_of_key (hk : name.key = .ok key) : p.find name = .ok (p.declaration? key) := by
  rw [find, hk]
  rfl

/-- The generic declarations that are entered are those with parameters, if there are arguments. -/
theorem filter_generic {args : List Argument} {types : List TypeExpr} (reference : TypeExpr)
    (h : args.isEmpty = types.isEmpty) (found : Option Declaration) :
    (found.filter fun decl => !types.isEmpty && !decl.parameters.isEmpty) =
      match Entry.ofGeneric? reference args found with
      | some _ => found
      | none => none := by
  rcases found with _ | ⟨d | d | d⟩
  · rfl
  · cases hts : types.isEmpty <;> cases hparams : d.parameters <;>
      simp [Entry.ofGeneric?, Declaration.parameters, h, hts, hparams]
  · cases hts : types.isEmpty <;> cases hparams : d.parameters <;>
      simp [Entry.ofGeneric?, Declaration.parameters, h, hts, hparams]
  · simp [Entry.ofGeneric?, Declaration.parameters]

/-- A generic declaration that is entered is compiled by the plan of its use. -/
theorem body_schema_eq (decl : Declaration) (name : Name) (args : List TypeExpr)
    (env : Environment) (ctx : Context) (e : Entry)
    (he : Entry.ofGeneric? (.reference name args)
      (typeArguments p (p.bodyFrom env) args env (p.meaningsOf env)) (some decl) = some e) :
    p.bodyFrom env e env.depth ctx =
      (do p.checkDepth decl.name env
          let inner ← instantiation decl.parameters name args env
          let use ← p.genericUse inner decl
          (← p.usePlan env ctx name use).run p.compile) := by
  rw [body_from_eq]
  cases decl with
  | enumeration => simp [Entry.ofGeneric?] at he
  | typeAlias d =>
    simp only [Entry.ofGeneric?, Option.ite_none_left_eq_some, Option.some.injEq] at he
    obtain ⟨-, rfl⟩ := he
    simp only [bodySchema, enter_eq, genericUse, bind_assoc, pure_bind, Entry.name,
      Declaration.name, Declaration.parameters, usePlan, Plan.run_through]
    congr 1
    funext _
    refine instantiation_bind_congr fun inner hdepth => ?_
    rw [p.body_from_congr hdepth.symm]
    rfl
  | interface d =>
    simp only [Entry.ofGeneric?, Option.ite_none_left_eq_some, Option.some.injEq] at he
    obtain ⟨-, rfl⟩ := he
    simp only [bodySchema, enter_eq, genericUse, bind_assoc, pure_bind, Entry.name,
      Declaration.name, Declaration.parameters]
    congr 1
    funext _
    refine instantiation_bind_congr fun inner hdepth => ?_
    rw [p.body_from_congr hdepth.symm]
    congr 1
    funext reserved
    cases reserved with
    | some d => exact p.reserved_schema_eq d inner env name ctx
    | none => exact p.interface_schema_eq d inner none ctx

/-- A name that is not entered is compiled by its plan. -/
theorem name_schema_eq (name : Name) (env : Environment) (ctx : Context) (use : NameUse TypeExpr) :
    p.nameSchema
        (fun type => (meaning p (p.bodyFrom env) type env
          (p.meaningsOf env)).schema) name env ctx use =
      (p.namePlan env ctx name use).run p.compile := by
  have hs : (fun type => (meaning p (p.bodyFrom env) type env (p.meaningsOf env)).schema) =
      fun type ctx => p.compile ⟨type, env, ctx⟩ := rfl
  rw [hs]
  cases use with
  | record key v =>
    have hany : p.keywordSchema .any {} = p.compile ⟨.keyword .any, env, {}⟩ := by
      simp [compile, inContext, Tags.override?, Tags.get?, typeSchema]
    cases v <;> cases key <;> simp [nameSchema, namePlan, Plan.run, hany]
  | call =>
    simp only [nameSchema, namePlan, Plan.run, mapM_map]
    rfl
  | adjusted => simp only [nameSchema, namePlan, Plan.run_through]
  | _ => simp [nameSchema, namePlan, Plan.run, Plan.leaf, arraySchema]

/-- A reference is compiled by the plan of its use. -/
theorem reference_schema_eq (name : Name) (args : List TypeExpr) (env : Environment)
    (ctx : Context) :
    p.referenceSchema (p.bodyFrom env) name
        (typeArguments p (p.bodyFrom env) args env (p.meaningsOf env)) env (p.meaningsOf env) ctx =
      (do let use ← p.use env name args
          (← p.usePlan env ctx name use).run p.compile) := by
  unfold referenceSchema use
  cases hk : name.key with
  | error => rfl
  | ok key =>
    simp only [Traced.lift_ok, pure_bind, meanings_of_eq, p.find_of_key hk]
    cases env.binding? key with
    | some =>
      simp only [Option.map_some, pure_bind, usePlan, Plan.run_through]
      rfl
    | none =>
      -- Whether a generic declaration is entered depends only on there being arguments.
      have hempty : (typeArguments p (p.bodyFrom env) args env
          (p.meaningsOf env)).isEmpty = args.isEmpty := by
        cases args <;> rfl
      simp only [Option.map_none, map_type_arguments]
      cases he : Entry.ofGeneric? (.reference name args)
          (typeArguments p (p.bodyFrom env) args env (p.meaningsOf env)) (p.declaration? key) with
      | some e =>
        rw [filter_generic _ hempty, he]
        cases hf : p.declaration? key with
        | none => simp [hf, Entry.ofGeneric?] at he
        | some decl =>
          rw [hf] at he
          have hbody := p.body_schema_eq decl name args env ctx e he
          simp only [hbody, bind_assoc]
      | none =>
        rw [filter_generic _ hempty, he]
        simp only [bind_assoc]
        congr 1
        funext reserved
        cases reserved with
        | some d =>
          have hreserved := p.reserved_schema_eq d env.enter env name ctx
          simp only [body_from_eq, bodySchema, bind_assoc, ← hreserved]
          rfl
        | none =>
          simp only [type_arguments_eq, name_use_map, bind_map_left, name_schema_map,
            bind_assoc, pure_bind, usePlan]
          congr 1
          funext use
          exact p.name_schema_eq name env ctx use

end References

section Equation

variable (p : Program) {text : String}

/-- Where elements are spread, the last element of a tuple is what spreads them. -/
theorem eq_append_spread {elements : List TypeExpr}
    {found : TypeExpr × Environment} (h : spreadType env elements = .ok (some found)) :
    ∃ front type, elements = front ++ [.spread type] := by
  unfold spreadType at h
  split at h
  · rename_i type hlast
    obtain ⟨front, hfront⟩ := getLast?_eq_some_iff.1 hlast
    exact ⟨front, type, hfront⟩
  · simp at h

/-- A type is compiled by its plan, except for what replaces or follows its schema as source
text. -/
theorem type_schema_eq (t : TypeExpr) (env : Environment) (ctx : Context) :
    typeSchema p (p.bodyFrom env) t env (p.meaningsOf env) ctx =
      (do (← p.typePlan env ctx t).run p.compile) := by
  cases t with
  | reference name args =>
    rw [typeSchema, typePlan, bind_assoc]
    exact p.reference_schema_eq name args env ctx
  | object ms index =>
    rw [typeSchema, typePlan, pure_bind]
    exact p.object_schema_eq env none ms index (p.finish ctx)
  | union arms =>
    rw [typeSchema, typePlan, only_arm_schema_eq, arm_schemas_eq]
    generalize arms.filter (fun arm => !arm.isNull) = kept
    rcases kept with _ | ⟨a, _ | ⟨b, rest⟩⟩
    · simp only [pure_bind, Plan.run_leaf]
      rfl
    · simp only [pure_bind, Plan.run_through]
      rfl
    · rfl
  | intersection arms =>
    cases arms with
    | nil => simp only [typeSchema, typePlan, pure_bind, Plan.run_leaf]
    | cons =>
      rw [typeSchema, typePlan, type_schemas_eq]
      simp only [pure_bind, Plan.run, map_cons, mapM_cons, bind_assoc]
      rfl
  | tuple elements =>
    rw [typeSchema, typePlan, spread_schema_eq, slot_schemas_eq]
    simp only [bind_assoc]
    congr 1
    funext mods
    cases hspread : spreadType env elements with
    | error => rfl
    | ok found =>
      cases found with
      | none => rfl
      | some =>
        obtain ⟨front, t, rfl⟩ := eq_append_spread hspread
        rw [slot_schemas_spread_eq, dropLast_concat, Traced.lift_ok, pure_bind]
        simp only [pure_bind, Plan.run, mapM_cons, bind_assoc]
        rfl
  | literal v => cases v <;> simp only [typeSchema, typePlan, pure_bind, Plan.run_leaf]
  | array =>
    simp only [typeSchema, typePlan, pure_bind, Plan.run, mapM_cons, mapM_nil,
      bind_assoc, arraySchema]
    rfl
  | function =>
    rw [typeSchema, typePlan, parameter_schemas_eq]
    simp only [pure_bind, Plan.run, mapM_append, mapM_cons, mapM_nil, bind_assoc,
      dropLast_concat, getLast?_concat]
    rfl
  | paren =>
    simp only [typeSchema, typePlan, pure_bind, Plan.run_through]
    rfl
  | indexed | template =>
    rw [typeSchema, typePlan, pure_bind]
    exact (Plan.run_leaf _ p.compile).symm
  | _ => simp only [typeSchema, typePlan, pure_bind, Plan.run_leaf]

omit p in
/-- A text that adds no modifier stands for the whole schema. -/
theorem in_context_replaced {compile : Context → Compilation Schema} {ctx : Context}
    (hoverride : ctx.tags.override? = some text) (htext : ∀ added, text.toList ≠ '.' :: added) :
    inContext compile ctx = pure (.verbatim text) := by
  rw [inContext, hoverride]
  dsimp only
  split
  · rename_i added hadded
    exact absurd hadded (htext added)
  · rfl

omit p in
/-- Text that replaces or follows a schema does so once. -/
theorem in_context_twice (compile : Context → Compilation Schema) (ctx : Context) :
    inContext (inContext compile) ctx = inContext compile ctx := by
  have hwithout : (ctx.tags.without Tags.overrideTag).override? = none := override_without_text ctx
  rcases override_cases ctx.tags with hnone | ⟨text, hoverride, ⟨added, htext⟩ | htext⟩
  · rw [inContext, hnone]
  · simp only [inContext, hoverride, htext, hwithout]
  · rw [in_context_replaced hoverride htext, in_context_replaced hoverride htext]

/-- The plan of a job that a text stands for is that text. -/
theorem plan_replaced {job : Job} (hoverride : job.context.tags.override? = some text)
    (htext : ∀ added, text.toList ≠ '.' :: added) :
    p.plan job = pure (.leaf (pure (.verbatim text))) := by
  rw [plan, hoverride]
  dsimp only
  split
  · rename_i added hadded
    exact absurd hadded (htext added)
  · rfl

/-- A job is done by its plan. -/
theorem compile_eq_run (job : Job) : p.compile job = (do (← p.plan job).run p.compile) := by
  rw [compile]
  rcases override_cases job.context.tags with hnone | ⟨text, hoverride, ⟨added, htext⟩ | htext⟩
  · rw [inContext, plan, hnone]
    exact p.type_schema_eq job.type job.environment job.context
  · rw [inContext, plan, hoverride]
    simp only [htext, type_schema_eq, bind_assoc, pure_bind, Plan.run]
  · rw [in_context_replaced hoverride htext, p.plan_replaced hoverride htext, pure_bind]
    exact (Plan.run_leaf _ p.compile).symm

/-- A type that is there is compiled in the context of its tags. -/
theorem schema_of_some (t : TypeExpr) (env : Environment) (tags : Tags) :
    p.schemaOf (some t) env tags = p.compile ⟨t, env, { tags := p.tags tags }⟩ := rfl

/-- A declaration is compiled by its plan. -/
theorem declaration_schema_eq (decl : Declaration) :
    p.declarationSchema decl = (do (← p.declarationPlan decl).run p.compile) := by
  cases decl with
  | enumeration => simp only [declarationSchema, declarationPlan, pure_bind, Plan.run_leaf]
  | typeAlias d =>
    simp only [declarationSchema, declarationPlan]
    split
    · rw [pure_bind, Plan.run_through]
      exact p.schema_of_some d.type .empty d.tags
    · rfl
  | interface d =>
    simp only [declarationSchema, declarationPlan, interfaceUse, bind_assoc]
    congr 1
    funext reserved
    cases reserved with
    | some special => exact p.reserved_schema_eq special .empty .empty d.name {}
    | none =>
      have hinterface := p.interface_schema_eq d .empty none {}
      cases d.parameters.isEmpty with
      | true => exact hinterface
      | false => rfl

end Equation

end Program

end Schemata
