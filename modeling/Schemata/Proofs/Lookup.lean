import Schemata.Proofs.WellTyped

/-!
# The recursions of lookup

Three recursions stand beside the one of jobs: following parameters to what they are bound to,
walking along an indexed access, and searching for a member through aliases and extended interfaces.
A function is `ComputedBy` a recursion when it follows its equation, each step needs only the values
at the calls it makes, and there is no endless chain of calls. `resolve_computed`,
`access_computed`, `indexed_type_computed` and `member_type_computed` say so of each of them.
-/

namespace Schemata

open List
open Traced (lift_ok lift_ok_iff)

variable {key : Key} {env inner : Environment} {type : TypeExpr}

/-- The values of a function come from one another step by step: a step needs only the values at its
calls, and no chain of calls is endless. -/
structure ComputedBy {ι α : Type} (step : (ι → α) → ι → α) (calls : ι → ι → Prop) (f : ι → α) :
    Prop where
  follows : ∀ task, f task = step f task
  needs : ∀ first second task, (∀ next, calls next task → first next = second next) →
    step first task = step second task
  ends : WellFounded calls

/-- A recursion that ends computes one function only. -/
theorem ComputedBy.unique {ι α : Type} {step : (ι → α) → ι → α} {calls : ι → ι → Prop}
    {f other : ι → α} (h : ComputedBy step calls f)
    (hother : ∀ task, other task = step other task) : other = f := by
  funext task
  induction task using h.ends.induction with
  | h task ih => rw [hother, h.follows, h.needs other f task ih]

/-- Inside all parentheses there are no parentheses. -/
theorem TypeExpr.unwrap_ne_paren (t inner : TypeExpr) : t.unwrap ≠ .paren inner := by
  fun_induction TypeExpr.unwrap t with
  | case1 t ih => exact ih
  | case2 t hparen => exact fun h => hparen inner h

section Options

variable {α β : Type} {found : Option α} {other : Option β}

theorem rel_imp {related holds : α → β → Prop} (h : Option.Rel related found other)
    (himp : ∀ v ∈ found, ∀ w ∈ other, related v w → holds v w) : Option.Rel holds found other := by
  cases h with
  | none => exact .none
  | some h => exact .some (himp _ rfl _ rfl h)

theorem rel_map {related : α → β → Prop} {f : α → β} (h : ∀ v ∈ found, related v (f v)) :
    Option.Rel related found (found.map f) := by
  cases found with
  | none => exact .none
  | some v => exact .some (h v rfl)

theorem rel_refl {related : α → α → Prop} (h : ∀ v ∈ found, related v v) :
    Option.Rel related found found := by
  simpa using rel_map (f := id) h

end Options

namespace Environment

/-- Two keys are bound to nothing, or to types that are related in the environments in which they
are written. -/
def BoundAlike (related : TypeExpr × Environment → TypeExpr × Environment → Prop)
    (first second : Environment) (key otherKey : Key) : Prop :=
  Option.Rel (fun binding other => related (binding.type, binding.environment)
    (other.type, other.environment)) (first.binding? key) (second.binding? otherKey)

variable {found : TypeExpr}

/-- One step of following a type as long as it is a bound parameter. -/
def resolveStep (recur : TypeExpr × Environment → Except Fault (TypeExpr × Environment)) :
    TypeExpr × Environment → Except Fault (TypeExpr × Environment)
  | (.reference name [], environment) => do
    match environment.binding? (← name.key) with
    | some binding => recur (binding.type.unwrap, binding.environment)
    | none => return (.reference name [], environment)
  | found => .ok found

/-- The next type, when a parameter is followed. -/
def Follows (next task : TypeExpr × Environment) : Prop :=
  ∃ binding ∈ task.2.bindings, next = (binding.type.unwrap, binding.environment)

/-- Parameters are followed one after the other, to an end. -/
theorem resolve_computed : ComputedBy resolveStep Follows fun task => task.2.resolve task.1 where
  follows := by
    rintro ⟨type, env⟩
    by_cases hn : ∃ name, type = .reference name []
    · obtain ⟨name, rfl⟩ := hn
      cases hk : name.key with
      | error =>
        obtain ⟨depth, bindings⟩ := env
        simp [resolveStep, resolve, hk, Bind.bind, Except.bind]
      | ok =>
        simp only [env.resolve_reference hk, resolveStep, hk, Bind.bind, Except.bind]
        rfl
    · simp only [resolve_of_ne fun name heq => hn ⟨name, heq⟩]
      cases type with
      | reference name args =>
        cases args with
        | nil => exact absurd ⟨name, rfl⟩ hn
        | cons => rfl
      | _ => rfl
  needs := by
    rintro first second ⟨type, env⟩ h
    unfold resolveStep
    split
    · rename_i name env heq
      cases heq
      cases hk : name.key with
      | error => rfl
      | ok key =>
        simp only [Bind.bind, Except.bind]
        split
        · rename_i b hb
          exact h _ ⟨b, mem_of_find?_eq_some hb, rfl⟩
        · rfl
    · rfl
  ends := by
    refine Subrelation.wf ?_ (measure fun task : TypeExpr × Environment => sizeOf task.2).wf
    rintro next task ⟨b, hb, rfl⟩
    exact size_of_binding hb

/-- The chain of a binding is the chain of its type. -/
theorem chain_in_eq (bindings : List (Binding Environment)) (key : Key) :
    chainIn bindings key =
      (bindings.find? fun b => b.name.key? = some key).map fun b =>
        b.environment.chain b.type := by
  induction bindings with
  | nil => rfl
  | cons b rest ih =>
    obtain ⟨name, type, env⟩ := b
    by_cases h : name.key? = some key
    · simp [chainIn, h]
    · simp [chainIn, h, ih]

/-- Parentheses do not matter for a chain. -/
theorem chain_unwrap (env : Environment) (t : TypeExpr) : env.chain t = env.chain t.unwrap := by
  obtain ⟨depth, bindings⟩ := env
  simp only [chain]
  fun_induction TypeExpr.unwrap t with
  | case1 t ih => simpa only [Chain.build] using ih
  | case2 => rfl

/-- The chain of a type that parameters were followed to. -/
def chainAt (environment : Environment) : TypeExpr → Chain
  | .indexed base index =>
    .index (.indexed base index) (IndexKey.ofType (some environment) index)
      (environment.chain base)
  | type => .root type

/-- The chain of a parameter is the one of what it is bound to. -/
theorem chain_reference (env : Environment) {name : Name} (hk : name.key = .ok key) :
    env.chain (.reference name []) =
      match env.binding? key with
      | some b => b.environment.chain b.type
      | none => .root (.reference name []) := by
  obtain ⟨depth, bindings⟩ := env
  unfold binding? Environment.bindings
  simp only [chain, Chain.build, chain_in_eq, hk, Bind.bind, Except.bind, pure, Except.pure]
  cases bindings.find? fun b => b.name.key? = some key <;> rfl

/-- The chain of a type is the one of the type that it leads to. -/
theorem chain_eq (env : Environment) (t : TypeExpr) :
    env.chain t =
      match env.resolve t.unwrap with
      | .ok (found, inner) => inner.chainAt found
      | .error reason => .broken reason := by
  rw [chain_unwrap]
  by_cases hn : ∃ name, t.unwrap = .reference name []
  · obtain ⟨name, hn⟩ := hn
    rw [hn]
    cases hk : name.key with
    | error =>
      obtain ⟨depth, bindings⟩ := env
      simp [chain, Chain.build, resolve, hk, Bind.bind, Except.bind]
    | ok key =>
      rw [env.chain_reference hk, env.resolve_reference hk]
      cases hb : env.binding? key with
      | none => rfl
      | some b =>
        have hsmaller := size_of_binding (mem_of_find?_eq_some hb)
        exact chain_eq b.environment b.type
  · rw [resolve_of_ne fun name heq => hn ⟨name, heq⟩]
    obtain ⟨depth, bindings⟩ := env
    simp only [chain]
    cases ht : t.unwrap with
    | reference name args =>
      cases args with
      | nil => exact absurd ⟨name, ht⟩ hn
      | cons => rfl
    | paren inner => exact absurd ht (t.unwrap_ne_paren inner)
    | indexed => simp only [Chain.build, chainAt, chain]
    | _ => rfl
termination_by sizeOf env

/-- A type that parameters were followed to is not in parentheses, leads to itself and is the type
that was started from, unless it is in a smaller environment. -/
theorem resolve_end {env inner : Environment} {t found : TypeExpr}
    (h : env.resolve t.unwrap = .ok (found, inner)) :
    found.unwrap = found ∧ inner.resolve found = .ok (found, inner) ∧
      (found = t.unwrap ∧ inner = env ∨ sizeOf inner < sizeOf env) := by
  rcases resolve_cases h with ⟨rfl, rfl⟩ | ⟨_, _, b, -, -, hb, hres⟩
  · exact ⟨t.unwrap_unwrap, h, .inl ⟨rfl, rfl⟩⟩
  · have hsmaller := size_of_binding (mem_of_find?_eq_some hb)
    obtain ⟨hun, hf, hi⟩ := resolve_end hres
    refine ⟨hun, hf, .inr ?_⟩
    rcases hi with ⟨-, rfl⟩ | hi
    · exact hsmaller
    · exact Nat.lt_trans hi hsmaller
termination_by sizeOf env

theorem chain_indexed (env : Environment) (base index : TypeExpr) :
    env.chain (.indexed base index) =
      .index (.indexed base index) (IndexKey.ofType (some env) index) (env.chain base) := by
  obtain ⟨depth, bindings⟩ := env
  rfl

/-- A type that parameters were followed to has a chain of its own. -/
theorem chain_of_resolve (h : env.resolve type.unwrap = .ok (found, inner)) :
    inner.chain found = inner.chainAt found := by
  obtain ⟨hun, hf, -⟩ := resolve_end h
  rw [chain_eq, hun, hf]

/-- A type in an environment is smaller than another one when the environment is, or in the same
environment the type. -/
def Smaller (next task : TypeExpr × Environment) : Prop :=
  sizeOf next.2 < sizeOf task.2 ∨ next.2 = task.2 ∧ sizeOf next.1 < sizeOf task.1

theorem smaller_well_founded : WellFounded Smaller := by
  refine Subrelation.wf ?_ (invImage (fun task : TypeExpr × Environment =>
    (sizeOf task.2, sizeOf task.1)) Prod.instWellFoundedRelation).wf
  rintro ⟨type, env⟩ ⟨other, outer⟩ h
  rcases h with h | ⟨rfl, h⟩
  · exact Prod.Lex.left _ _ h
  · exact Prod.Lex.right _ h

/-- The type inside of parentheses is not larger. -/
theorem size_unwrap_le (t : TypeExpr) : sizeOf t.unwrap ≤ sizeOf t := by
  fun_induction TypeExpr.unwrap t with
  | case1 =>
    simp
    omega
  | case2 => exact Nat.le_refl _

/-- What a part of a type leads to is smaller than the type. -/
theorem smaller_of_resolve {part : TypeExpr} (hpart : part ∈ type.parts)
    (h : env.resolve part.unwrap = .ok (found, inner)) : Smaller (found, inner) (type, env) := by
  obtain ⟨-, -, hend⟩ := resolve_end h
  rcases hend with ⟨rfl, rfl⟩ | hend
  · exact .inr ⟨rfl, Nat.lt_of_le_of_lt (size_unwrap_le part) (TypeExpr.size_of_mem_parts hpart)⟩
  · exact .inl hend

/-- What an index is taken of is smaller than a type that leads to the index. -/
theorem smaller_of_index {base index : TypeExpr}
    (h : env.resolve type.unwrap = .ok (.indexed base index, inner)) :
    Smaller (base, inner) (type, env) := by
  obtain ⟨-, -, ⟨ht, rfl⟩ | hsmaller⟩ := resolve_end h
  · have hle := size_unwrap_le type
    have hbase : base ∈ (TypeExpr.indexed base index).parts := mem_cons_self
    have hsize := TypeExpr.size_of_mem_parts hbase
    rw [← ht] at hle
    exact .inr ⟨rfl, Nat.lt_of_lt_of_le hsize hle⟩
  · exact .inl hsmaller

end Environment

/-- A parameter is followed to the type that it is bound to. -/
theorem Environment.resolve_name (env : Environment) (name : Name) :
    env.resolve (.reference name []) = do
      match env.binding? (← name.key) with
      | some b => b.environment.resolve b.type.unwrap
      | none => return (.reference name [], env) :=
  resolve_computed.follows (.reference name [], env)

/-- Where nothing is bound, a type leads to the same at all depths. -/
theorem Environment.substitute_unbound (depth : Nat) (t : TypeExpr) :
    (Environment.mk depth []).substitute t = Environment.empty.substitute t := by
  unfold substitute empty
  cases t with
  | reference name args =>
    cases args with
    | nil =>
      rw [resolve_name, resolve_name]
      cases name.key <;> rfl
    | cons => rfl
  | _ => rfl

/-- A function of environments that changes the types which are bound in them, at every depth, and
maybe how deep they are, but nothing else. -/
structure Environment.Mapping where
  type : TypeExpr → TypeExpr
  environment : Environment → Environment
  levels : Nat
  bindings : ∀ outer, (environment outer).bindings = outer.bindings.map fun binding =>
    ⟨binding.name, type binding.type, environment binding.environment⟩
  depth : ∀ outer, (environment outer).depth = outer.depth + levels

namespace Environment.Mapping

variable (mapping : Mapping) (outer : Environment)

/-- The binding with its type changed. -/
def binding (binding : Binding Environment) : Binding Environment :=
  ⟨binding.name, mapping.type binding.type, mapping.environment binding.environment⟩

theorem environment_eq :
    mapping.environment outer =
      .mk (outer.depth + mapping.levels) (outer.bindings.map mapping.binding) := by
  have hdepth := mapping.depth outer
  have hbindings := mapping.bindings outer
  generalize mapping.environment outer = other at hdepth hbindings
  obtain ⟨depth, bindings⟩ := other
  cases hdepth
  cases hbindings
  rfl

theorem binding_eq (key : Key) :
    (mapping.environment outer).binding? key = (outer.binding? key).map mapping.binding := by
  rw [binding?, binding?, mapping.bindings, find?_map]
  rfl

theorem bind_eq (name : Name) (t : TypeExpr) (read : Environment) :
    (mapping.environment outer).bind name (mapping.type t) (mapping.environment read) =
      (outer.bind name t read).map mapping.environment := by
  have hput (key : Key) (bindings : List (Binding Environment)) :
      putBinding key (mapping.binding ⟨name, t, read⟩) (bindings.map mapping.binding) =
        (putBinding key ⟨name, t, read⟩ bindings).map mapping.binding := by
    induction bindings with
    | nil => rfl
    | cons a rest ih =>
      rw [map_cons, putBinding, putBinding, ih]
      by_cases hn : a.name.key? = some key
      · rw [if_pos hn]
        exact if_pos hn
      · rw [if_neg hn]
        exact if_neg hn
  unfold Environment.bind
  cases name.key with
  | error => rfl
  | ok key =>
    refine congrArg Except.ok ?_
    rw [mapping.environment_eq (.mk _ _), mapping.bindings, mapping.depth]
    exact congrArg (Environment.mk _) (hput key outer.bindings)

theorem without_eq (name : Name) :
    (mapping.environment outer).without name = mapping.environment (outer.without name) := by
  rw [without, without, mapping.environment_eq (.mk _ _), mapping.bindings, mapping.depth,
    filter_map]
  rfl

theorem enter_eq : (mapping.environment outer).enter = mapping.environment outer.enter := by
  rw [enter, enter, mapping.environment_eq (.mk _ _), mapping.depth, Nat.add_right_comm]
  rfl

theorem empty_eq : mapping.environment .empty = .mk mapping.levels [] := by
  rw [mapping.environment_eq, Environment.empty, Environment.depth, Nat.zero_add]
  rfl

end Environment.Mapping

namespace Program

variable (p program : Program) {seen : List Key}

/-- One step of finding the declared type that an indexed access denotes. -/
def indexedTypeStep (recur : TypeExpr × Environment → Compilation (Option TypeExpr)) :
    TypeExpr × Environment → Compilation (Option TypeExpr)
  | (type, environment) => do
    let (found, inner) ← environment.resolve type.unwrap
    match found with
    | .reference name _ =>
      match ← program.find name with
      | some (.typeAlias declared) => return some declared.type
      | _ => return none
    | .indexed base index =>
      match ← IndexKey.ofType (some inner) index with
      | .property name => do
        let (object, deeper) ← inner.resolve base.unwrap
        let container ← match object with
          | .indexed _ _ => recur (object, deeper)
          | _ => pure (some object)
        program.memberType container (.str name)
      | _ => return none
    | _ => return none

/-- The next access, when the declared type of an indexed access is looked for. -/
def IndexedCalls (next task : TypeExpr × Environment) : Prop :=
  ∃ base index inner, task.2.resolve task.1.unwrap = .ok (.indexed base index, inner) ∧
    inner.resolve base.unwrap = .ok next

/-- Each access is looked for in a smaller environment, or it is a smaller type in the same one. -/
theorem indexed_calls_well_founded : WellFounded IndexedCalls := by
  refine Subrelation.wf ?_ Environment.smaller_well_founded
  rintro ⟨next, deeper⟩ ⟨type, env⟩ ⟨base, index, inner, hf, hnext⟩
  have hsmaller : Environment.Smaller (next, deeper) (.indexed base index, inner) :=
    Environment.smaller_of_resolve mem_cons_self hnext
  obtain ⟨-, -, hend⟩ := Environment.resolve_end hf
  have hle := Environment.size_unwrap_le type
  -- Finding the access kept the environment, or followed a binding into a smaller one.
  rcases hend with ⟨ht, rfl⟩ | hend
  · rw [← ht] at hle
    rcases hsmaller with hsmaller | ⟨rfl, hsmaller⟩
    · exact .inl hsmaller
    · exact .inr ⟨rfl, Nat.lt_of_lt_of_le hsmaller hle⟩
  · rcases hsmaller with hsmaller | ⟨rfl, hsmaller⟩
    · exact .inl (Nat.lt_trans hsmaller hend)
    · exact .inl hend

/-- The declared type of an indexed access is found step by step. -/
theorem indexed_type_computed :
    ComputedBy (indexedTypeStep p) IndexedCalls fun task =>
      p.chainType (task.2.chain task.1) where
  follows := by
    rintro ⟨type, env⟩
    unfold indexedTypeStep
    dsimp only
    rw [env.chain_eq]
    cases hf : env.resolve type.unwrap with
    | error => rfl
    | ok found =>
      obtain ⟨found, inner⟩ := found
      rw [lift_ok, pure_bind]
      cases found with
      | reference => rfl
      | indexed base index =>
        simp only [Environment.chainAt, chainType]
        congr 1
        funext key
        cases key with
        | property =>
          dsimp only
          rw [inner.chain_eq base]
          cases hobj : inner.resolve base.unwrap with
          | error => rfl
          | ok object =>
            obtain ⟨object, deeper⟩ := object
            have hchain := Environment.chain_of_resolve hobj
            rw [lift_ok, pure_bind]
            cases object with
            | indexed =>
              simp only [hchain]
              rfl
            | _ => rfl
        | _ => rfl
      | _ => rfl
  needs := by
    rintro a b ⟨type, env⟩ h
    unfold indexedTypeStep
    refine Traced.bind_congr fun found hf => ?_
    obtain ⟨found, inner⟩ := found
    cases found with
    | indexed base index =>
      refine Traced.bind_congr fun key hk => ?_
      cases key with
      | property name =>
        refine Traced.bind_congr fun object hobj => ?_
        obtain ⟨object, deeper⟩ := object
        cases object with
        | indexed next index =>
          dsimp only
          rw [h (.indexed next index, deeper) ⟨base, _, inner,
            lift_ok_iff.1 hf, lift_ok_iff.1 hobj⟩]
        | _ => rfl
      | _ => rfl
    | _ => rfl
  ends := indexed_calls_well_founded

/-- An indexed access in an environment, with the segments of the path that come later. -/
structure AccessTask where
  base : TypeExpr
  index : TypeExpr
  environment : Environment
  later : List String

/-- One step of turning an indexed access into a path. -/
def accessStep (recur : AccessTask → Compilation (Option Schema)) (task : AccessTask) :
    Compilation (Option Schema) := do
  let access := TypeExpr.indexed task.base task.index
  let key ← IndexKey.ofType (some task.environment) task.index
  let (object, inner) ← task.environment.resolve task.base.unwrap
  match object with
  | .indexed base index =>
    match ← program.segment access key (inner.chain object) with
    | none => return none
    | some segment => recur ⟨base, index, inner, segment :: task.later⟩
  | .reference name _ =>
    match ← program.segment access key (inner.chain object) with
    | none => return none
    | some segment => do
      let target ← program.reference name
      return some (.field (some target) (".".intercalate (segment :: task.later)))
  | other => do Compilation.reject (.indexedAccess (← other.text))

/-- The next access, when an indexed access is turned into a path. -/
def AccessCalls (next task : AccessTask) : Prop :=
  task.environment.resolve task.base.unwrap = .ok (.indexed next.base next.index, next.environment)

/-- An indexed access is turned into a path step by step. -/
theorem access_computed :
    ComputedBy (accessStep p) AccessCalls fun task =>
      p.accessChain (task.environment.chain (.indexed task.base task.index)) task.later where
  follows := by
    rintro ⟨base, index, env, later⟩
    unfold accessStep
    dsimp only
    rw [env.chain_indexed, accessChain]
    congr 1
    funext key
    rw [env.chain_eq base]
    cases hobj : env.resolve base.unwrap with
    | error => rfl
    | ok object =>
      obtain ⟨object, inner⟩ := object
      have hchain := Environment.chain_of_resolve hobj
      rw [lift_ok, pure_bind]
      cases object with
      | indexed | reference =>
        simp only [Environment.chainAt, checkObject, pure_bind]
        rewrite [hchain]
        rfl
      | _ =>
        simp only [Environment.chainAt, checkObject, bind_assoc]
        rfl
  needs := by
    rintro a b ⟨base, index, env, later⟩ h
    unfold accessStep
    refine Traced.bind_congr fun key _ => ?_
    refine Traced.bind_congr fun object hobj => ?_
    obtain ⟨object, inner⟩ := object
    cases object with
    | indexed =>
      refine Traced.bind_congr fun segment _ => ?_
      cases segment with
      | none => rfl
      | some => exact h _ (lift_ok_iff.1 hobj)
    | _ => rfl
  ends := by
    refine Subrelation.wf ?_ (InvImage.wf (fun task : AccessTask =>
      (TypeExpr.indexed task.base task.index, task.environment)) Environment.smaller_well_founded)
    intro next task h
    exact Environment.smaller_of_resolve mem_cons_self h

/-- One step of the search for a member, through names that were not seen before. -/
def memberStep (key : Json) (recur : List Key × TypeExpr → Compilation (Option TypeExpr)) :
    List Key × TypeExpr → Compilation (Option TypeExpr)
  | (seen, container) =>
    match container.unwrap with
    | .object members _ => return (findMember? members key).bind Member.type
    | .reference name _ => do
      let nameKey ← name.key
      if nameKey ∈ seen then return none
      let search (type : TypeExpr) := recur (nameKey :: seen, type)
      match program.declaration? nameKey with
      | some (.typeAlias declared) => search declared.type
      | some (.interface declared) =>
        match findMember? declared.members key with
        | some member => return member.type
        | none =>
          let searchName (name : Name) := search (.reference name [])
          match ← searchHeritage key searchName declared.heritage with
          | some type => return some type
          | none =>
            Compilation.note (.memberNotFound key name)
            return none
      | _ =>
        Compilation.note (.memberNotFound key name)
        return none
    | _ => return none

/-- The next container, when a declared name is followed for the first time. -/
def MemberCalls (next task : List Key × TypeExpr) : Prop :=
  ∃ key, next.1 = key :: task.1 ∧ key ∉ task.1 ∧ (program.declaration? key).isSome

/-- Whether the name of a declaration was not seen. -/
def isNew (seen : List Key) (declaration : Declaration) : Bool :=
  seen.all fun key => declaration.name.key? ≠ some key

/-- How many declarations have a name that was not seen. -/
def unseen (seen : List Key) : Nat :=
  program.unit.declarations.countP (isNew seen)

/-- Seeing the name of a declaration leaves fewer of them. -/
theorem unseen_cons_lt (hk : key ∉ seen) (hd : (p.declaration? key).isSome) :
    p.unseen (key :: seen) < p.unseen seen := by
  unfold declaration? at hd
  unfold unseen
  generalize p.unit.declarations = declarations at hd ⊢
  induction declarations with
  | nil => simp at hd
  | cons decl rest ih =>
    rw [countP_cons, countP_cons]
    by_cases hn : decl.name.key? = some key
    · have hmono : rest.countP (isNew (key :: seen)) ≤ rest.countP (isNew seen) :=
        countP_mono_left fun other _ h => by simp_all [isNew]
      have hnew : isNew seen decl = true := by
        simp only [isNew, hn, all_eq_true, decide_eq_true_eq, ne_eq, Option.some.injEq]
        exact fun other hother heq => hk (heq ▸ hother)
      have hseen : isNew (key :: seen) decl = false := by simp [isNew, hn]
      rw [hnew, hseen]
      simp only [Bool.false_eq_true, if_false, if_true]
      omega
    · have hsame : isNew (key :: seen) decl = isNew seen decl := by
        simp [isNew, hn]
      have hr := ih (by simpa [hn] using hd)
      rw [hsame]
      omega

/-- A step of the search needs the search only from names that were not seen. -/
theorem member_step_congr {key : Json} {a b : List Key × TypeExpr →
    Compilation (Option TypeExpr)} {task : List Key × TypeExpr}
    (h : ∀ next, p.MemberCalls next task → a next = b next) :
    memberStep p key a task = memberStep p key b task := by
  obtain ⟨seen, container⟩ := task
  unfold memberStep
  dsimp only
  split
  · rfl
  · refine Traced.bind_congr fun nameKey _ => ?_
    split
    · rfl
    · rename_i hseen
      cases hd : p.declaration? nameKey with
      | none => rfl
      | some decl =>
        have hsearch : (fun type => a (nameKey :: seen, type)) =
            fun type => b (nameKey :: seen, type) :=
          funext fun type => h _ ⟨nameKey, rfl, hseen, by simp [hd]⟩
        cases decl with
        | enumeration => rfl
        | typeAlias d => exact congrFun hsearch d.type
        | interface d =>
          have hn : (fun name => a (nameKey :: seen, .reference name [])) =
              fun name => b (nameKey :: seen, .reference name []) :=
            funext fun name => congrFun hsearch (.reference name [])
          simp only [hn]
  · rfl

/-- The search does not depend on how many steps it may take, if they are more than the declarations
that were not seen. -/
theorem member_type_within_eq (key : Json) {a b : Nat} (ha : p.unseen seen < a)
    (hsecond : p.unseen seen < b) (container : TypeExpr) :
    p.memberTypeWithin key a seen container = p.memberTypeWithin key b seen container := by
  induction a generalizing b seen container with
  | zero => omega
  | succ a ih =>
    cases b with
    | zero => omega
    | succ b =>
      change memberStep p key
          (fun task => p.memberTypeWithin key a task.1 task.2) (seen, container) =
        memberStep p key (fun task => p.memberTypeWithin key b task.1 task.2) (seen, container)
      refine p.member_step_congr ?_
      rintro ⟨next, type⟩ ⟨nameKey, rfl, hnew, hd⟩
      have hlt : p.unseen (nameKey :: seen) < p.unseen seen :=
        p.unseen_cons_lt hnew hd
      exact ih (Nat.lt_of_lt_of_le hlt (by omega)) (Nat.lt_of_lt_of_le hlt (by omega)) type

/-- The search for a member from names that were seen. -/
def memberFrom (key : Json) (task : List Key × TypeExpr) : Compilation (Option TypeExpr) :=
  program.memberTypeWithin key (program.unseen task.1 + 1) task.1 task.2

/-- The search for a member takes as many steps as it needs. -/
theorem member_type_eq (key : Json) (container : TypeExpr) :
    p.memberType (some container) key = p.memberFrom key ([], container) := by
  have hle : p.unseen [] ≤ p.unit.declarations.length := countP_le_length
  exact p.member_type_within_eq key (by omega) (Nat.lt_succ_self _) container

/-- A member is searched step by step. -/
theorem member_type_computed (key : Json) :
    ComputedBy (memberStep p key) p.MemberCalls (p.memberFrom key) where
  follows := by
    rintro ⟨seen, container⟩
    change memberStep p key (fun task => p.memberTypeWithin key (p.unseen seen) task.1 task.2)
        (seen, container) = _
    refine p.member_step_congr ?_
    rintro ⟨next, type⟩ ⟨nameKey, rfl, hnew, hd⟩
    have hlt := p.unseen_cons_lt hnew hd
    exact p.member_type_within_eq key hlt (Nat.lt_succ_self _) type
  needs := fun _ _ _ h => p.member_step_congr h
  ends := by
    refine Subrelation.wf ?_ (measure fun task : List Key × TypeExpr => p.unseen task.1).wf
    rintro ⟨next, type⟩ ⟨seen, container⟩ ⟨nameKey, rfl, hnew, hd⟩
    exact p.unseen_cons_lt hnew hd

end Program

end Schemata
