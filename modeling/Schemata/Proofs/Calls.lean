import Schemata.Proofs.Recursion

/-!
# What a job asks for

`TypeExpr.Within` says that a type is written inside of another one. `Entered` describes the
environments in which the body of a declaration is compiled: a fresh one, with parameters bound to
arguments in the environment of the caller or to defaults in the environment so far. `asked_of_plan`
tells all jobs that a plan can name, and `Calls` is the relation between a job and those.
-/

namespace Schemata

open List

variable {ms : List (Member TypeExpr)} {index : Option (IndexSignature TypeExpr)} {part : TypeExpr}
  {inner : Environment} {args : List TypeExpr} {name : Name} {declared : Interface} {use : Use}

namespace Traced

variable {ω α : Type}

/-- A value that is lifted is the result. -/
theorem lift_ok_iff {v : Except Fault α} {result : α} :
    (liftM v : Traced ω α).result = .ok result ↔ v = .ok result := by
  cases v with
  | error => constructor <;> intro h <;> cases h
  | ok => simp [lift_ok]

end Traced

section Parts

variable {type : TypeExpr}

/-- The types of an index signature. -/
def IndexSignature.types (signature : IndexSignature TypeExpr) : List TypeExpr :=
  signature.keyType.toList ++ signature.type.toList

/-- The types of an object type or of the body of an interface. -/
def objectTypes (members : List (Member TypeExpr)) (index : Option (IndexSignature TypeExpr)) :
    List TypeExpr :=
  members.filterMap Member.type ++ index.toList.flatMap IndexSignature.types

/-- The types that a type is made of. -/
def TypeExpr.parts : TypeExpr → List TypeExpr
  | .reference _ arguments => arguments
  | .object members index => objectTypes members index
  | .array element => [element]
  | .spread type => [type]
  | .named _ type _ => [type]
  | .tuple elements => elements
  | .union arms => arms
  | .intersection arms => arms
  | .function parameters result => parameters.filterMap Parameter.type ++ [result]
  | .template _ spans => spans.map TemplateSpan.type
  | .indexed base index => [base, index]
  | .paren type => [type]
  | _ => []

/-- The types in the body of a declaration. -/
def Declaration.bodyTypes : Declaration → List TypeExpr
  | .interface declared => objectTypes declared.members declared.index
  | .typeAlias declared => [declared.type]
  | .enumeration _ => []

/-- The defaults of the parameters of a declaration. -/
def Declaration.defaults (declaration : Declaration) : List TypeExpr :=
  declaration.parameters.filterMap GenericParameter.default

/-- The types of an object are smaller than anything that holds its members and its signature. -/
theorem size_of_mem_object_types (h : part ∈ objectTypes ms index) :
    sizeOf part < sizeOf ms ∨ sizeOf part < sizeOf index := by
  simp only [objectTypes, mem_append, mem_filterMap, mem_flatMap,
    Option.mem_toList, IndexSignature.types] at h
  rcases h with ⟨m, hm, ht⟩ | ⟨sig, rfl, ht⟩
  · left
    have hlt := sizeOf_lt_of_mem hm
    obtain ⟨name, type, optional, readonly, tags⟩ := m
    cases ht
    simp at hlt
    omega
  · right
    obtain ⟨name, key, type⟩ := sig
    rcases ht with rfl | rfl <;> simp <;> omega

/-- The parts of a type are smaller. -/
theorem TypeExpr.size_of_mem_parts (h : part ∈ type.parts) : sizeOf part < sizeOf type := by
  cases type with
  | object =>
    have hlt := size_of_mem_object_types h
    rw [object.sizeOf_spec]
    omega
  | function =>
    simp only [parts, mem_append, mem_filterMap, mem_singleton] at h
    rcases h with ⟨param, hparam, ht⟩ | rfl
    · have hlt := sizeOf_lt_of_mem hparam
      obtain ⟨name, type, optional⟩ := param
      cases ht
      simp at hlt ⊢
      omega
    · rw [function.sizeOf_spec]
      omega
  | template =>
    simp only [parts, mem_map] at h
    obtain ⟨span, hspan, rfl⟩ := h
    have hlt := sizeOf_lt_of_mem hspan
    obtain ⟨type, literal⟩ := span
    simp at hlt ⊢
    omega
  | reference _ types | tuple types | union types | intersection types =>
    have hlt : sizeOf part < sizeOf types := sizeOf_lt_of_mem h
    simp only [reference.sizeOf_spec, tuple.sizeOf_spec, union.sizeOf_spec,
      intersection.sizeOf_spec]
    omega
  | indexed =>
    simp only [parts, mem_cons, not_mem_nil, or_false] at h
    rw [indexed.sizeOf_spec]
    rcases h with rfl | rfl <;> omega
  | named =>
    cases mem_singleton.1 h
    rw [named.sizeOf_spec]
    omega
  | _ => simp_all [parts]

/-- What holds of a type when it holds of its parts holds of all types. -/
theorem TypeExpr.parts_induction {motive : TypeExpr → Prop}
    (h : ∀ t, (∀ part ∈ t.parts, motive part) → motive t) (t : TypeExpr) : motive t := by
  induction hsize : sizeOf t using Nat.strongRecOn generalizing t with
  | ind size ih =>
    subst hsize
    exact h t fun part hpart => ih (sizeOf part) (size_of_mem_parts hpart) part rfl

/-- A type that is written inside of another one, at any depth. -/
inductive TypeExpr.Within : TypeExpr → TypeExpr → Prop where
  | part {part type : TypeExpr} (h : part ∈ type.parts) : Within part type
  | deeper {inner part type : TypeExpr} (hinner : Within inner part) (h : part ∈ type.parts) :
      Within inner type

/-- A type inside of another one is smaller. -/
theorem TypeExpr.Within.size_lt {inner : TypeExpr} (h : Within inner type) :
    sizeOf inner < sizeOf type := by
  induction h with
  | part h => exact size_of_mem_parts h
  | deeper hi h ih => exact Nat.lt_trans ih (size_of_mem_parts h)

/-- What is inside of a part is inside of the whole, and so is the type inside of parentheses. -/
theorem TypeExpr.within_of_mem_parts_unwrap (h : part ∈ type.unwrap.parts) : Within part type := by
  fun_induction unwrap type with
  | case1 type ih => exact .deeper (ih h) (mem_singleton.2 rfl)
  | case2 => exact .part h

end Parts

namespace Program

variable (program : Program)

/-- The environments in which the body of a declaration is compiled, given those of the caller. -/
inductive Entered (declaration : Declaration) (caller : Environment) (arguments : List TypeExpr) :
    Environment → Prop where
  | enter : Entered declaration caller arguments caller.enter
  | argument {inner : Environment} {bound name type}
      (hinner : Entered declaration caller arguments inner) (hargument : type ∈ arguments)
      (hbind : inner.bind name type caller = .ok bound) : Entered declaration caller arguments bound
  | default {inner : Environment} {bound name type}
      (hinner : Entered declaration caller arguments inner) (hdefault : type ∈ declaration.defaults)
      (hbind : inner.bind name type inner = .ok bound) : Entered declaration caller arguments bound
  | without {inner : Environment} {name} (hinner : Entered declaration caller arguments inner) :
      Entered declaration caller arguments (inner.without name)

/-- The declaration is compiled in place of the references to it: it has parameters, or it is a
reserved interface. -/
def IsEntered (declaration : Declaration) : Prop :=
  declaration.parameters ≠ [] ∨
    ∃ declared, program.reserved? (some declaration) = .ok (some declared)

/-- What a reference can be used as. -/
inductive UseOf (environment : Environment) (name : Name) (arguments : List TypeExpr) :
    Use → Prop where
  | bound {binding : Binding Environment} (h : binding ∈ environment.bindings) :
      UseOf environment name arguments (.type binding.type binding.environment)
  | aliasBody {declared : Alias} {inner}
      (hfind : program.find name = .ok (some (.typeAlias declared)))
      (hentered : program.IsEntered (.typeAlias declared))
      (hleft : program.nestingsLeft environment.depth ≠ 0)
      (hinner : Entered (.typeAlias declared) environment arguments inner) :
      UseOf environment name arguments (.type declared.type inner)
  | interfaceBody {declared inner off}
      (hfind : program.find name = .ok (some (.interface declared)))
      (hentered : program.IsEntered (.interface declared))
      (hleft : program.nestingsLeft environment.depth ≠ 0)
      (hinner : Entered (.interface declared) environment arguments inner) :
      UseOf environment name arguments (.interface declared inner off)
  | name {use : NameUse TypeExpr}
      (huse : (program.nameUse id name environment arguments).result = .ok use) :
      UseOf environment name arguments (.name use)

section Use

variable {program} {decl : Declaration} {env : Environment} {params : List GenericParameter}

/-- Parameters are bound to arguments and defaults. -/
theorem entered_of_bind_types {caller bound : Environment} {given : List TypeExpr}
    (hi : Entered decl caller args inner) (hparams : ∀ param ∈ params, param ∈ decl.parameters)
    (hgiven : ∀ t ∈ given, t ∈ args) (h : bindTypes caller params given inner = .ok bound) :
    Entered decl caller args bound := by
  fun_induction bindTypes caller params given inner with
  | case1 => exact Except.ok.inj h ▸ hi
  | case2 param rest arg others inner ih =>
    obtain ⟨next, hbind, h⟩ := bind_eq_ok_iff.1 h
    exact ih next (.argument hi (hgiven _ mem_cons_self) hbind)
      (forall_mem_cons.1 hparams).2
      (forall_mem_cons.1 hgiven).2 h
  | case3 name limit t rest inner ih =>
    obtain ⟨next, hbind, h⟩ := bind_eq_ok_iff.1 h
    have hdefault : t ∈ decl.defaults := mem_filterMap.2 ⟨_, hparams _ mem_cons_self, rfl⟩
    exact ih next (.default hi hdefault hbind)
      (forall_mem_cons.1 hparams).2 hgiven h
  | case4 name limit rest inner ih =>
    exact ih hi (forall_mem_cons.1 hparams).2 hgiven h

/-- An instantiation binds parameters in a fresh environment. -/
theorem bind_types_of_instantiation (h : (instantiation params name args env).result = .ok inner) :
    bindTypes env params args env.enter = .ok inner := by
  unfold instantiation at h
  obtain ⟨bound, hbound, h⟩ := Traced.bind_ok_iff.1 h
  obtain ⟨text, -, h⟩ := Traced.bind_ok_iff.1 h
  obtain ⟨-, -, h⟩ := Traced.bind_ok_iff.1 h
  cases h
  exact Traced.lift_ok_iff.1 hbound

/-- An instantiation gives the environment of a body. -/
theorem entered_of_instantiation
    (h : (instantiation decl.parameters name args env).result = .ok inner) :
    Entered decl env args inner :=
  entered_of_bind_types .enter (fun _ h => h) (fun _ h => h) (bind_types_of_instantiation h)

/-- A reserved interface is the interface itself. -/
theorem eq_of_reserved {found : Option Declaration}
    (h : program.reserved? found = .ok (some declared)) : found = some (.interface declared) := by
  unfold reserved? at h
  split at h
  · obtain ⟨isMaybe, -, h⟩ := bind_eq_ok_iff.1 h
    cases isMaybe with
    | false => cases h
    | true =>
      cases h
      rfl
  · cases h

/-- A reserved interface is used as an interface without its parameter. -/
theorem reserved_use_eq (h : (program.reservedUse declared env).result = .ok use) :
    ∃ name off, use = .interface declared (env.without name) off := by
  unfold reservedUse at h
  split at h
  · rename_i param hparams
    obtain ⟨off, -, h⟩ := Traced.bind_ok_iff.1 h
    obtain ⟨key, -, h⟩ := Traced.bind_ok_iff.1 h
    cases h
    exact ⟨param.name, off, rfl⟩
  · cases h

/-- A declaration that is found is one of the unit. -/
theorem mem_of_find (h : program.find name = .ok (some decl)) :
    decl ∈ program.unit.declarations := by
  obtain ⟨key, -, h⟩ := bind_eq_ok_iff.1 h
  exact mem_of_find?_eq_some (Except.ok.inj h)

/-- A generic declaration is used in the environment of its instantiation. -/
theorem use_of_generic (hfind : program.find name = .ok (some decl))
    (hgeneric : decl.parameters ≠ []) (hleft : program.nestingsLeft env.depth ≠ 0)
    (hi : Entered decl env args inner) (h : (program.genericUse inner decl).result = .ok use) :
    program.UseOf env name args use := by
  cases decl with
  | enumeration => cases h
  | typeAlias =>
    cases h
    exact .aliasBody hfind (.inl hgeneric) hleft hi
  | interface =>
    unfold genericUse at h
    obtain ⟨reserved, hreserved, h⟩ := Traced.bind_ok_iff.1 h
    cases reserved with
    | none =>
      cases h
      exact .interfaceBody hfind (.inl hgeneric) hleft hi
    | some =>
      cases eq_of_reserved (Traced.lift_ok_iff.1 hreserved)
      obtain ⟨param, off, rfl⟩ := reserved_use_eq h
      exact .interfaceBody hfind (.inl hgeneric) hleft (.without hi)

/-- Where the depth is not exceeded a nesting is left. -/
theorem left_of_check {done : Unit} (h : (program.checkDepth name env).result = .ok done) :
    program.nestingsLeft env.depth ≠ 0 := by
  unfold checkDepth at h
  split at h
  · cases h
  · assumption

/-- A reference is used as a parameter, as the body of a declaration or as a name. -/
theorem use_of_result (h : (program.use env name args).result = .ok use) :
    program.UseOf env name args use := by
  unfold Program.use at h
  obtain ⟨key, -, h⟩ := Traced.bind_ok_iff.1 h
  split at h
  · rename_i b hb
    cases h
    exact .bound (mem_of_find?_eq_some hb)
  · obtain ⟨found, hf, h⟩ := Traced.bind_ok_iff.1 h
    have hfind := Traced.lift_ok_iff.1 hf
    split at h
    · rename_i decl hgeneric
      obtain ⟨hdecl, hparams⟩ := Option.filter_eq_some_iff.1 hgeneric
      rw [hdecl] at hfind
      obtain ⟨done, hdone, h⟩ := Traced.bind_ok_iff.1 h
      obtain ⟨inner, hi, h⟩ := Traced.bind_ok_iff.1 h
      exact use_of_generic hfind (by simp_all) (left_of_check hdone) (entered_of_instantiation hi) h
    · obtain ⟨reserved, hreserved, h⟩ := Traced.bind_ok_iff.1 h
      cases reserved with
      | some declared =>
        have hspecial := Traced.lift_ok_iff.1 hreserved
        rw [eq_of_reserved hspecial] at hfind hspecial
        obtain ⟨done, hdone, h⟩ := Traced.bind_ok_iff.1 h
        obtain ⟨other, off, rfl⟩ := reserved_use_eq h
        exact .interfaceBody hfind (.inr ⟨declared, hspecial⟩) (left_of_check hdone)
          (.without .enter)
      | none =>
        obtain ⟨named, hnamed, h⟩ := Traced.bind_ok_iff.1 h
        cases h
        exact .name hnamed

end Use

end Program

/-- A name with a meaning of its own is one of a list. -/
theorem Builtin.mem_names_of_name {builtin : Builtin} (h : Builtin.ofName? name = some builtin) :
    ∃ text, name = .str text ∧ (text, builtin) ∈ Builtin.names := by
  cases name with
  | str text =>
    obtain ⟨e, he, rfl⟩ := Option.map_eq_some_iff.1 h
    have htext : e.1 = text := by simpa using find?_some he
    exact ⟨text, rfl, htext ▸ mem_of_find?_eq_some he⟩
  | _ => cases h

/-- The arguments that a name is compiled with. -/
def NameUse.types : NameUse TypeExpr → List TypeExpr
  | .maybe argument => [argument]
  | .array element => [element]
  | .adjusted argument _ => [argument]
  | .record key value => value.toList ++ key.toList
  | .call _ arguments => arguments
  | .projected _ target _ => [target]
  | _ => []

namespace Program

variable {p : Program}

/-- What a name is compiled as with its arguments, and what happens on the way. -/
inductive NamedUse (program : Program) (environment : Environment) (name : Name) :
    List TypeExpr → List Event → NameUse TypeExpr → Prop where
  | date {arguments} (h : Builtin.ofName? name = some .date) :
      NamedUse program environment name arguments [] .date
  | bare (h : Builtin.ofName? name ≠ some .date) : NamedUse program environment name [] [] .schema
  | maybe {first rest} (h : Builtin.ofName? name ≠ some .date)
      (hmaybe : program.settings.isMaybeName name = .ok true) :
      NamedUse program environment name (first :: rest) [.helper] (.maybe first)
  | array {first rest} (h : Builtin.ofName? name = some .array)
      (hmaybe : program.settings.isMaybeName name = .ok false) :
      NamedUse program environment name (first :: rest) [] (.array first)
  | allOptional {first rest} (h : Builtin.ofName? name = some .allOptional)
      (hmaybe : program.settings.isMaybeName name = .ok false) :
      NamedUse program environment name (first :: rest) []
        (.adjusted first ({ · with allOptional := true }))
  | allRequired {first rest} (h : Builtin.ofName? name = some .allRequired)
      (hmaybe : program.settings.isMaybeName name = .ok false) :
      NamedUse program environment name (first :: rest) []
        (.adjusted first ({ · with allRequired := true }))
  | readonly {first rest} (h : Builtin.ofName? name = some .readonly)
      (hmaybe : program.settings.isMaybeName name = .ok false) :
      NamedUse program environment name (first :: rest) [] (.adjusted first id)
  | record {first} {rest : List TypeExpr} {any} (h : Builtin.ofName? name = some .record)
      (hmaybe : program.settings.isMaybeName name = .ok false)
      (hany : anyKey environment first = .ok any) :
      NamedUse program environment name (first :: rest) []
        (.record (if any then none else some first) rest.head?)
  | set {first rest} (h : Builtin.ofName? name = some .set)
      (hmaybe : program.settings.isMaybeName name = .ok false) :
      NamedUse program environment name (first :: rest) [] (.call "set" (first :: rest))
  | promise {first rest} (h : Builtin.ofName? name = some .promise)
      (hmaybe : program.settings.isMaybeName name = .ok false) :
      NamedUse program environment name (first :: rest) [] (.call "promise" (first :: rest))
  | projected {first} {rest : List TypeExpr} {projection}
      (h : Builtin.ofName? name = some (.projection projection))
      (hmaybe : program.settings.isMaybeName name = .ok false) :
      NamedUse program environment name (first :: rest) [] (.projected projection first rest.head?)
  | ignored {first rest text} (h : Builtin.ofName? name = none)
      (hmaybe : program.settings.isMaybeName name = .ok false)
      (htext : (TypeExpr.reference name (first :: rest)).text = .ok text) :
      NamedUse program environment name (first :: rest) [.notice (.ignoredArguments text)] .schema

/-- A name that is compiled is compiled in one of these ways. -/
theorem named_use_of_result {env : Environment} {use : NameUse TypeExpr}
    (h : (p.nameUse id name env args).result = .ok use) :
    NamedUse p env name args (p.nameUse id name env args).trace use := by
  -- A date is one whatever its arguments are, so it comes before they are looked at.
  by_cases hdate : Builtin.ofName? name = some .date
  · cases args with
    | nil | cons =>
      rw [nameUse, if_pos hdate] at h ⊢
      cases h
      exact .date hdate
  cases args with
  | nil =>
    rw [nameUse, if_neg hdate] at h ⊢
    cases h
    exact .bare hdate
  | cons a rest =>
    rw [nameUse, if_neg hdate] at h ⊢
    cases hmaybe : p.settings.isMaybeName name with
    | error =>
      rw [hmaybe] at h
      cases h
    | ok isMaybe =>
      rw [hmaybe] at h
      rw [Traced.lift_ok, pure_bind] at h ⊢
      cases isMaybe with
      | true =>
        rw [if_pos rfl] at h ⊢
        cases h
        exact .maybe hdate hmaybe
      | false =>
        rw [if_neg Bool.false_ne_true] at h ⊢
        cases hbuiltin : Builtin.ofName? name with
        | none =>
          rw [hbuiltin] at h
          simp only [map_id] at h ⊢
          cases htext : (TypeExpr.reference name (a :: rest)).text with
          | error =>
            rw [htext] at h
            cases h
          | ok =>
            rw [htext] at h
            cases h
            exact .ignored hbuiltin hmaybe htext
        | some builtin =>
          rw [hbuiltin] at h
          cases builtin with
          | record =>
            dsimp only [id] at h ⊢
            cases hany : anyKey env a with
            | error =>
              rw [hany] at h
              cases h
            | ok =>
              rw [hany] at h
              cases h
              exact .record hbuiltin hmaybe hany
          | projection =>
            cases h
            rw [Option.map_id]
            exact .projected hbuiltin hmaybe
          | _ =>
            cases h
            first
              | exact .date hbuiltin
              | exact .array hbuiltin hmaybe
              | exact .allOptional hbuiltin hmaybe
              | exact .allRequired hbuiltin hmaybe
              | exact .readonly hbuiltin hmaybe
              | exact .set hbuiltin hmaybe
              | exact .promise hbuiltin hmaybe

/-- A name is compiled with arguments of its own. -/
theorem mem_of_named_use {env : Environment} {events : List Event} {use : NameUse TypeExpr}
    {t : TypeExpr} (h : NamedUse p env name args events use) (ht : t ∈ use.types) : t ∈ args := by
  cases h with
  | record h hmaybe hany =>
    rename_i a rest any
    rcases mem_append.1 ht with hv | hk
    · exact mem_cons_of_mem _ (mem_of_mem_head? (Option.mem_toList.1 hv))
    · cases any <;> simp_all
  | set | promise => exact ht
  | _ => simp_all [NameUse.types]

/-- The jobs that a type in an environment can ask for. -/
inductive Asked (program : Program) (environment : Environment) (type : TypeExpr) : Job → Prop where
  /-- A type inside of it, in the same environment. -/
  | part {part : TypeExpr} {context} (h : part.Within type) :
      Asked program environment type ⟨part, environment, context⟩
  /-- The type of a member, parameter or value that has none. -/
  | any {context} : Asked program environment type ⟨.keyword .any, environment, context⟩
  /-- What a parameter is bound to. -/
  | bound {binding : Binding Environment} {context} (h : binding ∈ environment.bindings) :
      Asked program environment type ⟨binding.type, binding.environment, context⟩
  /-- The elements of an array that is spread. -/
  | spread {spread : TypeExpr} {element inner context} (hspread : spread.Within type)
      (h : elementType environment spread = .ok (some (element, inner))) :
      Asked program environment type ⟨element, inner, context⟩
  /-- A type in the body of a declaration that is entered. -/
  | body {declaration : Declaration} {inner name arguments part context}
      (htype : type = .reference name arguments)
      (hfind : program.find name = .ok (some declaration))
      (hentered : program.IsEntered declaration)
      (hleft : program.nestingsLeft environment.depth ≠ 0)
      (hinner : Entered declaration environment arguments inner)
      (hpart : part ∈ declaration.bodyTypes ∨ part = .keyword .any) :
      Asked program environment type ⟨part, inner, context⟩

section Asked

variable {env : Environment} {ctx : Context} {t : TypeExpr} {plan : Plan} {job : Job}
  {off : Option Context}

/-- The jobs of an object are for its types, or for any value. -/
theorem job_of_object {finish : Schema → Compilation Schema}
    (h : job ∈ (p.objectPlan off env ms index finish).jobs) :
    job.environment = env ∧ (job.type ∈ objectTypes ms index ∨ job.type = .keyword .any) := by
  simp only [objectPlan, memberJobs, mem_append, mem_map, mem_filterMap,
    Option.mem_toList, Option.map_eq_some_iff] at h
  rcases h with ⟨named, ⟨m, hm, t, ht, rfl⟩, rfl⟩ | ⟨sig, rfl, rfl⟩
  · exact ⟨rfl, .inl (mem_append_left _ (mem_filterMap.2 ⟨m, hm, ht⟩))⟩
  · refine ⟨rfl, ?_⟩
    cases ht : sig.type with
    | none => exact .inr (by simp [indexJob, ht])
    | some =>
      exact .inl (mem_append_right _ (by simp [indexJob, ht, IndexSignature.types]))

/-- The jobs of an interface are for the types of its body, or for any value. -/
theorem job_of_interface (hplan : (p.interfacePlan off env declared ctx).result = .ok plan)
    (h : job ∈ plan.jobs) :
    job.environment = env ∧
      (job.type ∈ (Declaration.interface declared).bodyTypes ∨ job.type = .keyword .any) := by
  unfold interfacePlan at hplan
  cases hher : declared.heritage with
  | nil =>
    rw [hher] at hplan
    cases hplan
    exact job_of_object h
  | cons =>
    rw [hher] at hplan
    dsimp only at hplan
    split at hplan
    · cases hplan
    · cases hplan
      have hobj : job ∈ (p.objectPlan off env declared.members declared.index
          (p.finish ctx)).jobs := mem_append_left _ h
      exact job_of_object hobj

/-- The jobs of a name are for its arguments, or for any value. -/
theorem job_of_name {use : NameUse TypeExpr} (h : job ∈ (p.namePlan env ctx name use).jobs) :
    job.environment = env ∧ (job.type ∈ use.types ∨ job.type = .keyword .any) := by
  cases use with
  | record key v =>
    simp only [namePlan, mem_map, mem_cons, Option.mem_toList] at h
    obtain ⟨t, ht, rfl⟩ := h
    refine ⟨rfl, ?_⟩
    cases v with
    | none => simpa [NameUse.types, or_comm] using ht
    | some => exact .inl (by simpa [NameUse.types] using ht)
  | call =>
    simp only [namePlan, mem_map] at h
    obtain ⟨t, ht, rfl⟩ := h
    exact ⟨rfl, .inl ht⟩
  | _ => simp_all [namePlan, Plan.leaf, Plan.through, NameUse.types]

/-- The jobs of a use are those that the reference can ask for. -/
theorem asked_of_use_plan (huse : p.UseOf env name args use)
    (hplan : (p.usePlan env ctx name use).result = .ok plan) (h : job ∈ plan.jobs) :
    p.Asked env (.reference name args) job := by
  cases huse with
  | bound hb =>
    cases hplan
    cases mem_singleton.1 h
    exact .bound hb
  | aliasBody hfind hentered hleft hi =>
    cases hplan
    cases mem_singleton.1 h
    exact .body rfl hfind hentered hleft hi (.inl (mem_singleton.2 rfl))
  | interfaceBody hfind hentered hleft hi =>
    obtain ⟨henv, ht⟩ := job_of_interface hplan h
    obtain ⟨t, inner, ctx⟩ := job
    cases henv
    exact .body rfl hfind hentered hleft hi ht
  | name huse =>
    cases hplan
    obtain ⟨henv, ht⟩ := job_of_name h
    obtain ⟨t, inner, ctx⟩ := job
    cases henv
    rcases ht with ht | rfl
    · exact .part (.part (mem_of_named_use (named_use_of_result huse) ht))
    · exact .any

/-- The jobs of a union are its arms. -/
theorem asked_of_union_plan {arms : List TypeExpr}
    (hplan : (p.typePlan env ctx (.union arms)).result = .ok plan)
    (h : job ∈ plan.jobs) : p.Asked env (.union arms) job := by
  have hkept {arm : TypeExpr} (harm : arm ∈ arms.filter (!·.isNull)) :
      arm.Within (.union arms) := .part (mem_filter.1 harm).1
  rw [typePlan] at hplan
  dsimp only at hplan
  generalize arms.filter (fun arm => !arm.isNull) = kept at hplan hkept
  rcases kept with _ | ⟨a, _ | ⟨b, rest⟩⟩
  · cases hplan
    cases h
  · cases hplan
    cases mem_singleton.1 h
    exact .part (hkept mem_cons_self)
  · cases hplan
    obtain ⟨arm, harm, rfl⟩ := mem_map.1 h
    exact .part (hkept harm)

/-- The jobs of a tuple are its slots and the elements of what it spreads. -/
theorem asked_of_tuple_plan {elements : List TypeExpr}
    (hplan : (p.typePlan env ctx (.tuple elements)).result = .ok plan)
    (h : job ∈ plan.jobs) : p.Asked env (.tuple elements) job := by
  have hslot {elt : TypeExpr} (helt : elt ∈ elements) :
      p.Asked env (.tuple elements) (slotJob env elt) := by
    cases elt with
    | named =>
      exact .part (.deeper (.part (mem_singleton.2 rfl)) helt)
    | _ => exact .part (.part helt)
  rw [typePlan] at hplan
  obtain ⟨mods, -, hplan⟩ := Traced.bind_ok_iff.1 hplan
  obtain ⟨found, hf, hplan⟩ := Traced.bind_ok_iff.1 hplan
  have hspread := Traced.lift_ok_iff.1 hf
  cases found with
  | none =>
    cases hplan
    obtain ⟨elt, helt, rfl⟩ := mem_map.1 h
    exact hslot helt
  | some found =>
    obtain ⟨t, inner⟩ := found
    cases hplan
    rcases mem_cons.1 h with rfl | h
    · obtain ⟨front, spread, rfl⟩ := eq_append_spread hspread
      rw [spreadType, getLast?_concat] at hspread
      have hpart : spread ∈ (TypeExpr.spread spread).parts := mem_singleton.2 rfl
      have hlast : .spread spread ∈ front ++ [TypeExpr.spread spread] :=
        mem_append_right _ (mem_singleton.2 rfl)
      exact .spread (.deeper (.part hpart) hlast) hspread
    · obtain ⟨elt, helt, rfl⟩ := mem_map.1 h
      exact hslot (dropLast_subset elements helt)

/-- The jobs of a type are those that it can ask for. -/
theorem asked_of_type_plan (hplan : (p.typePlan env ctx t).result = .ok plan)
    (h : job ∈ plan.jobs) : p.Asked env t job := by
  cases t with
  | reference =>
    rw [typePlan] at hplan
    obtain ⟨use, huse, hplan⟩ := Traced.bind_ok_iff.1 hplan
    exact asked_of_use_plan (use_of_result huse) hplan h
  | object =>
    cases hplan
    obtain ⟨henv, ht⟩ := job_of_object h
    obtain ⟨t, inner, ctx⟩ := job
    cases henv
    rcases ht with ht | rfl
    · exact .part (.part ht)
    · exact .any
  | union => exact asked_of_union_plan hplan h
  | intersection arms =>
    cases arms with
    | nil =>
      cases hplan
      cases h
    | cons =>
      cases hplan
      obtain ⟨arm, harm, rfl⟩ := mem_map.1 h
      exact .part (.part harm)
  | tuple => exact asked_of_tuple_plan hplan h
  | array | paren =>
    cases hplan
    cases mem_singleton.1 h
    exact .part (.part (mem_singleton.2 rfl))
  | function =>
    cases hplan
    rcases mem_append.1 h with h | h
    · obtain ⟨param, hparam, rfl⟩ := mem_map.1 h
      unfold parameterJob
      cases ht : param.type with
      | none => exact .any
      | some =>
        refine .part (.part (mem_append_left _ ?_))
        exact mem_filterMap.2 ⟨param, hparam, ht⟩
    · cases mem_singleton.1 h
      exact .part (.part (mem_append_right _ (mem_singleton.2 rfl)))
  | literal v =>
    cases v <;> (cases hplan; cases h)
  | _ =>
    cases hplan
    cases h

/-- The jobs of a plan are those that the type of its job can ask for. -/
theorem asked_of_plan {next : Job} (hplan : (p.plan job).result = .ok plan)
    (h : next ∈ plan.jobs) : p.Asked job.environment job.type next := by
  unfold Program.plan at hplan
  split at hplan
  · exact asked_of_type_plan hplan h
  · split at hplan
    · obtain ⟨inner, hi, hplan⟩ := Traced.bind_ok_iff.1 hplan
      cases hplan
      exact asked_of_type_plan hi h
    · cases hplan
      cases h

/-- An interface on its own is used as it is declared, without parameters. -/
theorem interface_use_eq (h : (p.interfaceUse declared).result = .ok use) :
    ∃ off, use = .interface declared .empty off := by
  unfold interfaceUse at h
  obtain ⟨reserved, hreserved, h⟩ := Traced.bind_ok_iff.1 h
  cases reserved with
  | some =>
    cases eq_of_reserved (Traced.lift_ok_iff.1 hreserved)
    obtain ⟨name, off, rfl⟩ := reserved_use_eq h
    exact ⟨off, rfl⟩
  | none =>
    dsimp only at h
    split at h
    · cases h
      exact ⟨none, rfl⟩
    · cases h

/-- The jobs of a declaration are for the types of its body, or for any value. -/
theorem job_of_declaration {decl : Declaration} (hplan : (p.declarationPlan decl).result = .ok plan)
    (h : job ∈ plan.jobs) :
    job.environment = .empty ∧ (job.type ∈ decl.bodyTypes ∨ job.type = .keyword .any) := by
  cases decl with
  | enumeration =>
    cases hplan
    cases h
  | typeAlias =>
    rw [declarationPlan] at hplan
    split at hplan
    · cases hplan
      cases mem_singleton.1 h
      exact ⟨rfl, .inl (mem_singleton.2 rfl)⟩
    · cases hplan
  | interface =>
    obtain ⟨use, huse, hplan⟩ := Traced.bind_ok_iff.1 hplan
    obtain ⟨off, rfl⟩ := interface_use_eq huse
    exact job_of_interface hplan h

end Asked

/-- A job that is named by the plan of another one. -/
def Calls (program : Program) (next job : Job) : Prop :=
  ∃ plan, (program.plan job).result = .ok plan ∧ next ∈ plan.jobs

end Program

end Schemata
