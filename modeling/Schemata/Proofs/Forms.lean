import Schemata.Proofs.Composition

/-!
# The forms of schemas

`Program.Forms` says what the plan of a type puts together of the schemas of its jobs. A schema is
handed on as it is, or the modifiers of the context are given to one of a few cores: a call that
stands for no object, `ClosedCore`, or what an object can be compiled to, `OpenCore`. What holds of
all schemas is shown by going through these forms. `plan_forms` and `declaration_plan_forms` say the
same of jobs and of declarations.
-/

namespace Schemata

open List
open Traced (bind_ok_iff)

/-- The arguments of a call that is made of the schemas of jobs. -/
inductive Schema.IsCallOf : List Schema → String → List Schema → Prop where
  | plain {callee}
      (h : callee ∉ ["union", "discriminatedUnion", "literal", "object", "array", "record", "tuple",
        "function"]) : IsCallOf [] callee []
  | literal {value} (h : value ≠ .null) : IsCallOf [] "literal" [.value value]
  | member (name : Name) : IsCallOf [] "literal" [.symbol name]
  | object : IsCallOf [] "record" [.call "any" []]
  | array (element : Schema) : IsCallOf [element] "array" [element]
  | record (value : Schema) : IsCallOf [value] "record" [value]
  | keyed (value key : Schema) : IsCallOf [value, key] "record" [key, value]
  | set (parts : List Schema) : IsCallOf parts "set" parts
  | promise (parts : List Schema) : IsCallOf parts "promise" parts
  | tuple (parts : List Schema) : IsCallOf parts "tuple" [.array parts]
  | union {parts : List Schema} (h : 2 ≤ parts.length) : IsCallOf parts "union" [.array parts]

/-- Such a call makes neither an object nor a function nor a discriminated union. -/
theorem Schema.IsCallOf.callee {parts args : List Schema} {callee : String}
    (h : IsCallOf parts callee args) : callee ∉ ["object", "function", "discriminatedUnion"] := by
  cases h with
  | plain h => exact fun hmem => h (by simp at hmem ⊢; tauto)
  | _ => decide

/-- The kinds of types that are compiled to calls which stand for no object. -/
def TypeExpr.IsClosed : TypeExpr → Prop
  | .reference _ _ | .object _ _ | .union _ | .indexed _ _ | .paren _ => False
  | .intersection (_ :: _) => False
  | _ => True

/-- The names that are compiled to calls which stand for no object. -/
def NameUse.IsClosed {α : Type} : NameUse α → Prop
  | .date | .array _ | .record _ _ | .call _ _ => True
  | _ => False

namespace Program

section Definitions

variable (program : Program) (environment : Environment)

/-- The types whose schemas stand for no object. -/
inductive Closed : TypeExpr → Prop where
  | written {type : TypeExpr} (h : type.IsClosed) : Closed type
  | named {name arguments} {use : NameUse TypeExpr}
      (huse : (program.use environment name arguments).result = .ok (.name use))
      (h : use.IsClosed) : Closed (.reference name arguments)
  | union {arms : List TypeExpr} (h : ∀ arm, arms.filter (!·.isNull) ≠ [arm]) :
      Closed (.union arms)
  | indexed {base index}
      (h : (program.indexedAccess (some environment) (.indexed base index)).result = .ok none) :
      Closed (.indexed base index)

/-- The job that a type is left to as a whole. -/
inductive LeftTo (context : Context) : TypeExpr → Job → Prop where
  | entered {name arguments type inner}
      (huse : (program.use environment name arguments).result = .ok (.type type inner)) :
      LeftTo context (.reference name arguments) ⟨type, inner, context⟩
  | adjusted {name arguments argument} {adjust : Context → Context}
      (huse : (program.use environment name arguments).result =
        .ok (.name (.adjusted argument adjust))) :
      LeftTo context (.reference name arguments) ⟨argument, environment, adjust context⟩
  | arm {arms : List TypeExpr} {arm} (harm : arms.filter (!·.isNull) = [arm]) :
      LeftTo context (.union arms) ⟨arm, environment,
        { context with nullable := context.nullable || decide ([arm].length ≠ arms.length) }⟩
  | paren {type} : LeftTo context (.paren type) ⟨type, environment, context⟩

/-- What calls that stand for no object are made of the schemas of jobs. -/
inductive ClosedCore : List Job → List Schema → Schema → Prop where
  | call {jobs parts arguments callee} (h : Schema.IsCallOf parts callee arguments) :
      ClosedCore jobs parts (.call callee arguments)
  | rest {jobs} (part : Schema) (slots : List Schema) :
      ClosedCore jobs (part :: slots) ((Schema.call "tuple" [.array slots]).modify ⟨"rest", [part],
        false⟩)
  | function {jobs} (parts : List Schema) :
      ClosedCore jobs parts ((Schema.call "function" []).withModifiers [⟨"args", parts.dropLast,
        false⟩, ⟨"returns", parts.getLast?.toList, false⟩])
  | discriminated {arms : List TypeExpr} {parts : List Schema} {field} (htwo : 2 ≤ arms.length)
      (hlength : parts.length = arms.length)
      (h : (Program.discriminated environment field arms).result = .ok true) :
      ClosedCore (arms.map (⟨·, environment,
        {}⟩)) parts (.call "discriminatedUnion" [.value (.str field), .array parts])

/-- What the body of an interface is put together to. -/
inductive Body (off : Option Context) (declared : Interface) (parts : List Schema) : Schema → Prop
    where
  | object (hheritage : declared.heritage = []) (hlength : parts.length =
      ((program.memberJobs off environment declared.members).map (·.2) ++
        (declared.index.map (indexJob environment)).toList).length) :
      Body off declared parts (objectSchema
        (((program.memberJobs off environment declared.members).map (·.1)).zip parts)
        parts[(program.memberJobs off environment declared.members).length]?)
  | extended {chain : Schema} (hheritage : declared.heritage ≠ []) (hindex : declared.index = none)
      (hlength : parts.length = (program.memberJobs off environment declared.members).length)
      (h : (program.extensionChain declared.heritage (some (.object
        (((program.memberJobs off environment declared.members).map (·.1)).zip parts)))).result =
          .ok (some chain)) : Body off declared parts chain

/-- What the types that can stand for objects are made of the schemas of jobs. -/
inductive OpenCore : TypeExpr → List Job → List Schema → Schema → Prop where
  | object {members} {index : Option (IndexSignature TypeExpr)} {jobs} {parts : List Schema}
      (hlength : parts.length =
        ((program.memberJobs none environment members).map (·.2) ++
        (index.map (indexJob environment)).toList).length) :
      OpenCore (.object members index) jobs parts
        (objectSchema (((program.memberJobs none environment members).map (·.1)).zip parts)
        parts[(program.memberJobs none environment members).length]?)
  | interface {name arguments} {declared : Interface} {inner off jobs parts} {body : Schema}
      (huse : (program.use environment name arguments).result = .ok (.interface declared inner off))
      (h : program.Body inner off declared parts body) :
      OpenCore (.reference name arguments) jobs parts
        (body.withModifiers (Refinement.flagged (program.tags declared.tags).strict "strict"))
  | intersection {first} {rest : List TypeExpr} {part : Schema} {others : List Schema}
      (hlength : others.length = rest.length) :
      OpenCore (.intersection (first :: rest)) ((first :: rest).map (⟨·, environment,
        {}⟩)) (part :: others) (part.withModifiers (others.map fun other => ⟨"and", [other],
        false⟩))
  | projected {name arguments} {projection : Projection} {target keys part schema}
      (huse : (program.use environment name arguments).result =
        .ok (.name (.projected projection target keys)))
      (h : project part projection.typeName keys (some environment) = .ok schema) :
      OpenCore (.reference name arguments) [⟨target, environment, {}⟩] [part] schema
  | named {name found arguments}
      (huse : (program.use environment name arguments).result = .ok (.name .schema)) :
      OpenCore (.reference name arguments) [] [] (.reference found)
  | path {base index name text}
      (h : (program.indexedAccess (some environment) (.indexed base index)).result =
        .ok (some (.field (some (.reference name)) text))) :
      OpenCore (.indexed base index) [] [] (.field (some (.reference name)) text)

/-- What the plan of a type puts together of the schemas of its jobs. -/
inductive Forms (context : Context) : TypeExpr → List Job → List Schema → Schema → Prop where
  | through {type next part} (h : program.LeftTo environment context type next) :
      Forms context type [next] [part] part
  /-- The helper for values that may be absent takes no other modifiers. -/
  | maybe {name arguments argument job part}
      (huse : (program.use environment name arguments).result = .ok (.name (.maybe argument))) :
      Forms context (.reference name arguments) [job] [part]
        ((Schema.helper "maybe" [part]).withModifiers
        (Refinement.flagged context.optional "optional"))
  | texts {head spans} {values : Values} {modifiers}
      (h : (program.expand environment head spans).result = .ok (some values))
      (hmodifiers : (program.modifiers context).result = .ok modifiers) :
      Forms context (.template head spans) [] [] (values.schema modifiers)
  /-- A union may be nullable by its arms. -/
  | closed {type jobs parts core schema nullable} (htype : program.Closed environment type)
      (hcore : ClosedCore environment jobs parts core)
      (h : (program.finish { context with nullable := nullable } core).result = .ok schema) :
      Forms context type jobs parts schema
  | opened {type jobs parts core schema} (hcore : program.OpenCore environment type jobs parts core)
      (h : (program.finish context core).result = .ok schema) : Forms context type jobs parts schema

end Definitions

variable {p : Program} {env : Environment} {ctx : Context} {plan : Plan} {parts : List Schema}
  {schema : Schema}

section Types

/-- Modifiers that are there are given to a schema. -/
theorem finish_of_modifiers {mods : List Modifier} (h : (p.modifiers ctx).result = .ok mods)
    (core : Schema) : (p.finish ctx core).result = .ok (core.withModifiers mods) :=
  bind_ok_iff.2 ⟨mods, h, rfl⟩

theorem forms_call {t : TypeExpr} {jobs : List Job} {callee : String} {args : List Schema}
    (ht : p.Closed env t) (hcall : Schema.IsCallOf parts callee args)
    (h : (p.finish ctx (.call callee args)).result = .ok schema) :
    p.Forms env ctx t jobs parts schema := .closed ht (.call hcall) h

/-- What is read for a type without a schema is any value. -/
theorem forms_unsupported {t : TypeExpr} {shown : Option TypeExpr} (ht : p.Closed env t)
    (h : (p.unsupported shown ctx).result = .ok schema) : p.Forms env ctx t [] [] schema := by
  obtain ⟨text, -, h⟩ := bind_ok_iff.1 h
  obtain ⟨done, -, h⟩ := bind_ok_iff.1 h
  exact forms_call ht (.plain (by decide)) h

theorem interface_plan_forms {off : Option Context} {d : Interface}
    (hplan : (p.interfacePlan off env d ctx).result = .ok plan)
    (hlen : parts.length = plan.jobs.length) (h : (plan.assemble parts).result = .ok schema) :
    ∃ body, p.Body env off d parts body ∧ (p.finish ctx (body.withModifiers
      (Refinement.flagged (p.tags d.tags).strict "strict"))).result = .ok schema := by
  unfold interfacePlan at hplan
  cases hher : d.heritage with
  | nil =>
    rw [hher] at hplan
    cases hplan
    exact ⟨_, .object hher hlen, h⟩
  | cons =>
    rw [hher] at hplan
    dsimp only at hplan
    split at hplan
    · cases hplan
    · rename_i hidx
      cases hplan
      obtain ⟨chain, hchain, h⟩ := bind_ok_iff.1 h
      cases chain with
      | none => cases h
      | some chain =>
        rw [← hher] at hchain
        exact ⟨chain, .extended (by simp [hher]) (by simpa using hidx) (by simpa using hlen) hchain,
          h⟩

theorem name_plan_forms {name : Name} {args : List TypeExpr} {use : NameUse TypeExpr}
    (huse : (p.use env name args).result = .ok (.name use))
    (hlen : parts.length = (p.namePlan env ctx name use).jobs.length)
    (h : ((p.namePlan env ctx name use).assemble parts).result = .ok schema) :
    p.Forms env ctx (.reference name args) (p.namePlan env ctx name use).jobs parts schema := by
  cases use with
  | date =>
    cases length_eq_zero_iff.1 hlen
    exact forms_call (.named huse trivial) (.plain (by decide)) h
  | maybe =>
    obtain ⟨part, rfl⟩ := length_eq_one_iff.1 hlen
    cases h
    exact .maybe huse
  | array =>
    obtain ⟨part, rfl⟩ := length_eq_one_iff.1 hlen
    exact forms_call (.named huse trivial) (.array part) h
  | adjusted =>
    obtain ⟨part, rfl⟩ := length_eq_one_iff.1 hlen
    cases h
    exact .through (.adjusted huse)
  | record key =>
    cases key with
    | none =>
      obtain ⟨part, rfl⟩ := length_eq_one_iff.1 hlen
      exact forms_call (.named huse trivial) (.record part) h
    | some =>
      obtain ⟨value, key, rfl⟩ := length_eq_two.1 hlen
      exact forms_call (.named huse trivial) (.keyed value key) h
  | call =>
    rcases callee_of_use huse with rfl | rfl
    · exact forms_call (.named huse trivial) (.set parts) h
    · exact forms_call (.named huse trivial) (.promise parts) h
  | projected =>
    obtain ⟨part, rfl⟩ := length_eq_one_iff.1 hlen
    obtain ⟨projected, hprojected, h⟩ := bind_ok_iff.1 h
    exact .opened (.projected huse hprojected) h
  | schema =>
    cases length_eq_zero_iff.1 hlen
    obtain ⟨target, htarget, h⟩ := bind_ok_iff.1 h
    obtain ⟨found, rfl⟩ := eq_reference_of_result htarget
    exact .opened (.named huse) h

theorem union_plan_forms {arms : List TypeExpr}
    (hplan : (p.typePlan env ctx (.union arms)).result = .ok plan)
    (hlen : parts.length = plan.jobs.length) (h : (plan.assemble parts).result = .ok schema) :
    p.Forms env ctx (.union arms) plan.jobs parts schema := by
  unfold typePlan at hplan
  dsimp only at hplan
  rcases hkept : arms.filter (fun arm => !arm.isNull) with _ | ⟨a, _ | ⟨b, rest⟩⟩ <;>
    rw [hkept] at hplan <;> cases hplan
  · cases length_eq_zero_iff.1 hlen
    exact .closed (.union (by simp [hkept])) (.call (.plain (by decide))) h
  · obtain ⟨part, rfl⟩ := length_eq_one_iff.1 hlen
    cases h
    exact .through (.arm hkept)
  · have hclosed : p.Closed env (.union arms) := .union (by simp [hkept])
    have htwo : 2 ≤ (a :: b :: rest).length := by simp
    have hlen : parts.length = (a :: b :: rest).length := by simpa using hlen
    obtain ⟨mods, hmods, h⟩ := bind_ok_iff.1 h
    dsimp only at h
    split at h
    · obtain ⟨told, htold, h⟩ := bind_ok_iff.1 h
      cases told with
      | false =>
        cases h
        exact .closed hclosed (.call (.union (hlen ▸ htwo))) (finish_of_modifiers hmods _)
      | true =>
        cases h
        exact .closed hclosed (.discriminated htwo hlen htold) (finish_of_modifiers hmods _)
    · cases h
      exact .closed hclosed (.call (.union (hlen ▸ htwo))) (finish_of_modifiers hmods _)

theorem tuple_plan_forms {elements : List TypeExpr}
    (hplan : (p.typePlan env ctx (.tuple elements)).result = .ok plan)
    (hlen : parts.length = plan.jobs.length) (h : (plan.assemble parts).result = .ok schema) :
    p.Forms env ctx (.tuple elements) plan.jobs parts schema := by
  obtain ⟨mods, hmods, hplan⟩ := bind_ok_iff.1 hplan
  obtain ⟨found, -, hplan⟩ := bind_ok_iff.1 hplan
  cases found with
  | none =>
    cases hplan
    cases h
    exact forms_call (.written trivial) (.tuple parts) (finish_of_modifiers hmods _)
  | some =>
    cases hplan
    cases parts with
    | nil => cases hlen
    | cons part slots =>
      cases h
      exact .closed (.written trivial) (.rest part slots) (finish_of_modifiers hmods _)

/-- The plan of a type puts schemas together to one of the forms. -/
theorem type_plan_forms {t : TypeExpr} (hplan : (p.typePlan env ctx t).result = .ok plan)
    (hlen : parts.length = plan.jobs.length) (h : (plan.assemble parts).result = .ok schema) :
    p.Forms env ctx t plan.jobs parts schema := by
  cases t with
  | reference name =>
    obtain ⟨use, huse, hplan⟩ := bind_ok_iff.1 hplan
    cases use with
    | type =>
      cases hplan
      obtain ⟨part, rfl⟩ := length_eq_one_iff.1 hlen
      cases h
      exact .through (.entered huse)
    | interface =>
      obtain ⟨body, hbody, h⟩ := interface_plan_forms hplan hlen h
      exact .opened (.interface huse hbody) h
    | name =>
      cases hplan
      exact name_plan_forms huse hlen h
  | union => exact union_plan_forms hplan hlen h
  | tuple => exact tuple_plan_forms hplan hlen h
  | object =>
    cases hplan
    exact .opened (.object hlen) h
  | intersection arms =>
    cases arms with
    | nil =>
      cases hplan
      cases length_eq_zero_iff.1 hlen
      exact forms_unsupported (.written trivial) h
    | cons =>
      cases hplan
      cases parts with
      | nil => cases hlen
      | cons => exact .opened (.intersection (by simpa using hlen)) h
  | literal v =>
    cases v <;> cases hplan <;> cases length_eq_zero_iff.1 hlen
    · exact forms_call (.written trivial) (.plain (by decide)) h
    all_goals exact forms_call (.written trivial) (.literal (by simp)) h
  | enumMember =>
    cases hplan
    cases length_eq_zero_iff.1 hlen
    exact forms_call (.written trivial) (.member _) h
  | array =>
    cases hplan
    obtain ⟨part, rfl⟩ := length_eq_one_iff.1 hlen
    exact forms_call (.written trivial) (.array part) h
  | function =>
    cases hplan
    exact .closed (.written trivial) (.function parts) h
  | indexed =>
    cases hplan
    cases length_eq_zero_iff.1 hlen
    obtain ⟨found, hf, h⟩ := bind_ok_iff.1 h
    cases found with
    | none => exact forms_call (.indexed hf) (.plain (by decide)) h
    | some =>
      obtain ⟨name, text, rfl⟩ := access_schema hf
      exact .opened (.path hf) h
  | template =>
    cases hplan
    cases length_eq_zero_iff.1 hlen
    obtain ⟨found, hf, h⟩ := bind_ok_iff.1 h
    cases found with
    | none => exact forms_call (.written trivial) (.plain (by decide)) h
    | some =>
      obtain ⟨mods, hmods, h⟩ := bind_ok_iff.1 h
      cases h
      exact .texts hf hmods
  | keyword keyword =>
    cases hplan
    cases length_eq_zero_iff.1 hlen
    cases keyword with
    | object => exact forms_call (.written trivial) .object h
    | _ => exact forms_call (.written trivial) (.plain (by decide)) h
  | paren =>
    cases hplan
    obtain ⟨part, rfl⟩ := length_eq_one_iff.1 hlen
    cases h
    exact .through .paren
  | spread | named | unsupported =>
    cases hplan
    cases length_eq_zero_iff.1 hlen
    exact forms_unsupported (.written trivial) h

end Types

/-- What the plan of a job puts together: what the one of its type does, unless source text is added
to that or takes its place. -/
inductive JobForms (program : Program) (job : Job) (jobs : List Job) (parts : List Schema) :
    Schema → Prop where
  | plain {schema : Schema} (htext : job.context.tags.override? = none)
      (h : program.Forms job.environment job.context job.type jobs parts schema) :
      JobForms program job jobs parts schema
  | added {schema : Schema} {text : String} {added : List Char}
      (htext : job.context.tags.override? = some text) (hadded : text.toList = '.' :: added)
      (h : program.Forms job.environment
        { job.context with tags := job.context.tags.without Tags.overrideTag } job.type jobs parts
        schema) : JobForms program job jobs parts (schema.modify ⟨String.ofList added, [], true⟩)
  | replaced {text : String} (htext : job.context.tags.override? = some text)
      (hdot : text.toList.head? ≠ some '.') (hjobs : jobs = []) :
      JobForms program job jobs parts (.verbatim text)

theorem plan_forms {job : Job} (hplan : (p.plan job).result = .ok plan)
    (hlen : parts.length = plan.jobs.length) (h : (plan.assemble parts).result = .ok schema) :
    p.JobForms job plan.jobs parts schema := by
  unfold Program.plan at hplan
  split at hplan
  · rename_i htext
    exact .plain htext (type_plan_forms hplan hlen h)
  · rename_i text htext
    split at hplan
    · rename_i added hadded
      obtain ⟨inner, hi, hplan⟩ := bind_ok_iff.1 hplan
      cases hplan
      obtain ⟨found, hf, h⟩ := bind_ok_iff.1 h
      cases h
      have hforms := type_plan_forms hi hlen hf
      exact .added htext hadded hforms
    · rename_i hdot
      cases hplan
      cases h
      refine .replaced htext (fun hhead => ?_) rfl
      obtain ⟨rest, hr⟩ := head?_eq_some_iff.1 hhead
      exact hdot rest hr

/-- What the plan of a declaration puts together. -/
inductive DeclarationForms (program : Program) : Declaration → List Schema → Schema → Prop where
  | enumeration (declared : Enumeration) :
      DeclarationForms program (.enumeration declared) []
        (.call "nativeEnum" [.symbol declared.name])
  | typeAlias (declared : Alias) (part : Schema) :
      DeclarationForms program (.typeAlias declared) [part] part
  | interface {declared : Interface} {off parts} {body : Schema} {schema}
      (hbody : program.Body .empty off declared parts body)
      (h : (program.finish {} (body.withModifiers
        (Refinement.flagged (program.tags declared.tags).strict "strict"))).result = .ok schema) :
      DeclarationForms program (.interface declared) parts schema

theorem declaration_plan_forms {decl : Declaration}
    (hplan : (p.declarationPlan decl).result = .ok plan)
    (hlen : parts.length = plan.jobs.length) (h : (plan.assemble parts).result = .ok schema) :
    p.DeclarationForms decl parts schema := by
  cases decl with
  | enumeration d =>
    cases hplan
    cases length_eq_zero_iff.1 hlen
    cases h
    exact .enumeration d
  | typeAlias d =>
    rw [declarationPlan] at hplan
    split at hplan
    · cases hplan
      obtain ⟨part, rfl⟩ := length_eq_one_iff.1 hlen
      cases h
      exact .typeAlias d part
    · cases hplan
  | interface d =>
    obtain ⟨use, huse, hplan⟩ := bind_ok_iff.1 hplan
    obtain ⟨off, rfl⟩ := interface_use_eq huse
    obtain ⟨body, hbody, h⟩ := interface_plan_forms hplan hlen h
    exact .interface hbody h

end Program

end Schemata
