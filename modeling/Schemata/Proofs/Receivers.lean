import Schemata.Proofs.Agreement
import Schemata.Proofs.Discrimination
import Schemata.Proofs.Mentions
import Schemata.Proofs.ObjectCalls

/-!
# What calls for objects are made on

A job makes a call for an object on the schema of a type when its context asks for one, when it
compiles a strict interface, and when it projects a type to some of its properties:
`Program.CallsOn`. `Program.Opens` says of which types the schemas are open to such calls.
`object_calls_received` says that all such calls in a schema stand on an object exactly when all
jobs on the way to it make them on such types.
-/

namespace Schemata

open List
open Traced (bind_ok_iff)

variable {name : Name} {args : List TypeExpr} {use : Use} {job : Job}
  {es : List (String × Schema)} {parts : List Schema} {schema : Schema}

/-- Source text takes the place of a schema. -/
def Tags.Replaces (tags : Tags) : Prop :=
  ∃ text, tags.override? = some text ∧ text.toList.head? ≠ some '.'

namespace Program

variable {inner : Environment} {plan : Plan} {added : List Modifier}

/-- The types whose schemas calls for objects can be made on. -/
inductive Opens (program : Program) : TypeExpr → Environment → Prop where
  | object {members environment} : Opens program (.object members none) environment
  | paren {type environment} (h : Opens program type environment) :
      Opens program (.paren type) environment
  | union {arm : TypeExpr} {environment} (harm : arm.isNull = false)
      (h : Opens program arm environment) : Opens program (.union [arm]) environment
  | intersection {part environment} (h : Opens program part environment) :
      Opens program (.intersection [part]) environment
  /-- An index that leads somewhere. -/
  | indexed {base index environment schema}
      (h : (program.indexedAccess (some environment) (.indexed base index)).result =
        .ok (some schema)) : Opens program (.indexed base index) environment
  /-- A parameter, or a generic alias with arguments. -/
  | entered {name arguments environment inner type}
      (huse : (program.use environment name arguments).result = .ok (.type type inner))
      (h : Opens program type inner) : Opens program (.reference name arguments) environment
  /-- An interface that is compiled in place of a reference to it. -/
  | interface {name arguments environment inner} {declared : Interface} {off}
      (huse : (program.use environment name arguments).result = .ok (.interface declared inner off))
      (hindex : declared.index = none) : Opens program (.reference name arguments) environment
  /-- `Partial`, `Required` or `Readonly`. -/
  | adjusted {name arguments environment argument} {adjust : Context → Context}
      (huse : (program.use environment name arguments).result =
        .ok (.name (.adjusted argument adjust))) (h : Opens program argument environment) :
      Opens program (.reference name arguments) environment
  /-- `Omit` or `Pick`. -/
  | projected {name arguments environment projection target keys}
      (huse : (program.use environment name arguments).result =
        .ok (.name (.projected projection target keys))) (h : Opens program target environment) :
      Opens program (.reference name arguments) environment
  /-- A name that is compiled as such. -/
  | named {name arguments environment}
      (huse : (program.use environment name arguments).result = .ok (.name .schema)) :
      Opens program (.reference name arguments) environment

/-- What the context asks for is left to another job, or is not followed at all. -/
inductive PassesOn (program : Program) (job : Job) : Prop where
  | paren {type} (htype : job.type = .paren type)
  | arm {arms : List TypeExpr} {arm} (htype : job.type = .union arms)
      (harm : arms.filter (!·.isNull) = [arm])
  | entered {name arguments inner type} (htype : job.type = .reference name arguments)
      (huse : (program.use job.environment name arguments).result = .ok (.type type inner))
  | adjusted {name arguments argument} {adjust : Context → Context}
      (htype : job.type = .reference name arguments)
      (huse : (program.use job.environment name arguments).result =
        .ok (.name (.adjusted argument adjust)))
  /-- The helper for values that may be absent takes no flags on properties. -/
  | maybe {name arguments argument} (htype : job.type = .reference name arguments)
      (huse : (program.use job.environment name arguments).result = .ok (.name (.maybe argument)))

/-- A job makes a call for an object on the schema of a type. -/
inductive CallsOn (program : Program) (job : Job) : TypeExpr → Environment → Prop where
  /-- `Partial` and `Required`. -/
  | asked (hasks : job.context.Asks) (hkeeps : ¬program.PassesOn job) :
      CallsOn program job job.type job.environment
  | strict {name arguments inner} {declared : Interface} {off}
      (htype : job.type = .reference name arguments)
      (huse : (program.use job.environment name arguments).result =
        .ok (.interface declared inner off))
      (hstrict : (program.tags declared.tags).strict = true) :
      CallsOn program job job.type job.environment
  /-- `Omit` and `Pick`. -/
  | projected {name arguments projection target keys} (htype : job.type = .reference name arguments)
      (huse : (program.use job.environment name arguments).result =
        .ok (.name (.projected projection target keys))) :
      CallsOn program job target job.environment

/-- All calls for objects that a job makes itself are made on what is open to them. -/
def CallsObjects (program : Program) (job : Job) : Prop :=
  ∀ target inner, program.CallsOn job target inner → program.Opens target inner

variable {p : Program} {ctx : Context} {env : Environment}

section Uses

variable {type : TypeExpr}

/-- Whether what a reference is compiled as is open. -/
def UseOpens (program : Program) (environment : Environment) : Use → Prop
  | .type type inner => program.Opens type inner
  | .interface declared _ _ => declared.index = none
  | .name (.adjusted argument _) => program.Opens argument environment
  | .name (.projected _ target _) => program.Opens target environment
  | .name .schema => True
  | .name _ => False

theorem opens_reference_iff (huse : (p.use env name args).result = .ok use) :
    p.Opens (.reference name args) env ↔ p.UseOpens env use := by
  constructor
  · intro h
    cases h with
    | entered hother h | adjusted hother h | projected hother h | interface hother h =>
      cases huse.symm.trans hother
      exact h
    | named hother =>
      cases huse.symm.trans hother
      trivial
  · intro h
    cases use with
    | type => exact .entered huse h
    | interface => exact .interface huse h
    | name use =>
      cases use with
      | adjusted => exact .adjusted huse h
      | projected => exact .projected huse h
      | schema => exact .named huse
      | _ => exact h.elim

/-- Whether what a reference is compiled as leaves to another job what the context asks for. -/
def UsePasses : Use → Prop
  | .type _ _ => True
  | .name (.adjusted _ _) => True
  | .name (.maybe _) => True
  | _ => False

theorem passes_reference_iff (huse : (p.use env name args).result = .ok use) :
    p.PassesOn ⟨.reference name args, env, ctx⟩ ↔ UsePasses use := by
  constructor
  · intro h
    cases h with
    | paren ht | arm ht => cases ht
    | entered ht hother | adjusted ht hother | maybe ht hother =>
      cases ht
      cases huse.symm.trans hother
      trivial
  · intro h
    cases use with
    | type => exact .entered rfl huse
    | interface => exact h.elim
    | name use =>
      cases use with
      | adjusted => exact .adjusted rfl huse
      | maybe => exact .maybe rfl huse
      | _ => exact h.elim

/-- Whether the calls that a reference makes whatever its context are made on what is open. -/
def UseCalls (program : Program) (environment : Environment) : Use → Prop
  | .interface declared _ _ => (program.tags declared.tags).strict = true → declared.index = none
  | .name (.projected _ target _) => program.Opens target environment
  | _ => True

theorem calls_reference_iff (huse : (p.use env name args).result = .ok use) :
    p.CallsObjects ⟨.reference name args, env, ctx⟩ ↔
      p.UseCalls env use ∧ (ctx.Asks → ¬UsePasses use → p.UseOpens env use) := by
  have hopens := opens_reference_iff huse
  constructor
  · intro h
    constructor
    · cases use with
      | type => trivial
      | interface =>
        exact fun hstrict => hopens.1 (h _ _ (.strict rfl huse hstrict))
      | name use =>
        cases use with
        | projected => exact h _ _ (.projected rfl huse)
        | _ => trivial
    · intro hasks hkeeps
      exact hopens.1 (h _ _ (.asked hasks fun hpasses =>
        hkeeps ((passes_reference_iff huse).1 hpasses)))
  · rintro ⟨hown, hasked⟩ target inner hcalls
    cases hcalls with
    | asked hasks hkeeps =>
      exact hopens.2 (hasked hasks fun hpasses => hkeeps ((passes_reference_iff huse).2 hpasses))
    | strict ht hother hstrict =>
      cases ht
      cases huse.symm.trans hother
      exact hopens.2 (hown hstrict)
    | projected ht hother =>
      cases ht
      cases huse.symm.trans hother
      exact hown

/-- A type that is no reference makes only the calls that the context asks for. -/
theorem calls_written_iff (hn : ∀ name args, type ≠ .reference name args)
    (hkeeps : ¬p.PassesOn ⟨type, env, ctx⟩) :
    p.CallsObjects ⟨type, env, ctx⟩ ↔ (ctx.Asks → p.Opens type env) := by
  constructor
  · exact fun h hasks => h _ _ (.asked hasks hkeeps)
  · intro h target inner hcalls
    cases hcalls with
    | asked hasks => exact h hasks
    | strict ht | projected ht => exact (hn _ _ ht).elim

/-- The types that never leave to another job what the context asks for. -/
def Keeps : TypeExpr → Prop
  | .reference _ _ => False
  | .paren _ => False
  | .union _ => False
  | _ => True

theorem calls_keeping_iff (h : Keeps type) :
    p.CallsObjects ⟨type, env, ctx⟩ ↔ (ctx.Asks → p.Opens type env) := by
  refine calls_written_iff (fun name args ht => ?_) fun hpasses => ?_
  · rw [ht] at h
    exact h
  · cases hpasses with
    | paren ht | arm ht | entered ht | adjusted ht | maybe ht =>
      cases ht
      exact h

/-- A type that is no reference and passes on what the context asks for makes no calls. -/
theorem calls_of_passing (hn : ∀ name args, type ≠ .reference name args)
    (hpasses : p.PassesOn ⟨type, env, ctx⟩) : p.CallsObjects ⟨type, env, ctx⟩ := by
  intro target inner hcalls
  cases hcalls with
  | asked _ hkeeps => exact (hkeeps hpasses).elim
  | strict ht | projected ht => exact (hn _ _ ht).elim

end Uses

/-- The schema of a job without tags is open when its type opens and its context does not wrap. -/
def TellsOpen (program : Program) (job : Job) (schema : Schema) : Prop :=
  job.context.tags = [] →
    (schema.IsOpen ↔ program.Opens job.type job.environment ∧ ¬job.context.Wraps)

/-- What a job is put together to, told by the schemas it is made of: whether calls are received and
whether it is open. -/
structure Told (program : Program) (job : Job) (parts : List Schema) (schema : Schema) : Prop where
  receives : schema.ReceivesCalls ↔
    (∀ part ∈ parts, part.ReceivesCalls) ∧ program.CallsObjects job
  opens : program.TellsOpen job schema

section Added

variable {t : TypeExpr} {before : Schema}

theorem called_by_of_modifiers {mods : List Modifier}
    (h : (p.modifiers ctx).result = .ok mods) : CalledBy ctx mods := by
  obtain ⟨formats, -, h⟩ := bind_ok_iff.1 h
  exact Refinement.modifiers_called_by h

/-- A schema to which the modifiers of the context are added. -/
theorem told_of_called (own : Prop) (hadded : CalledBy ctx added)
    (hreceives : before.ReceivesCalls ↔ (∀ part ∈ parts, part.ReceivesCalls) ∧ own)
    (hopen : before.IsOpen ↔ p.Opens t env)
    (hcalls : p.CallsObjects ⟨t, env, ctx⟩ ↔ own ∧ (ctx.Asks → p.Opens t env)) :
    p.Told ⟨t, env, ctx⟩ parts (before.withModifiers added) := by
  constructor
  · rw [hadded.calls.receives_iff, hreceives, hopen, hcalls, and_iff_right hadded.arguments,
      and_assoc]
  · intro _
    rw [Schema.open_with_modifiers, hopen, ← hadded.wraps]
    push Not
    rfl

theorem told_of_finished (hadded : CalledBy ctx added)
    (hreceives : before.ReceivesCalls ↔ ∀ part ∈ parts, part.ReceivesCalls)
    (hopen : before.IsOpen ↔ p.Opens t env)
    (hcalls : p.CallsObjects ⟨t, env, ctx⟩ ↔ (ctx.Asks → p.Opens t env)) :
    p.Told ⟨t, env, ctx⟩ parts (before.withModifiers added) := by
  refine told_of_called True hadded ?_ hopen ?_
  · rw [hreceives, and_true]
  · rw [hcalls, true_and]

/-- A schema that is not open, with modifiers that the context calls for among others. -/
theorem told_of_closed (hadded : CallsFirst ctx.Asks added)
    (hargs : ∀ mod ∈ added, ∀ arg ∈ mod.arguments, arg.ReceivesCalls)
    (hreceives : before.ReceivesCalls ↔ ∀ part ∈ parts, part.ReceivesCalls)
    (hclosed : ¬before.IsOpen) (hopens : ¬p.Opens t env)
    (hcalls : p.CallsObjects ⟨t, env, ctx⟩ ↔ (ctx.Asks → p.Opens t env)) :
    p.Told ⟨t, env, ctx⟩ parts (before.withModifiers added) := by
  have hboth := iff_of_false hclosed hopens
  constructor
  · rw [hadded.receives_iff, hreceives, hcalls, and_iff_right hargs, hboth]
  · intro _
    rw [Schema.open_with_modifiers]
    exact iff_of_false (fun h => hclosed h.1) fun h => hopens h.1

end Added

section Objects

variable {v : Option Schema} {named : List (String × Job)} {index : Option Job}

/-- The schema of an object is open when there is no index signature. -/
theorem open_object_schema : (objectSchema es v).IsOpen ↔ v = none := by
  cases v with
  | none => simp [objectSchema]
  | some v =>
    have hclosed : ¬(objectSchema es (some v)).IsOpen := by
      intro h
      have hbase := h.base
      unfold objectSchema at hbase
      dsimp only at hbase
      split at hbase
      · exact absurd hbase (by simp [Schema.base, Schema.StandsForObject])
      · exact absurd hbase (by simp [Schema.base, Schema.StandsForObject])
    simp [hclosed]

/-- The schema of an object receives calls when those of its properties and its index signature
do. -/
theorem receives_object_schema :
    (objectSchema es v).ReceivesCalls ↔
      (∀ e ∈ es, e.2.ReceivesCalls) ∧ ∀ schema ∈ v, schema.ReceivesCalls := by
  cases v with
  | none => simp [objectSchema]
  | some v =>
    unfold objectSchema
    dsimp only
    split
    · rename_i hnone
      simp [List.isEmpty_iff.1 hnone]
    · have hand : CallsFirst False [(⟨"and", [.call "object" [.object es]], false⟩ : Modifier)] :=
        CallsFirst.of_none (forall_mem_singleton.2 (by simp [Modifier.IsObjectCall]))
      refine (@CallsFirst.receives_iff _ _ hand (.call "record" [v])).trans ?_
      simp [and_comm]

/-- The schemas of members and of an index signature are all that the jobs of an object give. -/
theorem forall_object_parts {holds : Schema → Prop}
    (hlen : parts.length = (named.map (·.2) ++ index.toList).length) :
    ((∀ e ∈ (named.map (·.1)).zip parts, holds e.2) ∧
        ∀ schema ∈ parts[named.length]?, holds schema) ↔ ∀ part ∈ parts, holds part := by
  rw [length_append, length_map] at hlen
  constructor
  · rintro ⟨hes, hv⟩ part hpart
    obtain ⟨place, hlt, rfl⟩ := getElem_of_mem hpart
    by_cases hm : place < named.length
    · have hn : place < (named.map (·.1)).length := by simpa using hm
      have hzip : ((named.map (·.1))[place], parts[place]) ∈ (named.map (·.1)).zip parts := by
        refine mem_iff_getElem.2 ⟨place, ?_, getElem_zip⟩
        rw [length_zip]
        omega
      exact hes _ hzip
    · have hplace : place = named.length := by
        cases index <;> simp at hlen <;> omega
      subst hplace
      exact hv _ (getElem?_eq_getElem hlt)
  · intro hps
    refine ⟨fun e he => hps _ (of_mem_zip he).2, fun schema hs => ?_⟩
    exact hps schema (mem_of_getElem? hs)

theorem index_part_eq_none_iff (hlen : parts.length = (named.map (·.2) ++ index.toList).length) :
    parts[named.length]? = none ↔ index = none := by
  rw [length_append, length_map] at hlen
  rw [List.getElem?_eq_none_iff]
  cases index <;> simp at hlen ⊢ <;> omega

/-- A projection is open when its target is, and only then is it received. -/
theorem open_of_project {target : Schema} {proj : Projection} {keys : Option TypeExpr}
    {read : Option Environment} (h : project target proj.typeName keys read = .ok schema) :
    (schema.IsOpen ↔ target.IsOpen) ∧
      (schema.ReceivesCalls ↔ target.ReceivesCalls ∧ target.IsOpen) := by
  obtain ⟨names, -, h⟩ := bind_eq_ok_iff.1 h
  cases h
  have hn : String.ofList (proj.typeName.toList.map Char.toLower) ∈
      ["partial", "required", "strict", "omit", "pick", "extend"] := by
    cases proj <;> decide
  have hcall (args : List Schema) : Modifier.IsObjectCall
      ⟨String.ofList (proj.typeName.toList.map Char.toLower), args, false⟩ :=
    ⟨rfl, hn⟩
  refine ⟨Schema.open_called (hcall _), ?_⟩
  rw [Schema.receives_called (hcall _), forall_mem_singleton, Schema.receives_object,
    forall_mem_map]
  simp

theorem extend_is_call (args : List Schema) : Modifier.IsObjectCall ⟨"extend", args, false⟩ :=
  ⟨rfl, by simp⟩

/-- What an interface inherits is open. -/
theorem heritable_open : Heritable fun schema => schema.IsOpen ∧ schema.ReceivesCalls where
  named name := ⟨Schema.open_reference name, Schema.receives_reference name⟩
  projected := fun ⟨hopen, hreceives⟩ h =>
    ⟨(open_of_project h).1.2 hopen, (open_of_project h).2.2 ⟨hreceives, hopen⟩⟩
  extended := by
    rintro chain schema ⟨hopen, hreceives⟩ ⟨-, hs⟩
    refine ⟨(Schema.open_called (extend_is_call _)).2 hopen, ?_⟩
    refine (Schema.receives_called (extend_is_call _)).2 ⟨hreceives, ?_, hopen⟩
    simpa using hs

/-- An interface that extends others is open, and receives calls when its own properties do. -/
theorem open_of_extension {heritage : List Heritage}
    (h : (p.extensionChain heritage (some (.object es))).result = .ok (some schema)) :
    schema.IsOpen ∧ (schema.ReceivesCalls ↔ ∀ e ∈ es, e.2.ReceivesCalls) := by
  obtain ⟨chain, ⟨hopen, hreceives⟩, hs⟩ := heritable_open.of_extension h
  rcases hs with ⟨rfl, rfl⟩ | rfl
  · exact ⟨hopen, by simpa using hreceives⟩
  · refine ⟨(Schema.open_called (extend_is_call _)).2 hopen, ?_⟩
    rw [Schema.receives_called (extend_is_call _), forall_mem_singleton, Schema.receives_object]
    exact ⟨fun h => h.2.1, fun h => ⟨hreceives, h, hopen⟩⟩

/-- The call of a strict interface. -/
theorem strict_calls_first (strict : Bool) :
    CallsFirst (strict = true) (Refinement.flagged strict "strict") := by
  cases strict with
  | false => simpa [Refinement.flagged] using CallsFirst.of_none (forall_mem_nil _)
  | true => simpa [Refinement.flagged] using CallsFirst.single (⟨rfl, by simp⟩ :
      Modifier.IsObjectCall ⟨"strict", [], false⟩)

/-- The body of an interface is open without an index signature, and with one it does not receive
the call of a strict interface. -/
theorem body_told {off : Option Context} {d : Interface} {body : Schema}
    (h : p.Body inner off d parts body) :
    ((body.withModifiers (Refinement.flagged (p.tags d.tags).strict "strict")).ReceivesCalls ↔
        (∀ part ∈ parts, part.ReceivesCalls) ∧ ((p.tags d.tags).strict = true → d.index = none)) ∧
      ((body.withModifiers (Refinement.flagged (p.tags d.tags).strict "strict")).IsOpen ↔
        d.index = none) := by
  have hstrict := strict_calls_first (p.tags d.tags).strict
  have hplain : ∀ mod ∈ Refinement.flagged (p.tags d.tags).strict "strict",
      ¬mod.IsWrapper ∧ ∀ arg ∈ mod.arguments, arg.ReceivesCalls := by
    intro mod hmod
    obtain ⟨-, rfl⟩ := Refinement.mem_flagged.1 hmod
    simp [Modifier.IsWrapper]
  have hbody : (body.ReceivesCalls ↔ ∀ part ∈ parts, part.ReceivesCalls) ∧
      (body.IsOpen ↔ d.index = none) := by
    cases h with
    | object _ hlen =>
      refine ⟨receives_object_schema.trans (forall_object_parts hlen), ?_⟩
      rw [open_object_schema, index_part_eq_none_iff hlen, Option.map_eq_none_iff]
    | extended _ hidx hlen hchain =>
      obtain ⟨hopen, hreceives⟩ := open_of_extension hchain
      refine ⟨hreceives.trans ?_, iff_of_true hopen hidx⟩
      refine Iff.trans ?_ (@forall_object_parts parts _ none Schema.ReceivesCalls
        (by simpa using hlen))
      refine (and_iff_left ?_).symm
      rw [getElem?_eq_none hlen.le]
      exact fun _ h => by cases h
  constructor
  · rw [hstrict.receives_iff, hbody.1, hbody.2, and_iff_right fun mod hmem => (hplain mod hmem).2]
  · rw [Schema.open_with_modifiers, hbody.2, and_iff_left fun mod hmem => (hplain mod hmem).1]

end Objects

section Types

variable {t : TypeExpr} {jobs : List Job}

theorem not_wraps_empty : ¬Context.Wraps {} := by
  simp [Context.Wraps, Tags.get?]

/-- What stands for no object is not open, and receives what the schemas receive that it is made
of. -/
theorem closed_core_told {core : Schema} (h : ClosedCore env jobs parts core) :
    ¬core.IsOpen ∧ (core.ReceivesCalls ↔ ∀ part ∈ parts, part.ReceivesCalls) := by
  cases h with
  | call h =>
    have hcallee := h.callee
    refine ⟨by simp_all, ?_⟩
    cases h <;> simp [and_comm]
  | rest part slots =>
    have hr : CallsFirst False [(⟨"rest", [part], false⟩ : Modifier)] :=
      CallsFirst.of_none (forall_mem_singleton.2 (by simp [Modifier.IsObjectCall]))
    refine ⟨?_, (@CallsFirst.receives_iff _ _ hr (.call "tuple" [.array slots])).trans ?_⟩
    · exact fun h => by simpa using (@Schema.open_with_modifiers _ [_]).1 h
    · simp [and_comm]
  | function =>
    have hplain : CallsFirst False [(⟨"args", parts.dropLast, false⟩ : Modifier),
        ⟨"returns", parts.getLast?.toList, false⟩] :=
      CallsFirst.of_none (by simp [Modifier.IsObjectCall])
    refine ⟨?_, hplain.receives_iff.trans ?_⟩
    · rw [Schema.open_with_modifiers]
      simp
    · rcases eq_nil_or_concat parts with rfl | ⟨init, last, rfl⟩
      · simp
      · simp [or_imp, forall_and]
  | discriminated => exact ⟨by simp, by simp⟩

/-- The types whose schemas stand for no object are not open, and make only the calls that the
context asks for. -/
theorem closed_told (h : p.Closed env t) :
    ¬p.Opens t env ∧ (p.CallsObjects ⟨t, env, ctx⟩ ↔ (ctx.Asks → p.Opens t env)) := by
  cases h with
  | written h =>
    refine ⟨fun hopens => by cases hopens <;> exact h, calls_keeping_iff ?_⟩
    cases t <;> first | exact h | trivial
  | @named _ _ use huse h =>
    have hopens := opens_reference_iff huse
    rw [calls_reference_iff huse, hopens]
    cases use <;> simp_all [NameUse.IsClosed, UseOpens, UseCalls, UsePasses]
  | union h =>
    refine ⟨fun hopens => ?_, calls_written_iff (by simp) fun hpasses => ?_⟩
    · cases hopens with
      | @union arm _ harm => exact h arm (by simp [harm])
    · cases hpasses with
      | arm ht harm =>
        cases ht
        exact h _ harm
      | paren ht | entered ht | adjusted ht | maybe ht => cases ht
  | indexed h =>
    refine ⟨fun hopens => ?_, calls_keeping_iff trivial⟩
    cases hopens with
    | indexed hother => cases h.symm.trans hother

/-- The only arm beside null is wrapped when there is a null. -/
theorem opens_only_arm_iff {arms : List TypeExpr} {arm : TypeExpr}
    (harm : arms.filter (!·.isNull) = [arm]) :
    p.Opens arm env ∧ ¬Context.Wraps { ctx with
        nullable := ctx.nullable || decide ([arm].length ≠ arms.length) } ↔
      p.Opens (.union arms) env ∧ ¬ctx.Wraps := by
  by_cases hlen : [arm].length = arms.length
  · obtain ⟨only, rfl⟩ := length_eq_one_iff.1 hlen.symm
    have hnull : only.isNull = false := by
      by_contra hnull
      simp [Bool.eq_true_of_not_eq_false hnull] at harm
    obtain rfl : only = arm := by simpa [hnull] using harm
    refine and_congr ⟨.union hnull, fun h => by cases h; assumption⟩ ?_
    simp [Context.Wraps]
  · refine iff_of_false (fun h => h.2 (.inr (.inl ?_))) fun h => ?_
    · rw [decide_eq_true hlen, Bool.or_true]
    · cases h.1 with
      | union => exact hlen rfl

/-- A job that is left to another one makes no calls, and is open when that one is. -/
theorem left_to_told {next : Job} (h : p.LeftTo env ctx t next) :
    p.CallsObjects ⟨t, env, ctx⟩ ∧ next.context.tags = ctx.tags ∧
      (p.Opens next.type next.environment ∧ ¬next.context.Wraps ↔ p.Opens t env ∧ ¬ctx.Wraps) := by
  cases h with
  | entered huse =>
    refine ⟨(calls_reference_iff huse).2 ⟨trivial, fun _ h => (h trivial).elim⟩, rfl, ?_⟩
    rw [opens_reference_iff huse]
    rfl
  | adjusted huse =>
    refine ⟨(calls_reference_iff huse).2 ⟨trivial, fun _ h => (h trivial).elim⟩,
      tags_of_adjusted huse ctx, ?_⟩
    rw [opens_reference_iff huse]
    rcases adjusted_cases huse with rfl | rfl | rfl <;> rfl
  | arm harm =>
    exact ⟨calls_of_passing (by simp) (.arm rfl harm), rfl, opens_only_arm_iff harm⟩
  | paren =>
    refine ⟨calls_of_passing (by simp) (.paren rfl), rfl, ?_⟩
    exact and_congr_left fun _ => ⟨.paren, fun h => by cases h; assumption⟩

/-- What can stand for an object, with the modifiers of the context. -/
theorem open_core_told {core : Schema}
    (h : p.OpenCore env t jobs parts core) (hps : Forall₂ p.TellsOpen jobs parts)
    (hadded : CalledBy ctx added) :
    p.Told ⟨t, env, ctx⟩ parts (core.withModifiers added) := by
  cases h with
  | object hlen =>
    refine told_of_finished hadded ?_ ?_ (calls_keeping_iff trivial)
    · exact receives_object_schema.trans (forall_object_parts hlen)
    · rw [open_object_schema, index_part_eq_none_iff hlen, Option.map_eq_none_iff]
      exact ⟨fun h => h ▸ .object, fun h => by cases h; rfl⟩
  | interface huse hbody =>
    obtain ⟨hreceives, hopen⟩ := body_told hbody
    have hopens := opens_reference_iff huse
    refine told_of_called _ hadded hreceives (hopen.trans hopens.symm) ?_
    rw [calls_reference_iff huse, hopens]
    exact and_congr_right fun _ => forall_congr' fun _ => forall_prop_of_true id
  | @intersection _ rest part others hlen =>
    have hand : CallsFirst False (others.map fun other => (⟨"and", [other], false⟩ : Modifier)) :=
      CallsFirst.of_none (forall_mem_map.2 fun _ _ => by simp [Modifier.IsObjectCall])
    refine told_of_finished hadded (hand.receives_iff.trans (by simp)) ?_
      (calls_keeping_iff trivial)
    rw [Schema.open_with_modifiers, forall_mem_map]
    cases hps with
    | cons hpart =>
      have ha := (hpart rfl).trans (and_iff_left not_wraps_empty)
      cases rest with
      | nil =>
        cases length_eq_zero_iff.1 hlen
        refine (and_iff_left (by simp)).trans (ha.trans ?_)
        exact ⟨.intersection, fun h => by cases h; assumption⟩
      | cons =>
        cases others with
        | nil => cases hlen
        | cons =>
          refine iff_of_false (fun h => ?_) fun h => by cases h
          exact h.2 _ mem_cons_self ⟨rfl, by simp⟩
  | @projected _ _ _ target _ _ _ huse h =>
    obtain ⟨hopen, hreceives⟩ := open_of_project h
    have hopens := opens_reference_iff huse
    cases hps with
    | cons hpart =>
      have htarget := (hpart rfl).trans (and_iff_left not_wraps_empty)
      refine told_of_called (p.Opens target env) hadded (hreceives.trans ?_)
        (hopen.trans (htarget.trans hopens.symm)) ?_
      · rw [forall_mem_singleton]
        exact and_congr_right fun _ => htarget
      · rw [calls_reference_iff huse, hopens]
        exact and_congr_right fun _ => forall_congr' fun _ => forall_prop_of_true id
  | named huse =>
    have hopen := (opens_reference_iff huse).2 trivial
    refine told_of_finished hadded (by simp) (iff_of_true (Schema.open_reference _) hopen) ?_
    exact iff_of_true ((calls_reference_iff huse).2 ⟨trivial, fun _ _ => trivial⟩) fun _ => hopen
  | path h =>
    refine told_of_finished hadded (by simp) ?_ (calls_keeping_iff trivial)
    exact iff_of_true (Schema.open_field _ _) (.indexed h)

/-- The texts of a template are not open. -/
theorem texts_told {head : Json} {spans : List (TemplateSpan TypeExpr)} {values : Values}
    (hadded : CalledBy ctx added) :
    p.Told ⟨.template head spans, env, ctx⟩ [] (values.schema added) := by
  have hopens : ¬p.Opens (.template head spans) env := fun h => by cases h
  have hnullable : ∀ mod ∈ (if values.hasNull then
      [(⟨"nullable", [], false⟩ : Modifier)] else []),
      ¬mod.IsObjectCall ∧ ∀ arg ∈ mod.arguments, arg.ReceivesCalls := by
    split <;> simp [Modifier.IsObjectCall]
  have hcalls := hadded.calls.append_right fun mod hmem => (hnullable mod hmem).1
  have hargs := forall_mem_append.2 ⟨hadded.arguments, fun mod hmem => (hnullable mod hmem).2⟩
  unfold Values.schema
  dsimp only
  split
  · exact told_of_closed hcalls hargs (by simp) (by simp) hopens (calls_keeping_iff trivial)
  · exact told_of_closed hcalls hargs (by simp) (by simp) hopens (calls_keeping_iff trivial)

/-- What is put together for a type is told by the schemas it is made of. -/
theorem forms_told
    (h : p.Forms env ctx t jobs parts schema) (hps : Forall₂ p.TellsOpen jobs parts) :
    p.Told ⟨t, env, ctx⟩ parts schema := by
  cases h with
  | through h =>
    obtain ⟨hcalls, htags, hopens⟩ := left_to_told h
    cases hps with
    | cons hpart =>
      refine ⟨?_, fun hnone => (hpart (htags.trans hnone)).trans hopens⟩
      rw [forall_mem_singleton, and_iff_left hcalls]
  | maybe huse =>
    have hplain : ∀ mod ∈ Refinement.flagged ctx.optional "optional",
        ¬mod.IsObjectCall ∧ ∀ arg ∈ mod.arguments, arg.ReceivesCalls := by
      intro mod hmod
      obtain ⟨-, rfl⟩ := Refinement.mem_flagged.1 hmod
      simp [Modifier.IsObjectCall]
    have hoptional := CallsFirst.of_none fun mod hmem => (hplain mod hmem).1
    constructor
    · rw [hoptional.receives_iff, Schema.receives_helper]
      refine and_congr_right fun _ => iff_of_true ?_ ?_
      · exact ⟨fun mod hmem => (hplain mod hmem).2, False.elim⟩
      · exact (calls_reference_iff huse).2 ⟨trivial, fun _ h => (h trivial).elim⟩
    · intro _
      rw [Schema.open_with_modifiers, opens_reference_iff huse]
      exact iff_of_false (fun h => Schema.not_open_helper h.1) fun h => h.1
  | texts _ hmods => exact texts_told (called_by_of_modifiers hmods)
  | closed ht hcore h =>
    obtain ⟨mods, hmods, h⟩ := bind_ok_iff.1 h
    cases h
    have hadded := called_by_of_modifiers hmods
    obtain ⟨hclosed, hreceives⟩ := closed_core_told hcore
    obtain ⟨hopens, hcalls⟩ := closed_told ht
    exact told_of_closed hadded.calls hadded.arguments hreceives hclosed hopens hcalls
  | opened hcore h =>
    obtain ⟨mods, hmods, h⟩ := bind_ok_iff.1 h
    cases h
    exact open_core_told hcore hps (called_by_of_modifiers hmods)

end Types

section Jobs

variable {t : TypeExpr} {other : Context}

/-- Whether a job passes on what is asked for does not depend on its context. -/
theorem PassesOn.with_context (h : p.PassesOn ⟨t, env, ctx⟩) : p.PassesOn ⟨t, env, other⟩ := by
  cases h with
  | paren ht => exact .paren ht
  | arm ht harm => exact .arm ht harm
  | entered ht huse => exact .entered ht huse
  | adjusted ht huse => exact .adjusted ht huse
  | maybe ht huse => exact .maybe ht huse

/-- The calls that a job makes depend on its context only by what is asked for. -/
theorem CallsOn.with_context {target : TypeExpr} (hasks : ctx.Asks → other.Asks)
    (h : p.CallsOn ⟨t, env, ctx⟩ target inner) :
    p.CallsOn ⟨t, env, other⟩ target inner := by
  cases h with
  | asked hasked hkeeps => exact .asked (hasks hasked) fun hpasses => hkeeps hpasses.with_context
  | strict ht huse hstrict => exact .strict ht huse hstrict
  | projected ht huse => exact .projected ht huse

/-- The plan of a job tells what it puts together, unless source text takes its place. -/
theorem plan_told (hkept : ¬job.context.tags.Replaces) (hplan : (p.plan job).result = .ok plan)
    (hps : Forall₂ p.TellsOpen plan.jobs parts)
    (h : (plan.assemble parts).result = .ok schema) : p.Told job parts schema := by
  cases plan_forms hplan hps.length_eq.symm h with
  | plain _ hforms => exact forms_told hforms hps
  | @added _ _ added htext _ hforms =>
    have htold := forms_told hforms hps
    have hraw : CallsFirst False [(⟨String.ofList added, [], true⟩ : Modifier)] :=
      CallsFirst.of_none (by simp [Modifier.IsObjectCall])
    constructor
    · refine hraw.receives_iff.trans ?_
      rw [htold.receives]
      constructor
      · rintro ⟨⟨hps, hcalls⟩, -⟩
        exact ⟨hps, fun target inner hcall =>
          hcalls target inner (hcall.with_context (by exact id))⟩
      · rintro ⟨hps, hcalls⟩
        refine ⟨⟨hps, fun target inner hcall => ?_⟩, by simp, False.elim⟩
        exact hcalls target inner (hcall.with_context (by exact id))
    · intro hnone
      rw [hnone] at htext
      cases htext
  | replaced htext hdot => exact (hkept ⟨_, htext, hdot⟩).elim

/-- Where source text takes its place, a schema is that text. -/
theorem plan_of_replaced (h : job.context.tags.Replaces) :
    ∃ text, p.plan job = pure (.leaf (pure (.verbatim text))) := by
  obtain ⟨text, htext, hdot⟩ := h
  exact ⟨text, p.plan_replaced htext fun added hadded => hdot (by rw [hadded]; rfl)⟩

theorem not_replaces_of_none {tags : Tags} (h : tags.override? = none) : ¬tags.Replaces := by
  rintro ⟨text, htext, -⟩
  cases h.symm.trans htext

/-- The schema of a job without tags is open when its type opens and its context does not wrap. -/
theorem compile_tells_open (h : (p.compile job).result = .ok schema) : p.TellsOpen job schema := by
  refine compile_induction ?_ h
  intro job plan parts schema hplan _ hps h hnone
  have hkept : ¬job.context.tags.Replaces := not_replaces_of_none (by rw [hnone]; rfl)
  exact (plan_told hkept hplan hps h).opens hnone

/-- All jobs on the way make their calls for objects on what is open to them, except where source
text takes the place of a schema. -/
def AllCallObjects (program : Program) (job : Job) : Prop :=
  ∀ met, program.Reaches met job → ¬met.context.tags.Replaces → program.CallsObjects met

theorem all_call_objects_iff (h : (p.plan job).result = .ok plan) :
    p.AllCallObjects job ↔
      (¬job.context.tags.Replaces → p.CallsObjects job) ∧
        ∀ next ∈ plan.jobs, p.AllCallObjects next := by
  constructor
  · intro hall
    refine ⟨hall job .refl, fun next hnext met hmet => hall met ?_⟩
    exact hmet.tail ⟨plan, h, hnext⟩
  · rintro ⟨hself, hnext⟩ met hmet
    rcases Relation.ReflTransGen.cases_tail_iff _ _ _ |>.1 hmet with rfl | ⟨next, hreaches, hcalls⟩
    · exact hself
    · obtain ⟨other, hother, hmem⟩ := hcalls
      cases h.symm.trans hother
      exact hnext next hmem met hreaches

/-- The schema of a job receives all calls for objects exactly when all jobs on the way make them on
what is open to them. -/
theorem compile_receives_iff (h : (p.compile job).result = .ok schema) :
    schema.ReceivesCalls ↔ p.AllCallObjects job := by
  refine compile_induction (motive := fun job s => s.ReceivesCalls ↔ p.AllCallObjects job) ?_ h
  intro job plan parts schema hplan hps ih h
  rw [all_call_objects_iff hplan, forall_iff_of_forall₂ ih fun _ _ h => h.symm]
  by_cases hkept : job.context.tags.Replaces
  · obtain ⟨text, htext⟩ := @plan_of_replaced job p hkept
    rw [htext] at hplan
    cases hplan
    cases hps
    cases h
    simp [hkept]
  · have htold := plan_told hkept hplan (hps.imp fun next part => compile_tells_open) h
    rw [htold.receives, and_comm]
    simp [hkept]

end Jobs

/-- A declaration makes calls for objects on what is open to them: an interface is not strict when
it has an index signature, and so on for all jobs on the way. -/
structure DeclarationCallsObjects (program : Program) (declaration : Declaration) : Prop where
  strict : ∀ declared, declaration = .interface declared →
    (program.tags declared.tags).strict = true → declared.index = none
  jobs : ∀ plan, (program.declarationPlan declaration).result = .ok plan →
    ∀ job ∈ plan.jobs, program.AllCallObjects job

/-- The schema of a declaration receives all calls for objects exactly when the declaration makes
them on what is open to them. -/
theorem declaration_receives_iff {decl : Declaration}
    (h : (p.declarationSchema decl).result = .ok schema) :
    schema.ReceivesCalls ↔ p.DeclarationCallsObjects decl := by
  rw [declaration_schema_eq] at h
  obtain ⟨plan, parts, hplan, hps, hs⟩ := run_inversion h
  clear h
  have hpart : (∀ part ∈ parts, part.ReceivesCalls) ↔ ∀ next ∈ plan.jobs, p.AllCallObjects next :=
    (forall_iff_of_forall₂ hps fun _ _ hpart => (compile_receives_iff hpart).symm).symm
  have hjobs : (∀ plan, (p.declarationPlan decl).result = .ok plan →
      ∀ job ∈ plan.jobs, p.AllCallObjects job) ↔ ∀ part ∈ parts, part.ReceivesCalls := by
    rw [hpart]
    refine ⟨fun hall => hall plan hplan, fun hall other hother => ?_⟩
    cases hplan.symm.trans hother
    exact hall
  -- Only an interface makes a call of its own.
  have hplain (hstrict : ∀ d, decl = .interface d → (p.tags d.tags).strict = true → d.index = none)
      (hreceives : schema.ReceivesCalls ↔ ∀ part ∈ parts, part.ReceivesCalls) :
      schema.ReceivesCalls ↔ p.DeclarationCallsObjects decl := by
    rw [hreceives, ← hjobs]
    exact ⟨fun hall => ⟨hstrict, hall⟩, fun hall => hall.jobs⟩
  cases declaration_plan_forms hplan hps.length_eq.symm hs with
  | enumeration | typeAlias => exact hplain (fun _ h => by cases h) (by simp)
  | @interface d _ _ _ _ hbody h =>
    obtain ⟨mods, hmods, h⟩ := bind_ok_iff.1 h
    cases h
    have hadded := called_by_of_modifiers hmods
    have hasks : ¬Context.Asks {} := by simp [Context.Asks]
    rw [hadded.calls.receives_iff, (body_told hbody).1, ← hjobs]
    constructor
    · rintro ⟨⟨hall, hstrict⟩, -⟩
      exact ⟨fun other hother => by cases hother; exact hstrict, hall⟩
    · intro hall
      exact ⟨⟨hall.jobs, hall.strict d rfl⟩, hadded.arguments, fun h => (hasks h).elim⟩

/-- The calls for objects in a schema, at any depth, stand on what makes an object or stands for one
and on no wrapper, exactly when the jobs on the way to it make them on types that are open to them:
for every type in every environment, and for every declaration. -/
theorem object_calls_received (program : Program) :
    (∀ type environment tags schema,
      (program.schemaOf (some type) environment tags).result = .ok schema →
        (schema.ReceivesCalls ↔
          program.AllCallObjects ⟨type, environment, { tags := program.tags tags }⟩)) ∧
    ∀ declaration compiled, (program.compileDeclaration declaration).result = .ok compiled →
      (compiled.schema.ReceivesCalls ↔ program.DeclarationCallsObjects declaration) := by
  refine ⟨fun type environment tags schema h => ?_, fun declaration compiled h => ?_⟩
  · rw [schema_of_some] at h
    exact compile_receives_iff h
  · exact declaration_receives_iff (compiled_of_result h).1

/-- The interface `interface Dog { name: string }` and the alias `type Stray = type`. -/
def strays (type : TypeExpr) : Program where
  unit := ⟨.null, [
      .interface ⟨.str "Dog", [], true, [], [],
        [⟨"name", some (.keyword .string), false, false, []⟩], none⟩,
      .typeAlias ⟨.str "Stray", [], true, [], type⟩], []⟩
  settings := Settings.default

/-- `type Stray = Partial<Omit<Dog, "name">>`. -/
def nameless : TypeExpr :=
  .reference (.str "Partial")
    [.reference (.str "Omit") [.reference (.str "Dog") [], .literal (.str "name")]]

/-- Properties are left out of a named type, and the others may be left out. -/
theorem nameless_stray_received :
    ∃ compiled, ((strays nameless).compileDeclaration
        (.typeAlias ⟨.str "Stray", [], true, [], nameless⟩)).result = .ok compiled ∧
      compiled.schema = ((Schema.reference (.str "dogSchema")).modify
        ⟨"omit", [.object [("name", .value (.bool true))]], false⟩).modify ⟨"partial", [], false⟩ ∧
      compiled.schema.ReceivesCalls ∧
      (strays nameless).DeclarationCallsObjects
        (.typeAlias ⟨.str "Stray", [], true, [], nameless⟩) := by
  have hpartial : Modifier.IsObjectCall ⟨"partial", [], false⟩ := ⟨rfl, by simp⟩
  have homit : Modifier.IsObjectCall ⟨"omit", [.object [("name", .value (.bool true))]], false⟩ :=
    ⟨rfl, by simp⟩
  have hreceives : (((Schema.reference (.str "dogSchema")).modify
      ⟨"omit", [.object [("name", .value (.bool true))]], false⟩).modify
        ⟨"partial", [], false⟩).ReceivesCalls := by
    rw [Schema.receives_called hpartial, Schema.receives_called homit, Schema.open_called homit]
    simp
  refine ⟨_, rfl, rfl, hreceives, ?_⟩
  exact ((object_calls_received (strays nameless)).2 _ _ rfl).1 hreceives

/-- A text has no properties that may be left out. -/
theorem partial_text_not_received :
    ∃ compiled, ((strays (.reference (.str "Partial") [.keyword .string])).compileDeclaration
        (.typeAlias ⟨.str "Stray", [], true, [],
          .reference (.str "Partial") [.keyword .string]⟩)).result = .ok compiled ∧
      compiled.schema = (Schema.call "string" []).modify ⟨"partial", [], false⟩ ∧
      ¬compiled.schema.ReceivesCalls := by
  have hpartial : Modifier.IsObjectCall ⟨"partial", [], false⟩ := ⟨rfl, by simp⟩
  have hnot : ¬((Schema.call "string" []).modify ⟨"partial", [], false⟩).ReceivesCalls := by
    rw [Schema.receives_called hpartial]
    simp
  exact ⟨_, rfl, rfl, hnot⟩

end Program

end Schemata
