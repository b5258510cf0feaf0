import Schemata.Proofs.Forms

/-!
# Discriminated unions

A discriminated union names a field, and every arm of it should have that field: it should be an
object with an entry of that name, or stand on a schema that has a name, `Schema.IsArm`. Whether the
arms can be told apart is decided by looking at their types, and the schema of a type can be
something else than what it looks like. `Program.YieldsArm` says of which types the schemas are arms
in this sense, and `discriminated_union_arms` that every discriminated union that is emitted has
arms of just those types.
-/

namespace Schemata

open List
open Traced (bind_ok_iff lift_ok_iff)

variable {schemas args : List Schema} {schema : Schema} {callee : String} {name : Name}

/-- An expression that has a field, or stands on a schema that has a name. -/
def Schema.IsArm (field : String) (schema : Schema) : Prop :=
  (∃ entries, schema.base = .call "object" [.object entries] ∧ field ∈ keys entries) ∨
    (∃ name, schema.base = .reference name) ∨
    ∃ target path name, schema.base = .field (some target) path ∧ target.base = .reference name

/-- Whether an expression is an arm depends on what it stands on. -/
theorem Schema.Finishes.is_arm_iff {a b : Schema} (h : a.Finishes b)
    {field : String} : a.IsArm field ↔ b.IsArm field := by
  rw [IsArm, IsArm, h.base]

namespace Program

variable {p program : Program} {ctx : Context} {env : Environment} {plan : Plan} {jobs : List Job}
  {use : NameUse TypeExpr} {job : Job} {parts : List Schema} {t : TypeExpr}

section Looks

variable {arms : List TypeExpr}

/-- An arm looks like one that has a field: it is an object type that has the field, or a named
type. -/
def LooksLikeArm (environment : Environment) (field : String) (arm : TypeExpr) : Prop :=
  ∃ found, environment.substitute arm = .ok found ∧
    ((∃ name arguments, found.unwrap = .reference name arguments) ∨
      ∃ members index, found.unwrap = .object members index ∧
        (findMember? members (.str field)).isSome)

/-- The arms of a union are taken to be told apart when each of them looks like that. -/
theorem looks_like_of_discriminated {field : String}
    (h : (discriminated env field arms).result = .ok true) :
    ∀ arm ∈ arms, LooksLikeArm env field arm := by
  induction arms with
  | nil => exact fun _ h => by cases h
  | cons a rest ih =>
    obtain ⟨found, hf, h⟩ := bind_ok_iff.1 h
    have hsubstitute := lift_ok_iff.1 hf
    dsimp only at h
    have hno {warning : Json → Warning} {t : TypeExpr}
        (h : (do
          Compilation.warn (warning (← t.text))
          return false : Compilation Bool).result = .ok true) : False := by
      obtain ⟨text, -, h⟩ := bind_ok_iff.1 h
      obtain ⟨done, -, h⟩ := bind_ok_iff.1 h
      cases h
    have hhead : LooksLikeArm env field a ∧ (discriminated env field rest).result = .ok true := by
      split at h
      · rename_i name args hun
        exact ⟨⟨found, hsubstitute, .inl ⟨name, args, hun⟩⟩, h⟩
      · rename_i ms index hun
        cases hm : findMember? ms (.str field) with
        | none =>
          rw [hm] at h
          exact (@hno (fun text => .armWithoutField text field) _ h).elim
        | some =>
          rw [hm] at h
          exact ⟨⟨found, hsubstitute, .inr ⟨ms, index, hun, by simp [hm]⟩⟩, h⟩
      · exact (hno h).elim
    rintro arm harm
    rcases mem_cons.1 harm with rfl | harm
    · exact hhead.1
    · exact ih hhead.2 arm harm

end Looks

/-- All discriminated unions in a schema are in one of the schemas that it is made of. -/
def FromParts (parts : List Schema) (schema : Schema) : Prop :=
  ∀ arguments, schema.Makes "discriminatedUnion" arguments →
    ∃ part ∈ parts, part.Makes "discriminatedUnion" arguments

section Unions

variable {names : List String} {finished : Schema}

theorem from_parts_mem (h : schema ∈ parts) : FromParts parts schema :=
  fun _ hmakes => ⟨schema, h, hmakes⟩

theorem from_parts_call (hcallee : callee ≠ "discriminatedUnion")
    (h : ∀ schema ∈ schemas, FromParts parts schema) : FromParts parts (.call callee schemas) := by
  intro args hmakes
  rcases Schema.makes_call.1 hmakes with ⟨hn, -⟩ | ⟨schema, hs, hmakes⟩
  · exact (hcallee hn).elim
  · exact h schema hs args hmakes

theorem from_parts_array (h : ∀ schema ∈ schemas, FromParts parts schema) :
    FromParts parts (.array schemas) := by
  intro args hmakes
  obtain ⟨schema, hs, hmakes⟩ := Schema.makes_array.1 hmakes
  exact h schema hs args hmakes

/-- The entries of an object literal are among the schemas that were given names. -/
theorem from_parts_object : FromParts parts (.object (names.zip parts)) := by
  intro args hmakes
  obtain ⟨e, he, hmakes⟩ := Schema.makes_object.1 hmakes
  exact ⟨e.2, (of_mem_zip he).2, hmakes⟩

theorem from_parts_with_modifiers {s : Schema} {mods : List Modifier} (h : FromParts parts s)
    (hmods : ∀ mod ∈ mods, ∀ arg ∈ mod.arguments,
      FromParts parts arg) : FromParts parts (s.withModifiers mods) := by
  intro args hmakes
  rcases Schema.makes_with_modifiers.1 hmakes with
    hmakes | ⟨mod, hmod, arg, harg, hmakes⟩
  · exact h args hmakes
  · exact hmods mod hmod arg harg args hmakes

/-- Modifiers without calls in them add nothing. -/
theorem FromParts.finish (h : FromParts parts schema) (hfinish : finished.Finishes schema) :
    FromParts parts finished := fun args hmakes => h args ((hfinish.makes _ _).1 hmakes)

theorem from_parts_of_finish (h : FromParts parts schema)
    (hfinish : (p.finish ctx schema).result = .ok finished) : FromParts parts finished :=
  h.finish (finishes_of_finish hfinish)

theorem from_parts_of_none (h : ∀ args, ¬schema.Makes "discriminatedUnion" args) :
    FromParts parts schema := fun args hmakes => (h args hmakes).elim

/-- The schema of an object is made of the schemas of its properties and its index signature. -/
theorem from_parts_object_schema {place : Nat} :
    FromParts parts (objectSchema (names.zip parts) parts[place]?) := by
  have hobj : FromParts parts (.call "object" [.object (names.zip parts)]) := by
    refine from_parts_call (by decide) fun schema hs => ?_
    cases mem_singleton.1 hs
    exact from_parts_object
  cases hv : parts[place]? with
  | none => exact hobj
  | some v =>
    have hrecord : FromParts parts (.call "record" [v]) := by
      refine from_parts_call (by decide) fun schema hs => ?_
      cases mem_singleton.1 hs
      exact from_parts_mem (mem_of_getElem? hv)
    unfold objectSchema
    dsimp only
    split
    · exact hrecord
    · refine @from_parts_with_modifiers parts _ [_] hrecord fun mod hmod => ?_
      cases mem_singleton.1 hmod
      intro arg harg
      cases mem_singleton.1 harg
      exact hobj

/-- A call that is made of schemas adds no discriminated union. -/
theorem from_parts_of_call_of {args : List Schema} (h : Schema.IsCallOf parts callee args) :
    FromParts parts (.call callee args) := by
  refine from_parts_call (fun heq => h.callee (by simp [heq])) fun arg harg => ?_
  cases h with
  | plain => cases harg
  | literal | member | object =>
    cases mem_singleton.1 harg
    exact from_parts_of_none (by simp)
  | array | record | set | promise => exact from_parts_mem harg
  | keyed value key => exact from_parts_mem ((Perm.swap value key []).mem_iff.1 harg)
  | tuple | union =>
    cases mem_singleton.1 harg
    exact from_parts_array fun _ => from_parts_mem

theorem from_parts_of_body {off : Option Context} {d : Interface}
    (h : p.Body env off d parts schema) : FromParts parts
      (schema.withModifiers (Refinement.flagged (p.tags d.tags).strict "strict")) := by
  refine FromParts.finish ?_ ((Refinement.call_free_flagged _ _).finishes schema)
  cases h with
  | object => exact from_parts_object_schema
  | extended _ _ _ h =>
    exact fun args hmakes => from_parts_object args
      (Schema.makes_object.2 ((extension_schema h).2 _ _ hmakes))

/-- What can stand for an object adds no discriminated union. -/
theorem from_parts_of_open (h : p.OpenCore env t jobs parts schema) : FromParts parts schema := by
  cases h with
  | object => exact from_parts_object_schema
  | interface _ h => exact from_parts_of_body h
  | intersection =>
    refine from_parts_with_modifiers (from_parts_mem mem_cons_self) (forall_mem_map.2 ?_)
    exact fun other hother => forall_mem_singleton.2 (from_parts_mem (mem_cons_of_mem _ hother))
  | projected _ h => exact (from_parts_mem mem_cons_self).finish (finishes_of_project h)
  | named | path => exact from_parts_of_none (by simp)

end Unions

/-- The arguments of a discriminated union come from the arms of a union, which look as if they had
the field. -/
structure Discriminated (program : Program) (environment : Environment) (field : String)
    (arms : List TypeExpr) (schemas : List Schema) : Prop where
  two : 2 ≤ arms.length
  looks : ∀ arm ∈ arms, LooksLikeArm environment field arm
  compiled : List.Forall₂ (fun arm schema =>
    (program.compile ⟨arm, environment, {}⟩).result = .ok schema) arms schemas

/-- The types whose schemas have a field or stand on a schema that has a name. -/
inductive YieldsArm (program : Program) (field : String) : TypeExpr → Environment → Prop where
  /-- An object type without an index signature in which the field has a type. -/
  | object {members environment}
      (h : ∃ member ∈ members, member.name = field ∧ member.type.isSome) :
      YieldsArm program field (.object members none) environment
  | paren {type environment} (h : YieldsArm program field type environment) :
      YieldsArm program field (.paren type) environment
  /-- A union that has only one arm beside null. -/
  | union {arms : List TypeExpr} {arm environment} (harm : arms.filter (!·.isNull) = [arm])
      (h : YieldsArm program field arm environment) :
      YieldsArm program field (.union arms) environment
  /-- The schema of an intersection stands on the one of its first part. -/
  | intersection {first rest environment} (h : YieldsArm program field first environment) :
      YieldsArm program field (.intersection (first :: rest)) environment
  /-- An index that leads somewhere. -/
  | indexed {base index environment schema}
      (h : (program.indexedAccess (some environment) (.indexed base index)).result =
        .ok (some schema)) : YieldsArm program field (.indexed base index) environment
  /-- A parameter, or a generic alias with arguments. -/
  | entered {name arguments environment inner type}
      (huse : (program.use environment name arguments).result = .ok (.type type inner))
      (h : YieldsArm program field type inner) :
      YieldsArm program field (.reference name arguments) environment
  /-- An interface that is compiled in place of a reference to it. -/
  | interface {name arguments environment inner} {declared : Interface} {off}
      (huse : (program.use environment name arguments).result = .ok (.interface declared inner off))
      (hheritage : declared.heritage = []) (hindex : declared.index = none)
      (h : ∃ member ∈ declared.members, member.name = field ∧ member.type.isSome) :
      YieldsArm program field (.reference name arguments) environment
  | extended {name arguments environment inner} {declared : Interface} {off}
      (huse : (program.use environment name arguments).result = .ok (.interface declared inner off))
      (hheritage : declared.heritage ≠ []) :
      YieldsArm program field (.reference name arguments) environment
  /-- `Partial`, `Required` or `Readonly`. -/
  | adjusted {name arguments environment argument} {adjust : Context → Context}
      (huse : (program.use environment name arguments).result =
        .ok (.name (.adjusted argument adjust)))
      (h : YieldsArm program field argument environment) :
      YieldsArm program field (.reference name arguments) environment
  /-- `Omit` or `Pick`. -/
  | projected {name arguments environment projection target keys}
      (huse : (program.use environment name arguments).result =
        .ok (.name (.projected projection target keys)))
      (h : YieldsArm program field target environment) :
      YieldsArm program field (.reference name arguments) environment
  /-- A name that is compiled as such. -/
  | named {name arguments environment}
      (huse : (program.use environment name arguments).result = .ok (.name .schema)) :
      YieldsArm program field (.reference name arguments) environment

section Jobs

/-- A discriminated union in what a plan puts together is in one of the schemas before it, or it is
the one of a union type. -/
theorem origin_of_forms {s : Schema} (h : p.Forms env ctx t jobs parts s)
    (hps : Forall₂ (fun job s => (p.compile job).result = .ok s) jobs parts)
    {args : List Schema} (hmakes : s.Makes "discriminatedUnion" args) :
    (∃ part ∈ parts, part.Makes "discriminatedUnion" args) ∨
      ∃ field arms schemas, args = [.value (.str field), .array schemas] ∧
        p.Discriminated env field arms schemas := by
  cases h with
  | through => exact .inl ⟨s, mem_cons_self, hmakes⟩
  | maybe =>
    have hhelper := (((Refinement.call_free_flagged _ _).finishes _).makes _ _).1 hmakes
    exact .inl (Schema.makes_helper.1 hhelper)
  | texts _ hmods =>
    rcases values_schema_cases _ (call_free_of_modifiers hmods) with ⟨_, htexts⟩ | ⟨_, htexts⟩
    all_goals
      have hnone := (htexts.makes _ _).1 hmakes
      simp at hnone
  | opened hcore h => exact .inl (from_parts_of_finish (from_parts_of_open hcore) h args hmakes)
  | closed _ hcore h =>
    have hmakes := ((finishes_of_finish h).makes _ _).1 hmakes
    cases hcore with
    | call hcall => exact .inl (from_parts_of_call_of hcall args hmakes)
    | rest part slots => exact .inl (by simpa [or_comm] using hmakes)
    | function =>
      have hparts : ∃ part ∈ parts.dropLast ++ parts.getLast?.toList,
          part.Makes "discriminatedUnion" args := by simpa [or_and_right, exists_or] using hmakes
      obtain ⟨part, hpart, hmakes⟩ := hparts
      refine .inl ⟨part, ?_, hmakes⟩
      rcases mem_append.1 hpart with hpart | hpart
      · exact mem_of_mem_dropLast hpart
      · exact mem_of_getLast? (Option.mem_toList.1 hpart)
    | discriminated htwo _ htold =>
      simp only [Schema.makes_call, true_and, mem_cons, not_mem_nil, or_false,
        exists_eq_or_imp, exists_eq_left, Schema.not_makes_value, Schema.makes_array,
        false_or] at hmakes
      rcases hmakes with rfl | hpart
      · refine .inr ⟨_, _, parts, rfl, htwo, looks_like_of_discriminated htold, ?_⟩
        exact forall₂_map_left_iff.1 hps
      · exact .inl hpart

/-- Every discriminated union in the schema of a job is the one of a union type on the way. -/
theorem discriminated_of_compile (h : (p.compile job).result = .ok schema)
    (hmakes : schema.Makes "discriminatedUnion" args) :
    ∃ env field arms schemas, args = [.value (.str field), .array schemas] ∧
      p.Discriminated env field arms schemas := by
  refine compile_induction (motive := fun _ s => s.Makes "discriminatedUnion" args → _) ?_ h hmakes
  intro job plan parts schema hplan hps ih h hmakes
  have hforms : ∃ s ctx, p.Forms job.environment ctx job.type plan.jobs parts s ∧
      s.Makes "discriminatedUnion" args := by
    cases plan_forms hplan hps.length_eq.symm h with
    | plain _ hforms => exact ⟨_, _, hforms, hmakes⟩
    | added _ _ hforms => exact ⟨_, _, hforms, by simpa using hmakes⟩
    | replaced => simp at hmakes
  obtain ⟨s, ctx, hforms, hmakes⟩ := hforms
  rcases origin_of_forms hforms hps hmakes with ⟨part, hpart, hmakes⟩ | hf
  · obtain ⟨next, -, hnext⟩ := exists_of_forall₂ ih part hpart
    exact hnext hmakes
  · exact ⟨job.environment, hf⟩

end Jobs

section Arms

variable {field : String}

/-- A call is an arm when it makes an object with the field. -/
theorem is_arm_call :
    (Schema.call callee args).IsArm field ↔
      ∃ es, callee = "object" ∧ args = [.object es] ∧ field ∈ Schema.keys es := by
  simp [Schema.IsArm, Schema.base, and_assoc]

/-- The members that are compiled are those that have a type. -/
theorem mem_member_names {off : Option Context} {ms : List (Member TypeExpr)} :
    field ∈ (p.memberJobs off env ms).map (·.1) ↔ ∃ m ∈ ms, m.name = field ∧ m.type.isSome := by
  simp only [memberJobs, mem_map, mem_filterMap, Option.map_eq_some_iff]
  constructor
  · rintro ⟨named, ⟨m, hm, t, ht, rfl⟩, rfl⟩
    exact ⟨m, hm, rfl, by rw [ht]; rfl⟩
  · rintro ⟨m, hm, rfl, ht⟩
    obtain ⟨t, ht⟩ := Option.isSome_iff_exists.1 ht
    exact ⟨_, ⟨m, hm, t, ht, rfl⟩, rfl⟩

/-- An object without an index signature has the fields that have a type, and one with an index
signature is a record. -/
theorem is_arm_object {off : Option Context} {ms : List (Member TypeExpr)}
    {index : Option (IndexSignature TypeExpr)}
    (hlen : parts.length = ((p.memberJobs off env ms).map (·.2) ++
      (index.map (indexJob env)).toList).length) :
    (objectSchema (((p.memberJobs off env ms).map (·.1)).zip parts)
        parts[(p.memberJobs off env ms).length]?).IsArm field ↔
      index = none ∧ ∃ m ∈ ms, m.name = field ∧ m.type.isSome := by
  rw [← @mem_member_names p env field off]
  generalize p.memberJobs off env ms = named at hlen ⊢
  rw [length_append, length_map] at hlen
  cases index with
  | none =>
    have hzip : Schema.keys ((named.map (·.1)).zip parts) = named.map (·.1) := by
      rw [Schema.keys, map_fst_zip]
      simpa using hlen.ge
    have hnone : parts[named.length]? = none := getElem?_eq_none (by simpa using hlen.le)
    rw [hnone, objectSchema, is_arm_call]
    simp [hzip]
  | some =>
    have hlt : named.length < parts.length := by simp at hlen; omega
    rw [getElem?_eq_getElem hlt]
    have hbase : (objectSchema ((named.map (·.1)).zip parts)
        (some parts[named.length])).base = .call "record" [parts[named.length]] := by
      unfold objectSchema
      dsimp only
      split <;> rfl
    simp [Schema.IsArm, hbase]

/-- The context in which a name has its argument compiled may ask for members of another kind. -/
theorem adjusted_cases {args : List TypeExpr} {arg : TypeExpr} {adjust : Context → Context}
    (h : (p.use env name args).result = .ok (.name (.adjusted arg adjust))) :
    adjust = id ∨ adjust = ({ · with allOptional := true }) ∨
      adjust = ({ · with allRequired := true }) := by
  cases use_of_result h with
  | name huse =>
    have hnamed := named_use_of_result huse
    generalize (p.nameUse id name env args).trace = events at hnamed
    cases hnamed <;> simp

theorem tags_of_adjusted {args : List TypeExpr} {arg : TypeExpr} {adjust : Context → Context}
    (h : (p.use env name args).result = .ok (.name (.adjusted arg adjust)))
    (ctx : Context) : (adjust ctx).tags = ctx.tags := by
  rcases adjusted_cases h with rfl | rfl | rfl <;> rfl

/-- The schema of a job is an arm just when its type yields one, if the job has no tags. -/
def TellsArm (program : Program) (field : String) (job : Job) (schema : Schema) : Prop :=
  job.context.tags = [] →
    (schema.IsArm field ↔ program.YieldsArm field job.type job.environment)

/-- Whether what a reference is compiled as yields an arm. -/
def UseYields (program : Program) (field : String) (environment : Environment) : Use → Prop
  | .type type inner => program.YieldsArm field type inner
  | .interface declared _ _ => declared.heritage ≠ [] ∨ declared.index = none ∧
      ∃ member ∈ declared.members, member.name = field ∧ member.type.isSome
  | .name (.adjusted argument _) => program.YieldsArm field argument environment
  | .name (.projected _ target _) => program.YieldsArm field target environment
  | .name .schema => True
  | .name _ => False

/-- A reference yields an arm when what it is compiled as does. -/
theorem yields_reference_iff {args : List TypeExpr} {use : Use}
    (huse : (p.use env name args).result = .ok use) :
    p.YieldsArm field (.reference name args) env ↔ p.UseYields field env use := by
  constructor
  · intro h
    cases h with
    | entered hother h | adjusted hother h | projected hother h =>
      cases huse.symm.trans hother
      exact h
    | interface hother hher hidx h =>
      cases huse.symm.trans hother
      exact .inr ⟨hidx, h⟩
    | extended hother hher =>
      cases huse.symm.trans hother
      exact .inl hher
    | named hother =>
      cases huse.symm.trans hother
      trivial
  · intro h
    cases use with
    | type => exact .entered huse h
    | interface d =>
      by_cases hher : d.heritage = []
      · rcases h with hextends | ⟨hidx, hm⟩
        · exact (hextends hher).elim
        · exact .interface huse hher hidx hm
      · exact .extended huse hher
    | name use =>
      cases use with
      | adjusted => exact .adjusted huse h
      | projected => exact .projected huse h
      | schema => exact .named huse
      | _ => cases h

/-- The types whose schemas stand for no object yield no arms. -/
theorem closed_yields_none (h : p.Closed env t) : ¬p.YieldsArm field t env := by
  intro hyields
  cases h with
  | written h => cases hyields <;> exact h
  | @named _ _ use huse h =>
    have hnot := (yields_reference_iff huse).1 hyields
    cases use <;> first | exact h | exact hnot
  | union h =>
    cases hyields with
    | union harm => exact h _ harm
  | indexed h =>
    cases hyields with
    | indexed hother => cases h.symm.trans hother

/-- What a type is left to as a whole tells of the type itself. -/
theorem left_to_yields (htags : ctx.tags = [])
    (h : p.LeftTo env ctx t job) : job.context.tags = [] ∧
      (p.YieldsArm field job.type job.environment ↔ p.YieldsArm field t env) := by
  cases h with
  | entered huse => exact ⟨htags, (yields_reference_iff huse).symm⟩
  | adjusted huse =>
    exact ⟨(tags_of_adjusted huse ctx).trans htags, (yields_reference_iff huse).symm⟩
  | arm harm =>
    refine ⟨htags, .union harm, fun h => ?_⟩
    cases h with
    | union hother h =>
      cases harm.symm.trans hother
      exact h
  | paren => exact ⟨htags, .paren, fun h => by cases h; assumption⟩

theorem open_core_tells (h : p.OpenCore env t jobs parts schema)
    (hps : Forall₂ (p.TellsArm field) jobs parts) :
    schema.IsArm field ↔ p.YieldsArm field t env := by
  cases h with
  | object hlen =>
    rw [is_arm_object hlen]
    refine ⟨?_, fun h => by cases h with | object hm => exact ⟨rfl, hm⟩⟩
    rintro ⟨rfl, hm⟩
    exact .object hm
  | interface huse hbody =>
    rw [yields_reference_iff huse, ((Refinement.call_free_flagged _ _).finishes _).is_arm_iff]
    cases hbody with
    | object hher hlen =>
      rw [is_arm_object hlen]
      simp [UseYields, hher]
    | extended hher _ _ hchain =>
      obtain ⟨⟨target, htarget⟩, -⟩ := extension_schema hchain
      exact iff_of_true (.inr (.inl ⟨target, htarget⟩)) (.inl hher)
  | intersection =>
    cases hps with
    | cons hpart =>
      rw [Schema.IsArm, Schema.base_withModifiers]
      exact (hpart rfl).trans ⟨.intersection, fun h => by cases h; assumption⟩
  | projected huse hproj =>
    cases hps with
    | cons hpart =>
      rw [(finishes_of_project hproj).is_arm_iff, yields_reference_iff huse]
      exact hpart rfl
  | named huse =>
    exact iff_of_true (.inr (.inl ⟨_, rfl⟩)) ((yields_reference_iff huse).2 trivial)
  | path h => exact iff_of_true (.inr (.inr ⟨_, _, _, rfl, rfl⟩)) (.indexed h)

/-- What is put together for a type is an arm just when the type yields one. -/
theorem forms_tell (htags : ctx.tags = []) (h : p.Forms env ctx t jobs parts schema)
    (hps : Forall₂ (p.TellsArm field) jobs parts) :
    schema.IsArm field ↔ p.YieldsArm field t env := by
  cases h with
  | through h =>
    obtain ⟨hnone, hyields⟩ := left_to_yields htags h
    cases hps with
    | cons hpart => exact (hpart hnone).trans hyields
  | maybe huse =>
    rw [yields_reference_iff huse, ((Refinement.call_free_flagged _ _).finishes _).is_arm_iff]
    simp [Schema.IsArm, Schema.base, UseYields]
  | texts _ hmods =>
    refine iff_of_false ?_ fun h => by cases h
    rcases values_schema_cases _ (call_free_of_modifiers hmods) with ⟨_, htexts⟩ | ⟨_, htexts⟩
    all_goals
      rw [htexts.is_arm_iff, is_arm_call]
      simp
  | opened hcore h =>
    rw [(finishes_of_finish h).is_arm_iff]
    exact open_core_tells hcore hps
  | closed ht hcore h =>
    rw [(finishes_of_finish h).is_arm_iff]
    refine iff_of_false ?_ (closed_yields_none ht)
    cases hcore with
    | call hcall =>
      rw [is_arm_call]
      rintro ⟨es, hobj, -⟩
      exact hcall.callee (by simp [hobj])
    | _ => simp [Schema.IsArm, Schema.base, Schema.modify]

/-- The schema of a job without tags is an arm just when its type yields one. -/
theorem compile_tells_arm (h : (p.compile job).result = .ok schema) :
    p.TellsArm field job schema := by
  refine compile_induction ?_ h
  intro job plan parts schema hplan hps htold h htags
  have hplain : job.context.tags.override? = none := by rw [htags]; rfl
  cases plan_forms hplan hps.length_eq.symm h with
  | plain _ hforms => exact forms_tell htags hforms htold
  | added htext | replaced htext => cases hplain.symm.trans htext

end Arms

/-- A schema that a program is compiled to: of a type in some environment and with some tags, or of
a declaration. -/
def Emits (program : Program) (schema : Schema) : Prop :=
  (∃ type environment tags, (program.schemaOf (some type) environment tags).result = .ok schema) ∨
    ∃ declaration, (program.declarationSchema declaration).result = .ok schema

/-- A declaration adds no discriminated union to those of the types in it. -/
theorem from_parts_of_declaration {decl : Declaration}
    (h : p.DeclarationForms decl parts schema) : FromParts parts schema := by
  cases h with
  | enumeration => exact from_parts_of_none (by simp)
  | typeAlias => exact from_parts_mem mem_cons_self
  | interface hbody h => exact from_parts_of_finish (from_parts_of_body hbody) h

/-- Every discriminated union in a schema that is emitted is the one of a union type. -/
theorem discriminated_of_emits (h : p.Emits schema)
    (hmakes : schema.Makes "discriminatedUnion" args) :
    ∃ env field arms schemas, args = [.value (.str field), .array schemas] ∧
      p.Discriminated env field arms schemas := by
  rcases h with ⟨t, env, tags, h⟩ | ⟨decl, h⟩
  · rw [schema_of_some] at h
    exact discriminated_of_compile h hmakes
  · rw [declaration_schema_eq] at h
    obtain ⟨plan, parts, hplan, hps, h⟩ := run_inversion h
    obtain ⟨part, hpart, hmakes⟩ := from_parts_of_declaration
      (declaration_plan_forms hplan hps.length_eq.symm h) args hmakes
    obtain ⟨job, -, hjob⟩ := exists_of_forall₂ hps part hpart
    exact discriminated_of_compile hjob hmakes

/-- Every discriminated union in a schema that is emitted has the arms of a union type, at least
two, each of which looks as if it had the field. The schema of an arm is an object with the field,
or stands on a schema that has a name, just when the arm is of a type that yields such a schema. -/
theorem discriminated_union_arms {schema : Schema} (h : program.Emits schema)
    {arguments : List Schema} (hmakes : schema.Makes "discriminatedUnion" arguments) :
    ∃ environment field arms schemas, arguments = [.value (.str field), .array schemas] ∧
      2 ≤ arms.length ∧ (∀ arm ∈ arms, LooksLikeArm environment field arm) ∧
      List.Forall₂ (fun arm schema =>
        (program.schemaOf (some arm) environment []).result = .ok schema ∧
          (schema.IsArm field ↔ program.YieldsArm field arm environment)) arms schemas := by
  obtain ⟨environment, field, arms, schemas, harguments, hunion⟩ := discriminated_of_emits h hmakes
  refine ⟨environment, field, arms, schemas, harguments, hunion.two, hunion.looks, ?_⟩
  refine hunion.compiled.imp fun arm schema hcompiled => ?_
  have htags : program.tags [] = [] := ite_self _
  rw [schema_of_some, htags]
  exact ⟨hcompiled, compile_tells_arm hcompiled rfl⟩

/-- The alias of a type or `{ kind: "done" }`, which are to be told apart by the field `kind`. -/
def outcome (other : TypeExpr) : Declaration :=
  .typeAlias ⟨.str "Outcome", [("discriminator", "kind")], true, [],
    .union [other, .object [⟨"kind", some (.literal (.str "done")), false, false, []⟩] none]⟩

/-- The program of an outcome, with the names of types for schemas. -/
def outcomes (other : TypeExpr) : Program where
  unit := ⟨.null, [outcome other], []⟩
  settings := { Settings.default with schemaName := some id }

/-- `{ kind: "failed" }` and the outcome that is done are told apart by their field. -/
theorem failed_outcome_told :
    let failed : TypeExpr :=
      .object [⟨"kind", some (.literal (.str "failed")), false, false, []⟩] none
    ∃ schema schemas, ((outcomes failed).declarationSchema (outcome failed)).result = .ok schema ∧
      schema.Makes "discriminatedUnion" [.value (.str "kind"), .array schemas] ∧
      (∀ arm ∈ schemas, arm.IsArm "kind") ∧
      ∃ environment arms, 2 ≤ arms.length ∧ List.Forall₂ (fun arm schema =>
        ((outcomes failed).schemaOf (some arm) environment []).result = .ok schema ∧
          (schema.IsArm "kind" ↔ (outcomes failed).YieldsArm "kind" arm environment))
        arms schemas := by
  intro failed
  obtain ⟨schema, schemas, hschema, hmakes, harms⟩ :
      ∃ schema schemas, ((outcomes failed).declarationSchema (outcome failed)).result = .ok schema ∧
        schema.Makes "discriminatedUnion" [.value (.str "kind"), .array schemas] ∧
        ∀ arm ∈ schemas, arm.IsArm "kind" := by
    refine ⟨_, _, rfl, Schema.makes_with_modifiers.2 (.inl .here), ?_⟩
    intro arm harm
    rcases List.mem_pair.1 harm with rfl | rfl
    · exact .inl ⟨_, rfl, List.mem_cons_self⟩
    · exact .inl ⟨_, rfl, List.mem_cons_self⟩
  obtain ⟨environment, field, arms, others, harguments, htwo, -, htold⟩ :=
    discriminated_union_arms (.inr ⟨outcome failed, hschema⟩) hmakes
  cases harguments
  exact ⟨schema, schemas, hschema, hmakes, harms, environment, arms, htwo, htold⟩

/-- A date and the outcome that is done are taken to be told apart, since a date has a name. The
schema of a date neither has the field nor stands on a schema that has a name. -/
theorem dated_outcome_not_told :
    let date : TypeExpr := .reference (.str "Date") []
    ∃ schema schemas, ((outcomes date).declarationSchema (outcome date)).result = .ok schema ∧
      schema.Makes "discriminatedUnion" [.value (.str "kind"), .array schemas] ∧
      ∃ arm ∈ schemas, arm = .call "date" [] ∧ ¬arm.IsArm "kind" := by
  intro date
  refine ⟨_, _, rfl, Schema.makes_with_modifiers.2 (.inl .here), _, List.mem_cons_self, rfl, ?_⟩
  show ¬(Schema.call "date" []).IsArm "kind"
  simp [is_arm_call]

end Program

end Schemata
