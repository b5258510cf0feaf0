import Schemata.Proofs.Matching
import Schemata.Proofs.Receivers

/-!
# Members that may be left out

The schema of a member is compiled in a context that says whether the member may be left out. The
context is handed on through parentheses, parameters, generic declarations and unions with one arm,
until a rule makes a schema and gives it the modifiers that the context calls for. Where a schema is
made from another one, as in an intersection or a projection, that one has been compiled in a
context of its own, which asks for nothing. So the modifier of a member that may be left out is
neither lost nor added twice: `members_optional_once`.
-/

namespace Schemata

open List
open Traced (bind_ok_iff)

variable {tags : Tags}

/-- The source text that a tag adds after the modifiers of a schema. -/
def Tags.addition (tags : Tags) : List Modifier :=
  match tags.override? with
  | none => []
  | some text =>
    match text.toList with
    | '.' :: added => [⟨String.ofList added, [], true⟩]
    | _ => []

theorem Tags.addition_eq_nil (h : tags.override? = none) : tags.addition = [] := by
  simp [Tags.addition, h]

theorem Tags.addition_of_dot {text : String} {added : List Char}
    (htext : tags.override? = some text) (hadded : text.toList = '.' :: added) :
    tags.addition = [⟨String.ofList added, [], true⟩] := by
  simp [Tags.addition, htext, hadded]

/-- A chain of calls. One of them lets the value be left out if `optional` says so, and otherwise
none does. -/
structure OptionalOnce (optional : Bool) (chain : List Modifier) : Prop where
  calls : ∀ modifier ∈ chain, modifier.raw = false
  once : chain.filter (·.name = "optional") = Refinement.flagged optional "optional"

namespace OptionalOnce

variable {optional : Bool} {a b : List Modifier}

theorem never_iff {chain : List Modifier} :
    OptionalOnce false chain ↔ ∀ mod ∈ chain, mod.raw = false ∧ mod.name ≠ "optional" := by
  constructor
  · intro h mod hmod
    refine ⟨h.calls mod hmod, fun hn => ?_⟩
    have hmem : mod ∈ chain.filter (·.name = "optional") := by simp [hmod, hn]
    rw [h.once] at hmem
    cases hmem
  · intro h
    refine ⟨fun mod hmod => (h mod hmod).1, ?_⟩
    show chain.filter (·.name = "optional") = []
    simpa using fun mod hmod => (h mod hmod).2

@[simp]
theorem nil : OptionalOnce false [] := never_iff.2 (forall_mem_nil _)

theorem append_right (ha : OptionalOnce false a) (hsecond : OptionalOnce optional b) :
    OptionalOnce optional (a ++ b) := by
  refine ⟨forall_mem_append.2 ⟨ha.calls, hsecond.calls⟩, ?_⟩
  rw [filter_append, ha.once, hsecond.once]
  rfl

theorem append_left (ha : OptionalOnce optional a) (hsecond : OptionalOnce false b) :
    OptionalOnce optional (a ++ b) := by
  refine ⟨forall_mem_append.2 ⟨ha.calls, hsecond.calls⟩, ?_⟩
  rw [filter_append, ha.once, hsecond.once]
  exact append_nil _

theorem flagged (optional : Bool) :
    OptionalOnce optional (Refinement.flagged optional "optional") := by
  cases optional with
  | false => exact nil
  | true => exact ⟨by simp [Refinement.flagged], by simp [Refinement.flagged]⟩

theorem other_flag (flag : Bool) {name : String} (hn : name ≠ "optional") :
    OptionalOnce false (Refinement.flagged flag name) := by
  refine never_iff.2 fun mod hmod => ?_
  obtain ⟨-, rfl⟩ := Refinement.mem_flagged.1 hmod
  exact ⟨rfl, hn⟩

theorem valued {name called : String} {arg : String → Schema} (hcalled : called ≠ "optional") :
    OptionalOnce false (Refinement.valued tags name called arg) := by
  refine never_iff.2 fun mod hmod => ?_
  obtain ⟨text, -, rfl⟩ := Refinement.mem_valued.1 hmod
  exact ⟨rfl, hcalled⟩

end OptionalOnce

/-- A constraint is a call, and does not let a value be left out. -/
theorem Refinement.IsConstraint.not_optional {mod : Modifier} (h : IsConstraint mod) :
    mod.raw = false ∧ mod.name ≠ "optional" := by
  have hraw := h.is_plain.raw
  refine ⟨hraw, fun hn => h.plain.2 ⟨hraw, ?_⟩⟩
  simp [hn]

/-- The modifiers that a context calls for make a value optional as the context says. -/
theorem Refinement.modifiers_optional_once {formats : Json} {ctx : Context} {found : List Modifier}
    (h : (ctx.modifiers formats).result = .ok found) : OptionalOnce ctx.optional found := by
  obtain ⟨constraints, hconstraints, rfl⟩ := modifiers_inversion h
  have hbefore : OptionalOnce false (constraints ++ (flagged ctx.allOptional "partial" ++
      flagged ctx.allRequired "required")) := by
    refine .append_right (OptionalOnce.never_iff.2 fun mod hmod => ?_)
      (.append_right (.other_flag _ (by decide)) (.other_flag _ (by decide)))
    exact (hconstraints mod hmod).not_optional
  refine hbefore.append_right (.append_left (.append_left (.append_left (.flagged _) ?_) ?_) ?_)
  · exact .valued (by decide)
  · exact .other_flag _ (by decide)
  · exact .valued (by decide)

namespace Program

variable {p : Program} {ctx : Context} {env : Environment}

section Steps

variable {s : Schema} {optional : Bool} {mods : List Modifier}

theorem modifiers_optional (h : (p.modifiers ctx).result = .ok mods) :
    OptionalOnce ctx.optional mods := by
  obtain ⟨formats, -, h⟩ := bind_ok_iff.1 h
  exact Refinement.modifiers_optional_once h

/-- A schema that is finished is optional as the context says, if it was not before. -/
theorem finish_optional {before : Schema} (hbefore : OptionalOnce false before.modifiers)
    (h : (p.finish ctx before).result = .ok s) : OptionalOnce ctx.optional s.modifiers := by
  obtain ⟨mods, hmods, h⟩ := bind_ok_iff.1 h
  cases h
  rw [Schema.modifiers_withModifiers]
  exact hbefore.append_right (modifiers_optional hmods)

theorem combinator_optional {name : String} {args : List Schema} (h : OptionalOnce optional mods) :
    OptionalOnce optional (Schema.combinator name args mods).modifiers := by
  unfold Schema.combinator
  rw [Schema.modifiers_withModifiers]
  exact OptionalOnce.nil.append_right h

/-- One more call does not change whether a schema is optional. -/
theorem modify_optional {name : String} {args : List Schema}
    (hs : OptionalOnce optional s.modifiers) (hn : name ≠ "optional") :
    OptionalOnce optional (s.modify ⟨name, args, false⟩).modifiers := by
  rw [Schema.modifiers_modify]
  exact hs.append_left (OptionalOnce.never_iff.2 (forall_mem_singleton.2 ⟨rfl, hn⟩))

theorem project_optional {target : Schema} {proj : Projection}
    {keys : Option TypeExpr} {read : Option Environment}
    (htarget : OptionalOnce optional target.modifiers)
    (h : project target proj.typeName keys read = .ok s) : OptionalOnce optional s.modifiers := by
  obtain ⟨names, -, h⟩ := bind_eq_ok_iff.1 h
  cases h
  refine modify_optional htarget ?_
  cases proj <;> decide

theorem heritable_optional : Heritable fun s => OptionalOnce false s.modifiers where
  named _ := .nil
  projected := project_optional
  extended hchain _ := modify_optional hchain (by decide)

/-- An interface that extends others is not optional by itself. -/
theorem extension_optional {heritage : List Heritage} {es : List (String × Schema)}
    (h : (p.extensionChain heritage (some (.object es))).result = .ok (some s)) :
    OptionalOnce false s.modifiers := by
  obtain ⟨chain, hchain, hs⟩ := heritable_optional.of_extension h
  rcases hs with ⟨-, rfl⟩ | rfl
  · exact hchain
  · exact modify_optional hchain (by decide)

theorem object_schema_optional {es : List (String × Schema)} {v : Option Schema} :
    OptionalOnce false (objectSchema es v).modifiers := by
  cases v with
  | none => exact .nil
  | some v =>
    unfold objectSchema
    dsimp only
    split
    · exact .nil
    · exact @modify_optional (.call "record" [v]) _ _ _ .nil (by decide)

/-- The texts of a template are optional as the modifiers say that they are given. -/
theorem values_optional (values : Values)
    (h : OptionalOnce optional mods) : OptionalOnce optional (values.schema mods).modifiers := by
  have hnull : OptionalOnce optional (mods ++
      if values.hasNull then [(⟨"nullable", [], false⟩ : Modifier)] else []) :=
    h.append_left (.other_flag values.hasNull (by decide))
  unfold Values.schema
  dsimp only
  split
  · exact combinator_optional hnull
  · exact combinator_optional hnull

end Steps

section Forms

/-- The schema of a job is optional as its context says, if no source text is added to it. -/
def KeepsOptional (job : Job) (schema : Schema) : Prop :=
  job.context.tags.override? = none → OptionalOnce job.context.optional schema.modifiers

variable {jobs : List Job} {parts : List Schema} {t : TypeExpr} {s : Schema}

theorem closed_core_optional (h : ClosedCore env jobs parts s) :
    OptionalOnce false s.modifiers := by
  cases h with
  | call | discriminated => exact .nil
  | rest part slots =>
    exact @modify_optional (.call "tuple" [.array slots]) _ _ _ .nil (by decide)
  | function =>
    rw [Schema.modifiers_withModifiers]
    exact OptionalOnce.never_iff.2 (by simp [Schema.modifiers])

theorem open_core_optional (h : p.OpenCore env t jobs parts s)
    (hps : Forall₂ KeepsOptional jobs parts) : OptionalOnce false s.modifiers := by
  cases h with
  | object => exact object_schema_optional
  | interface _ hbody =>
    rw [Schema.modifiers_withModifiers]
    refine OptionalOnce.append_right ?_ (.other_flag _ (by decide))
    cases hbody with
    | object => exact object_schema_optional
    | extended _ _ _ h => exact extension_optional h
  | intersection =>
    cases hps with
    | cons hpart =>
      rw [Schema.modifiers_withModifiers]
      refine (hpart rfl).append_right (OptionalOnce.never_iff.2 ?_)
      exact forall_mem_map.2 fun _ _ => ⟨rfl, by simp⟩
  | projected _ h =>
    cases hps with
    | cons hpart => exact project_optional (hpart rfl) h
  | named | path => exact .nil

/-- What is put together for a type is optional as the context says. A schema that it is made from
has been compiled in a context that asks for nothing. -/
theorem forms_optional (htext : ctx.tags.override? = none) (h : p.Forms env ctx t jobs parts s)
    (hps : Forall₂ KeepsOptional jobs parts) : OptionalOnce ctx.optional s.modifiers := by
  cases h with
  | through h =>
    cases hps with
    | cons hpart =>
      cases h with
      | adjusted huse => rcases adjusted_cases huse with rfl | rfl | rfl <;> exact hpart htext
      | _ => exact hpart htext
  | maybe =>
    rw [Schema.modifiers_withModifiers]
    exact OptionalOnce.nil.append_right (.flagged ctx.optional)
  | texts _ hmods => exact values_optional _ (modifiers_optional hmods)
  | @closed _ _ _ _ _ nullable _ hcore h =>
    -- The schema is finished in a context that asks for the same but for null.
    change OptionalOnce { ctx with nullable := nullable }.optional _
    exact finish_optional (closed_core_optional hcore) h
  | opened hcore h => exact finish_optional (open_core_optional hcore hps) h

end Forms

section Jobs

variable {job : Job}

/-- The schema of a job is optional as its context says, and source text that is added stands after
all calls. -/
def CompilesOptional (job : Job) (schema : Schema) : Prop :=
  ∃ chain, schema.modifiers = chain ++ job.context.tags.addition ∧
    OptionalOnce job.context.optional chain

/-- Following the plan of a job keeps whether it is optional, unless source text takes its place. -/
theorem plan_optional {plan : Plan} {parts : List Schema} {s : Schema}
    (hkept : ¬job.context.tags.Replaces) (hplan : (p.plan job).result = .ok plan)
    (hps : Forall₂ KeepsOptional plan.jobs parts)
    (h : (plan.assemble parts).result = .ok s) : CompilesOptional job s := by
  cases plan_forms hplan hps.length_eq.symm h with
  | plain htext hforms =>
    refine ⟨s.modifiers, ?_, forms_optional htext hforms hps⟩
    rw [Tags.addition_eq_nil htext, append_nil]
  | added htext hadded hforms =>
    have honce := forms_optional (override_without_text job.context) hforms hps
    refine ⟨_, ?_, honce⟩
    rw [Tags.addition_of_dot htext hadded, Schema.modifiers_modify]
  | replaced htext hdot => exact (hkept ⟨_, htext, hdot⟩).elim

theorem CompilesOptional.keeps {s : Schema} (h : CompilesOptional job s) : KeepsOptional job s := by
  intro htext
  obtain ⟨chain, hchain, honce⟩ := h
  rw [hchain, Tags.addition_eq_nil htext, append_nil]
  exact honce

/-- The schema of a job without source text is optional as its context says. -/
theorem compile_keeps_optional {s : Schema}
    (h : (p.compile job).result = .ok s) : KeepsOptional job s := by
  refine compile_induction ?_ h
  intro job plan parts s hplan _ hps h htext
  exact (plan_optional (not_replaces_of_none htext) hplan hps h).keeps htext

/-- The schema of a job is optional as its context says, unless source text takes its place. -/
theorem compile_optional {s : Schema} (hkept : ¬job.context.tags.Replaces)
    (h : (p.compile job).result = .ok s) : CompilesOptional job s := by
  obtain ⟨plan, parts, hplan, hps, h⟩ := compile_inversion h
  exact plan_optional hkept hplan (hps.imp fun _ _ => compile_keeps_optional) h

/-- The properties of an object type, and of an interface that is not switched off, are those of the
members that have a type. Unless source text takes its place, the schema of a property has a chain
of calls of which exactly one makes it optional if its member is, and none otherwise, whatever the
type of the member is; after them stands only the source text that a tag adds. -/
theorem members_optional_once (program : Program) (environment : Environment)
    (members : List (Member TypeExpr)) {entries : List (String × Schema)}
    (h : (memberSchemas program (program.bodyFrom environment) none members environment
      (program.meaningsOf environment)).result = .ok entries) :
    List.Forall₂ (fun member entry => entry.1 = member.name ∧
        (¬(program.tags member.tags).Replaces →
          ∃ chain, entry.2.modifiers = chain ++ (program.tags member.tags).addition ∧
            OptionalOnce member.optional chain))
      (members.filter (·.type.isSome)) entries := by
  induction members generalizing entries with
  | nil =>
    cases h
    exact .nil
  | cons member rest ih =>
    obtain ⟨name, type, optional, readonly, tags⟩ := member
    cases type with
    | none =>
      rw [memberSchemas] at h
      exact ih h
    | some type =>
      rw [memberSchemas] at h
      obtain ⟨schema, hschema, h⟩ := Traced.bind_ok_iff.1 h
      obtain ⟨others, hothers, h⟩ := Traced.bind_ok_iff.1 h
      cases h
      refine .cons ⟨rfl, fun hkept => ?_⟩ (ih hothers)
      exact @compile_optional program ⟨type, environment, _⟩ schema hkept hschema

end Jobs

/-- A program without declarations. -/
def nursery : Program where
  unit := ⟨.null, [], []⟩
  settings := Settings.default

/-- The members `born?: (T | null)`, `age?: number` with text that is added, `name: string` and
`owner`, which has no type. -/
def kitten : List (Member TypeExpr) :=
  [⟨"born", some (.paren (.union [.reference (.str "T") [], .literal .null])), true, false, []⟩,
   ⟨"age", some (.keyword .number), true, false, [("schema", ".int()")]⟩,
   ⟨"name", some (.keyword .string), false, false, []⟩,
   ⟨"owner", none, true, false, []⟩]

/-- The environment in which `T` is `Readonly<Date>`. -/
def dated : Environment :=
  .mk 1 [⟨.str "T", .reference (.str "Readonly") [.reference (.str "Date") []], .empty⟩]

/-- A member is optional through parentheses, null, a parameter and `Readonly`, and one is before
text that is added. -/
theorem kitten_optional_once :
    ∃ entries, (memberSchemas nursery (nursery.bodyFrom dated) none kitten dated
        (nursery.meaningsOf dated)).result = .ok entries ∧
      entries.map (fun entry => (entry.1, entry.2.modifiers.map (·.name))) =
        [("born", ["optional", "nullable"]), ("age", ["optional", "int()"]), ("name", [])] ∧
      List.Forall₂ (fun member entry => entry.1 = member.name ∧
          ∃ chain, entry.2.modifiers = chain ++ (nursery.tags member.tags).addition ∧
            OptionalOnce member.optional chain)
        (kitten.filter (·.type.isSome)) entries := by
  have hkept : ∀ member ∈ kitten, ¬(nursery.tags member.tags).Replaces := by
    intro member hmember hreplaces
    obtain ⟨text, htext, hdot⟩ := hreplaces
    have hadded : text = ".int()" := by
      simp only [kitten, List.mem_cons, List.not_mem_nil, or_false] at hmember
      rcases hmember with rfl | rfl | rfl | rfl
      · cases htext
      · exact (Option.some.inj htext).symm
      · cases htext
      · cases htext
    exact hdot (hadded ▸ rfl)
  refine ⟨_, rfl, by decide, ?_⟩
  refine forall₂_imp_of_mem (members_optional_once nursery dated kitten rfl) ?_
  intro member hmember entry h
  exact ⟨h.1, h.2 (hkept member (List.mem_of_mem_filter hmember))⟩

/-- The members `name: string` and `age?: number`, both with the text `.optional` that is added. -/
def marked : List (Member TypeExpr) :=
  [⟨"name", some (.keyword .string), false, false, [("schema", ".optional")]⟩,
   ⟨"age", some (.keyword .number), true, false, [("schema", ".optional")]⟩]

/-- Text that is added after the calls of a chain can be named as the call that lets a value be left
out. A member that may not be left out has one modifier of this name then, and one that may has
two. -/
theorem optional_text_added_to_members :
    ∃ required given, (memberSchemas nursery (nursery.bodyFrom .empty) none marked .empty
        (nursery.meaningsOf .empty)).result = .ok [("name", required), ("age", given)] ∧
      (∀ member ∈ marked, ¬(nursery.tags member.tags).Replaces) ∧
      required.modifiers = [⟨"optional", [], true⟩] ∧
      given.modifiers = [⟨"optional", [], false⟩, ⟨"optional", [], true⟩] := by
  refine ⟨_, _, rfl, fun member hmember => ?_, rfl, rfl⟩
  have htags : member.tags = [("schema", ".optional")] := by
    simp only [marked, List.mem_cons, List.not_mem_nil, or_false] at hmember
    rcases hmember with rfl | rfl <;> rfl
  rw [htags]
  rintro ⟨text, htext, hdot⟩
  cases htext
  exact hdot rfl

end Program

end Schemata
