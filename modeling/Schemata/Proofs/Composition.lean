import Schemata.Proofs.DefinitionOrder

/-!
# What schemas are made of

`Schema.Makes` says that a call on the validator namespace occurs in an expression. The modifiers
that a context calls for make no calls, so a schema that is finished makes the calls it made before
and stands on the same expression, `finishes_of_finish`. The same holds for the other steps of the
compiler that build on a schema. `compile_inversion` takes apart the compilation of a job, and
`compile_induction` carries a property from the schemas of its jobs to its own.
-/

namespace Schemata

open List
open Traced (bind_ok_iff)

/-- A call on the validator namespace occurs in an expression. -/
def Schema.Makes (schema : Schema) (callee : String) (arguments : List Schema) : Prop :=
  Occurs (.call callee arguments) schema

namespace Schema

section Makes

variable {callee : String} {args : List Schema} {s : Schema} {name : String} {parts : List Schema}

/-- An expression makes a call when it is that call, or one of the expressions in it does. -/
theorem makes_iff :
    s.Makes callee args ↔
      s = .call callee args ∨ ∃ child ∈ s.children, child.Makes callee args := by
  constructor
  · intro h
    cases h with
    | here => exact .inl rfl
    | inside h hchild => exact .inr ⟨_, hchild, h⟩
  · rintro (rfl | ⟨child, hchild, h⟩)
    · exact .here
    · exact .inside h hchild

@[simp]
theorem makes_call :
    (call name parts).Makes callee args ↔
      name = callee ∧ parts = args ∨ ∃ part ∈ parts, part.Makes callee args := by
  rw [makes_iff, call.injEq]
  rfl

@[simp]
theorem makes_object {es : List (String × Schema)} :
    (object es).Makes callee args ↔ ∃ e ∈ es, e.2.Makes callee args := by
  rw [makes_iff, children]
  constructor
  · rintro (h | ⟨child, hchild, h⟩)
    · cases h
    · obtain ⟨e, he, rfl⟩ := mem_map.1 hchild
      exact ⟨e, he, h⟩
  · rintro ⟨e, he, h⟩
    exact .inr ⟨e.2, mem_map_of_mem he, h⟩

@[simp]
theorem makes_array {xs : List Schema} :
    (array xs).Makes callee args ↔ ∃ x ∈ xs, x.Makes callee args := by
  rw [makes_iff]
  simp [children]

@[simp]
theorem makes_helper :
    (helper name parts).Makes callee args ↔ ∃ part ∈ parts, part.Makes callee args := by
  rw [makes_iff]
  simp [children]

@[simp]
theorem makes_field {target : Option Schema} {path : String} :
    (field target path).Makes callee args ↔ ∃ s ∈ target, s.Makes callee args := by
  rw [makes_iff]
  simp [children]

@[simp]
theorem makes_modify {mod : Modifier} :
    (s.modify mod).Makes callee args ↔
      s.Makes callee args ∨ ∃ arg ∈ mod.arguments, arg.Makes callee args := by
  rw [modify, makes_iff]
  simp [children]

/-- Names and plain values make no calls. -/
theorem not_makes_of_leaf (hleaf : s.children = []) (hcall : s ≠ .call callee args) :
    ¬s.Makes callee args := by
  rw [makes_iff, hleaf]
  simp [hcall]

@[simp]
theorem not_makes_reference {name : Name} : ¬(reference name).Makes callee args :=
  not_makes_of_leaf rfl Schema.noConfusion

@[simp]
theorem not_makes_value {v : Json} : ¬(Schema.value v).Makes callee args :=
  not_makes_of_leaf rfl Schema.noConfusion

@[simp]
theorem not_makes_regex {pattern : Json} : ¬(regex pattern).Makes callee args :=
  not_makes_of_leaf rfl Schema.noConfusion

@[simp]
theorem not_makes_symbol {name : Name} : ¬(symbol name).Makes callee args :=
  not_makes_of_leaf rfl Schema.noConfusion

@[simp]
theorem not_makes_verbatim {text : String} : ¬(verbatim text).Makes callee args :=
  not_makes_of_leaf rfl Schema.noConfusion

@[simp]
theorem makes_with_modifiers {mods : List Modifier} :
    (s.withModifiers mods).Makes callee args ↔
      s.Makes callee args ∨ ∃ mod ∈ mods, ∃ arg ∈ mod.arguments, arg.Makes callee args := by
  induction mods generalizing s with
  | nil => simp
  | cons a rest ih => simp [ih, or_assoc]

end Makes

end Schema

/-- No argument of a modifier makes a call. -/
def CallFree (modifiers : List Modifier) : Prop :=
  ∀ modifier ∈ modifiers, ∀ argument ∈ modifier.arguments,
    ∀ callee arguments, ¬argument.Makes callee arguments

/-- An expression stands on the same one as another and makes the same calls. -/
structure Schema.Finishes (finished schema : Schema) : Prop where
  base : finished.base = schema.base
  makes : ∀ callee arguments, finished.Makes callee arguments ↔ schema.Makes callee arguments

/-- Modifiers without calls in them change neither the base nor the calls. -/
theorem CallFree.finishes {mods : List Modifier} (h : CallFree mods) (s : Schema) :
    (s.withModifiers mods).Finishes s := by
  refine ⟨s.base_withModifiers mods, fun callee args => ?_⟩
  rw [Schema.makes_with_modifiers]
  refine ⟨?_, .inl⟩
  rintro (hmakes | ⟨mod, hmod, arg, harg, hmakes⟩)
  · exact hmakes
  · exact (h mod hmod arg harg callee args hmakes).elim

theorem Schema.Finishes.trans {a b third : Schema} (h : a.Finishes b)
    (hnext : b.Finishes third) : a.Finishes third :=
  ⟨h.base.trans hnext.base, fun callee args =>
    (h.makes callee args).trans (hnext.makes callee args)⟩

namespace Refinement

theorem call_free_nil : CallFree [] := fun _ h => by cases h

theorem call_free_append {a b : List Modifier} (ha : CallFree a)
    (hsecond : CallFree b) : CallFree (a ++ b) := by
  intro mod hmod
  rcases mem_append.1 hmod with hmod | hmod
  · exact ha mod hmod
  · exact hsecond mod hmod

theorem call_free_single {name : String} {raw : Bool} {parts : List Schema}
    (h : ∀ part ∈ parts, ∀ callee args, ¬part.Makes callee args) :
    CallFree [⟨name, parts, raw⟩] := by
  intro mod hmod
  cases mem_singleton.1 hmod
  exact h

theorem call_free_flagged (flag : Bool) (name : String) : CallFree (flagged flag name) := by
  cases flag with
  | false => exact call_free_nil
  | true => exact call_free_single (by simp)

/-- The modifiers that a context calls for have no calls in them. -/
theorem call_free_modifiers {formats : Json} {ctx : Context} {found : List Modifier}
    (h : (ctx.modifiers formats).result = .ok found) : CallFree found := by
  intro mod hmod arg harg callee args
  cases (modifiers_plain h mod hmod).arguments arg harg with
  | value => exact Schema.not_makes_value
  | regex => exact Schema.not_makes_regex
  | options hvalues =>
    rw [Schema.makes_object]
    rintro ⟨e, he, hmakes⟩
    obtain ⟨v, hv⟩ := hvalues e he
    exact Schema.not_makes_value (hv ▸ hmakes)

end Refinement

namespace Program

variable {p : Program} {ctx : Context} {env : Environment}

section Steps

variable {mods : List Modifier} {name : Name} {es : List (String × Schema)}

theorem call_free_strict (tags : Tags) :
    CallFree (if tags.strict then [(⟨"strict", [], false⟩ : Modifier)] else []) :=
  Refinement.call_free_flagged tags.strict "strict"

theorem call_free_of_modifiers (h : (p.modifiers ctx).result = .ok mods) : CallFree mods := by
  obtain ⟨formats, -, h⟩ := bind_ok_iff.1 h
  exact Refinement.call_free_modifiers h

/-- A schema that is finished is that schema with modifiers. -/
theorem finishes_of_finish {s finished : Schema}
    (h : (p.finish ctx s).result = .ok finished) : finished.Finishes s := by
  obtain ⟨mods, hmods, h⟩ := bind_ok_iff.1 h
  cases h
  exact (call_free_of_modifiers hmods).finishes s

/-- A projection of a schema is that schema with a modifier. -/
theorem finishes_of_project {target s : Schema} {proj : String}
    {keys : Option TypeExpr} {read : Option Environment}
    (h : project target proj keys read = .ok s) : s.Finishes target := by
  obtain ⟨names, -, h⟩ := bind_eq_ok_iff.1 h
  cases h
  have hfree := @Refinement.call_free_single (String.ofList (proj.toList.map Char.toLower)) false
    [.object (names.map fun name => (name, .value (.bool true)))] (by simp)
  exact hfree.finishes target

theorem eq_reference_of_result {s : Schema} (h : (p.reference name).result = .ok s) :
    ∃ found, s = .reference found := by
  obtain ⟨found, -, h⟩ := bind_ok_iff.1 h
  obtain ⟨done, -, h⟩ := bind_ok_iff.1 h
  cases h
  exact ⟨found, rfl⟩

/-- The properties of an interface itself, if it has any, come after those of all others. -/
theorem extension_inversion {heritage : List Heritage} {s : Schema}
    (h : (p.extensionChain heritage (some (.object es))).result = .ok (some s)) :
    ∃ chain, (p.inheritedChain heritage).result = .ok (some chain) ∧
      (es = [] ∧ s = chain ∨ s = chain.modify ⟨"extend", [.object es], false⟩) := by
  obtain ⟨chain, hchain, h⟩ := bind_ok_iff.1 h
  cases es with
  | nil =>
    cases h
    exact ⟨s, hchain, .inl ⟨rfl, rfl⟩⟩
  | cons =>
    cases chain with
    | none => cases h
    | some chain =>
      cases h
      exact ⟨chain, hchain, .inr rfl⟩

/-- A property that the schemas of interfaces pass on: those that have a name have it, and the calls
that project and extend them keep it. -/
structure Heritable (holds : Schema → Prop) : Prop where
  named (name : Name) : holds (.reference name)
  projected {target schema : Schema} {projection : Projection} {keys : Option TypeExpr} :
    holds target → project target projection.typeName keys none = .ok schema → holds schema
  extended {chain schema : Schema} : holds chain → holds schema →
    holds (chain.modify ⟨"extend", [.field (some schema) "shape"], false⟩)

namespace Heritable

variable {holds : Schema → Prop} {s : Schema} {heritage : List Heritage}

theorem of_inherited {c : Heritage} (heritable : Heritable holds)
    (h : (p.inherited c).result = .ok s) : holds s := by
  obtain ⟨target, htarget, h⟩ := bind_ok_iff.1 h
  obtain ⟨name, rfl⟩ := eq_reference_of_result htarget
  cases hproj : c.projection with
  | none =>
    rw [hproj] at h
    cases h
    exact heritable.named name
  | some =>
    rw [hproj] at h
    exact heritable.projected (heritable.named name) h

theorem of_extend {cs : List Heritage} {chain : Schema} (heritable : Heritable holds)
    (hchain : holds chain) (h : (p.extend chain cs).result = .ok s) : holds s := by
  induction cs generalizing chain with
  | nil =>
    cases h
    exact hchain
  | cons c rest ih =>
    obtain ⟨inherited, hinherited, h⟩ := bind_ok_iff.1 h
    exact ih (heritable.extended hchain (heritable.of_inherited hinherited)) h

theorem of_chain (heritable : Heritable holds)
    (h : (p.inheritedChain heritage).result = .ok (some s)) : holds s := by
  cases heritage with
  | nil => cases h
  | cons =>
    obtain ⟨inherited, hinherited, h⟩ := bind_ok_iff.1 h
    obtain ⟨extended, hextended, h⟩ := bind_ok_iff.1 h
    cases h
    exact heritable.of_extend (heritable.of_inherited hinherited) hextended

/-- An interface that extends others is what it inherits, with its own properties if it has any. -/
theorem of_extension (heritable : Heritable holds)
    (h : (p.extensionChain heritage (some (.object es))).result = .ok (some s)) :
    ∃ chain, holds chain ∧
      (es = [] ∧ s = chain ∨ s = chain.modify ⟨"extend", [.object es], false⟩) := by
  obtain ⟨chain, hchain, hs⟩ := extension_inversion h
  exact ⟨chain, heritable.of_chain hchain, hs⟩

end Heritable

/-- What an interface inherits stands on a schema that has a name. -/
theorem heritable_finishes : Heritable fun s => ∃ name, s.Finishes (.reference name) where
  named name := ⟨name, rfl, fun _ _ => .rfl⟩
  projected := fun ⟨name, hn⟩ h => ⟨name, (finishes_of_project h).trans hn⟩
  extended := by
    rintro chain s ⟨name, hn⟩ ⟨found, hf⟩
    refine ⟨name, hn.base, fun callee args => ?_⟩
    simp [hn.makes, hf.makes]

/-- An interface that extends others stands on a schema that has a name, and makes the calls of its
own properties. -/
theorem extension_schema {heritage : List Heritage} {s : Schema}
    (h : (p.extensionChain heritage (some (.object es))).result = .ok (some s)) :
    (∃ name, s.base = .reference name) ∧
      ∀ callee args, s.Makes callee args → ∃ e ∈ es, e.2.Makes callee args := by
  obtain ⟨chain, ⟨name, hn⟩, hs⟩ := heritable_finishes.of_extension h
  rcases hs with ⟨rfl, rfl⟩ | rfl
  · exact ⟨⟨name, hn.base⟩, by simp [hn.makes]⟩
  · refine ⟨⟨name, hn.base⟩, fun callee args hmakes => ?_⟩
    simpa [hn.makes] using hmakes

/-- The schema of the texts of a template is a literal or a union of literals. -/
theorem values_schema_cases (values : Values) (h : CallFree mods) :
    (∃ text, (values.schema mods).Finishes (.call "literal" [.value (.str text)])) ∨
      ∃ texts : List String, (values.schema mods).Finishes
        (.call "union" [.array (texts.map fun text => .call "literal" [.value (.str text)])]) := by
  have hfree : CallFree (mods ++
      if values.hasNull then [(⟨"nullable", [], false⟩ : Modifier)] else []) :=
    Refinement.call_free_append h (Refinement.call_free_flagged values.hasNull "nullable")
  unfold Values.schema
  dsimp only
  split
  · exact .inl ⟨_, hfree.finishes _⟩
  · exact .inr ⟨_, hfree.finishes _⟩

/-- A name that is compiled as a call is a set or a promise. -/
theorem callee_of_use {args types : List TypeExpr} {callee : String}
    (h : (p.use env name args).result = .ok (.name (.call callee types))) :
    callee = "set" ∨ callee = "promise" := by
  cases use_of_result h with
  | name huse =>
    have hnamed := named_use_of_result huse
    generalize (p.nameUse id name env args).trace = events at hnamed
    cases hnamed with
    | set => exact .inl rfl
    | promise => exact .inr rfl

end Steps

section Jobs

variable {s : Schema}

/-- A plan that is followed gives the schemas of its jobs and puts them together. -/
theorem run_inversion {planned : Compilation Plan} {compile : Job → Compilation Schema}
    (h : (do (← planned).run compile : Compilation Schema).result = .ok s) :
    ∃ plan ss, planned.result = .ok plan ∧
      Forall₂ (fun job s => (compile job).result = .ok s) plan.jobs ss ∧
      (plan.assemble ss).result = .ok s := by
  obtain ⟨plan, hplan, h⟩ := bind_ok_iff.1 h
  obtain ⟨ss, hschemas, h⟩ := bind_ok_iff.1 h
  refine ⟨plan, ss, hplan, ?_, h⟩
  clear h hplan
  generalize plan.jobs = jobs at hschemas ⊢
  induction jobs generalizing ss with
  | nil =>
    cases hschemas
    exact .nil
  | cons job rest ih =>
    rw [mapM_cons] at hschemas
    obtain ⟨a, ha, hschemas⟩ := bind_ok_iff.1 hschemas
    obtain ⟨others, hothers, hschemas⟩ := bind_ok_iff.1 hschemas
    cases hschemas
    exact .cons ha (ih others hothers)

/-- A job that is done: its plan, the schemas of the jobs before it, and what they make. -/
theorem compile_inversion {job : Job} (h : (p.compile job).result = .ok s) :
    ∃ plan ss, (p.plan job).result = .ok plan ∧
      Forall₂ (fun job s => (p.compile job).result = .ok s)
        plan.jobs ss ∧ (plan.assemble ss).result = .ok s := by
  rw [compile_eq_run] at h
  exact run_inversion h

/-- What plans keep, from the schemas of their jobs to what they put together, holds of the schema
of every job. -/
theorem compile_induction {motive : Job → Schema → Prop}
    (step : ∀ {job plan ss s}, (p.plan job).result = .ok plan →
      Forall₂ (fun job s => (p.compile job).result = .ok s) plan.jobs ss →
      Forall₂ motive plan.jobs ss → (plan.assemble ss).result = .ok s → motive job s)
    {job : Job} (h : (p.compile job).result = .ok s) : motive job s := by
  induction job using job_induction generalizing s with
  | h job ih =>
    obtain ⟨plan, ss, hplan, hss, h⟩ := compile_inversion h
    have hjobs : ∀ next ∈ plan.jobs, ∀ s, (p.compile next).result = .ok s → motive next s :=
      fun next hnext s hs => ih next ⟨plan, hplan, hnext⟩ hs
    exact step hplan hss (((forall₂_and_left _ _).2 ⟨hjobs, hss⟩).imp fun _ s h => h.1 s h.2) h

end Jobs

end Program

end Schemata
