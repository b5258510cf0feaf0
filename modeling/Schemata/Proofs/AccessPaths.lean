import Schemata.Proofs.Meaning
import Schemata.Proofs.Nullability
import Schemata.Proofs.Transparency

/-!
# Where the paths of indexed accesses lead

An indexed access to a declared type is compiled to a path into the schema of that type.
`Schema.follow?` follows such a path: a key of a shape leads to an entry of an object, and an
element to the argument of an array or to the last one of a record. `Descends` says which type an
access denotes. `access_path_reaches_schema`: the path leads to the schema of that type.
-/

namespace Schemata

open List
open Traced (bind_ok_iff lift_ok lift_ok_iff)

variable {s : Schema}

/-- A step of an indexed access, to a property or to the elements. -/
inductive AccessStep where
  | key (name : String)
  | element

/-- The type that stands for a step as an index. -/
def AccessStep.index : AccessStep → TypeExpr
  | .key name => .literal (.str name)
  | .element => .keyword .number

/-- What a step takes. -/
def AccessStep.indexKey : AccessStep → IndexKey
  | .key name => .property name
  | .element => .element

/-- The access that takes some steps from a type. -/
def accessOf (type : TypeExpr) (steps : List AccessStep) : TypeExpr :=
  steps.foldl (fun object step => .indexed object step.index) type

theorem access_of_nil (t : TypeExpr) : accessOf t [] = t := rfl

/-- A type without parentheses, in which a step can be taken, and the type that it leads to: an
object type with one required member of a name, an array or a record. -/
inductive StepsTo : TypeExpr → AccessStep → TypeExpr → Prop where
  | key {members} {member : Member TypeExpr} {type} (hmember : member ∈ members)
      (hunique : ∀ other ∈ members, other.name = member.name → other = member)
      (htype : member.type = some type) (hrequired : member.optional = false)
      (htags : member.tags = []) (hname : Identifier.isIdentifier member.name = true) :
      StepsTo (.object members none) (.key member.name) type
  | array (element : TypeExpr) : StepsTo (.array element) .element element
  | wrapper {name} (hname : name ∈ arrayNames) (element : TypeExpr) :
      StepsTo (.reference (.str name) [element]) .element element
  | record (key value : TypeExpr) :
      StepsTo (.reference (.str "Record") [key, value]) .element value

/-- The type that some steps lead to from a type. -/
inductive Descends (body : TypeExpr) : List AccessStep → TypeExpr → Prop where
  | start : Descends body [] body
  | step {steps} {container : TypeExpr} {type step} (h : Descends body steps container)
      (hstep : StepsTo container.unwrap step type) : Descends body (steps ++ [step]) type

/-- No steps lead nowhere else. -/
theorem Descends.eq_of_nil {body t : TypeExpr} (h : Descends body [] t) : t = body := by
  generalize hsteps : ([] : List AccessStep) = steps at h
  cases h with
  | start => rfl
  | step => simp at hsteps

/-- The words of a path. -/
def pathWords (path : String) : List String :=
  (path.toList.splitOn '.').map String.ofList

/-- What a path leads to in a schema. -/
def Schema.follow? : List String → Schema → Option Schema
  | [], schema => some schema
  | "shape" :: key :: rest, .call "object" [.object entries] =>
    entry? entries key |>.bind fun entry => follow? rest entry
  | "element" :: rest, .call "array" [element] => follow? rest element
  | "valueSchema" :: rest, .call "record" arguments =>
    arguments.getLast?.bind fun value => follow? rest value
  | _, _ => none

section Words

variable {words : List String}

theorem follow_append {rest : List String} {reached : Schema} (h : s.follow? words = some reached) :
    s.follow? (words ++ rest) = reached.follow? rest := by
  fun_induction Schema.follow? words s with
  | case1 =>
    cases h
    rfl
  | case2 _ _ _ ih | case4 _ _ ih =>
    obtain ⟨found, hf, h⟩ := Option.bind_eq_some_iff.1 h
    simp only [cons_append, Schema.follow?, hf, Option.bind_some]
    exact ih found h
  | case3 _ _ ih => exact ih h
  | case5 => cases h

/-- The words of a path that is made of words are these words. -/
theorem path_words_intercalate (hsome : words ≠ []) (h : ∀ word ∈ words, '.' ∉ word.toList) :
    pathWords (".".intercalate words) = words := by
  have hdot : (".".intercalate words).toList = ['.'].intercalate (words.map String.toList) := by
    rw [String.toList_intercalate]
    rfl
  rw [pathWords, hdot, splitOn_intercalate]
  · simp
  · intro chars hchars
    obtain ⟨word, hword, rfl⟩ := mem_map.1 hchars
    exact h word hword
  · simpa using hsome

/-- Two words that are joined stand in a path as one after the other. -/
theorem intercalate_joined (before later : List String) (a b : String) :
    ".".intercalate (before ++ (a ++ "." ++ b) :: later) =
      ".".intercalate (before ++ a :: b :: later) := by
  induction before with
  | nil =>
    rw [nil_append, nil_append, String.intercalate_cons_cons]
    cases later with
    | nil => rw [String.intercalate_singleton, String.intercalate_singleton]
    | cons =>
      rw [String.intercalate_cons_cons, String.intercalate_cons_cons]
      simp only [String.append_assoc]
  | cons word rest ih =>
    rw [cons_append, cons_append,
      String.intercalate_cons_of_ne_nil (append_ne_nil_of_right_ne_nil _ (by simp)),
      String.intercalate_cons_of_ne_nil (append_ne_nil_of_right_ne_nil _ (by simp)), ih]

/-- There is no dot in an identifier. -/
theorem not_mem_of_identifier {name : String} (h : Identifier.isIdentifier name = true) :
    '.' ∉ name.toList := fun hdot =>
  (Identifier.isPart_of_mem h hdot).elim (fun hpart => absurd hpart (by decide)) (by decide)

end Words

/-- The words of a step from a type without parentheses. -/
def stepWords (container : TypeExpr) : AccessStep → List String
  | .key name => ["shape", name]
  | .element =>
    match container with
    | .reference (.str "Record") _ => ["valueSchema"]
    | _ => ["element"]

namespace Program

/-- The names under which arrays and records are written stand for them: they are not declared, and
the settings reserve none of them. -/
def KeepsWrappers (program : Program) : Prop :=
  ∀ name ∈ "Record" :: arrayNames, program.find (.str name) = .ok none ∧
    program.settings.isMaybeName (.str name) ≠ .ok true

variable {p program : Program}

section Schemas

variable {container t : TypeExpr} {step : AccessStep} {env : Environment} {name : Name}
  {trace : List Event} {use : NameUse TypeExpr}

/-- Nothing is added to a schema that nothing is asked of. -/
theorem eq_of_finish {found : Schema} (h : (p.finish {} s).result = .ok found) : found = s := by
  obtain ⟨mods, hmods, h⟩ := bind_ok_iff.1 h
  rw [modifiers_of_bare ⟨rfl, rfl, rfl⟩ hmods] at h
  exact (Except.ok.inj h).symm

/-- Without an index signature, the plan of an object is about its members alone. -/
theorem object_plan_closed {R : Job → Schema → Prop} {off : Option Context}
    {ms : List (Member TypeExpr)} {finish : Schema → Compilation Schema} {ss : List Schema}
    (h : Forall₂ R (p.objectPlan off env ms none finish).jobs ss) :
    Forall₂ R ((p.memberJobs off env ms).map (·.2)) ss ∧
      (p.objectPlan off env ms none finish).assemble ss =
        finish (objectSchema (((p.memberJobs off env ms).map (·.1)).zip ss) none) := by
  simp only [objectPlan, Option.map_none, Option.toList_none, append_nil] at h ⊢
  have hlen := h.length_eq
  rw [length_map] at hlen
  exact ⟨h, by rw [getElem?_eq_none hlen.ge]⟩

/-- The schema of a member of a unique name is the entry of that name. -/
theorem entry_of_member {ms : List (Member TypeExpr)} {m : Member TypeExpr}
    {ss : List Schema} (hm : m ∈ ms)
    (hunique : ∀ other ∈ ms, other.name = m.name → other = m)
    (ht : m.type = some t)
    (h : Forall₂ (fun job s => (p.compile job).result = .ok s)
      ((p.memberJobs none env ms).map (·.2)) ss) :
    ∃ s, Schema.entry? (((p.memberJobs none env ms).map (·.1)).zip ss) m.name = some s ∧
      (p.compile ⟨t, env, p.memberContext none m⟩).result = .ok s := by
  induction ms generalizing ss with
  | nil => cases hm
  | cons a rest ih =>
    have hr := (forall_mem_cons.1 hunique).2
    cases ha : a.type with
    | none =>
      have hne : m ≠ a := by
        rintro rfl
        cases ht.symm.trans ha
      rw [member_jobs_untyped ha] at h ⊢
      exact ih ((mem_cons.1 hm).resolve_left hne) hr h
    | some found =>
      rw [member_jobs_typed ha] at h ⊢
      cases h with
      | @cons _ s _ ss hs hschemas =>
        by_cases hn : a.name = m.name
        · cases hunique a mem_cons_self hn
          cases ht.symm.trans ha
          refine ⟨s, ?_, hs⟩
          unfold Schema.entry?
          simp
        · have hne : m ≠ a := fun heq => hn (heq ▸ rfl)
          obtain ⟨e, he, hres⟩ := ih ((mem_cons.1 hm).resolve_left hne) hr hschemas
          refine ⟨e, ?_, hres⟩
          unfold Schema.entry? at he ⊢
          simpa [hn] using he

/-- What a name that is not declared is compiled as with its arguments. -/
theorem name_plan_of_undeclared {args : List TypeExpr} {plan : Plan} (hn : p.find name = .ok none)
    (h : (p.typePlan .empty {} (.reference name args)).result = .ok plan) :
    ∃ trace use, NamedUse p .empty name args trace use ∧ plan = p.namePlan .empty {} name use := by
  obtain ⟨use, huse, h⟩ := bind_ok_iff.1 h
  cases use_of_result huse with
  | bound hb => cases hb
  | aliasBody hfind | interfaceBody hfind => cases hn.symm.trans hfind
  | name hnamed =>
    cases h
    exact ⟨_, _, named_use_of_result hnamed, rfl⟩

theorem builtin_of_array_name {name : String} (h : name ∈ arrayNames) :
    Builtin.ofName? (.str name) = some .array := by
  rcases mem_pair.1 h with rfl | rfl <;> rfl

/-- A name of arrays that is not reserved is compiled as an array. -/
theorem array_of_named_use {a : TypeExpr} (hbuiltin : Builtin.ofName? name = some .array)
    (hmaybe : p.settings.isMaybeName name ≠ .ok true)
    (h : NamedUse p env name [a] trace use) : use = .array a := by
  cases h with
  | array => rfl
  | maybe _ hreserved => exact (hmaybe hreserved).elim
  | _ => simp_all

/-- The name of records, if it is not reserved, is compiled as a record. -/
theorem record_of_named_use {key v : TypeExpr} (hbuiltin : Builtin.ofName? name = some .record)
    (hmaybe : p.settings.isMaybeName name ≠ .ok true)
    (h : NamedUse p env name [key, v] trace use) : ∃ keys, use = .record keys (some v) := by
  cases h with
  | record => exact ⟨_, rfl⟩
  | maybe _ hreserved => exact (hmaybe hreserved).elim
  | _ => simp_all

/-- A step into a type that is compiled leads to a schema inside of its schema. -/
theorem step_reaches {outer : Schema} (hwrappers : p.KeepsWrappers)
    (hstep : StepsTo container step t)
    (h : (p.compile ⟨container, .empty, {}⟩).result = .ok outer) :
    ∃ reached, (p.compile ⟨t, .empty, {}⟩).result = .ok reached ∧
      outer.follow? (stepWords container step) = some reached := by
  rw [compile_without_tags rfl] at h
  obtain ⟨plan, ss, hplan, hjobs, h⟩ := run_inversion h
  cases hstep with
  | @key ms m _ hm hunique ht hrequired htags =>
    cases hplan
    obtain ⟨hmembers, hassemble⟩ := object_plan_closed hjobs
    have hctx : p.memberContext none m = {} := by
      simp [memberContext, hrequired, htags, Program.tags]
    obtain ⟨reached, he, hreached⟩ := entry_of_member hm hunique ht hmembers
    rw [hctx] at hreached
    refine ⟨reached, hreached, ?_⟩
    rw [hassemble] at h
    rw [eq_of_finish h]
    simp [stepWords, Schema.follow?, objectSchema, he]
  | array =>
    cases hplan
    obtain ⟨reached, _, hreached, hr, rfl⟩ := forall₂_cons_left_iff.1 hjobs
    cases hr
    exact ⟨reached, hreached, by rw [eq_of_finish h]; rfl⟩
  | @wrapper name hn =>
    obtain ⟨hfind, hmaybe⟩ := hwrappers name (mem_cons_of_mem _ hn)
    obtain ⟨trace, use, huse, rfl⟩ := name_plan_of_undeclared hfind hplan
    have hwords : stepWords (.reference (.str name) [t]) .element = ["element"] := by
      rcases mem_pair.1 hn with rfl | rfl <;> rfl
    cases array_of_named_use (builtin_of_array_name hn) hmaybe huse
    obtain ⟨reached, _, hreached, hr, rfl⟩ := forall₂_cons_left_iff.1 hjobs
    cases hr
    exact ⟨reached, hreached, by rw [hwords, eq_of_finish h]; rfl⟩
  | record =>
    obtain ⟨hfind, hmaybe⟩ := hwrappers "Record" mem_cons_self
    obtain ⟨trace, use, huse, rfl⟩ := name_plan_of_undeclared hfind hplan
    obtain ⟨keys, rfl⟩ := record_of_named_use rfl hmaybe huse
    obtain ⟨reached, others, hreached, hr, rfl⟩ := forall₂_cons_left_iff.1 hjobs
    refine ⟨reached, hreached, ?_⟩
    rw [eq_of_finish h]
    simp [stepWords, Schema.follow?]

end Schemas

section Chains

variable {env : Environment} {name : Name} {decl : Declaration}
  {body container t : TypeExpr} {ms : List (Member TypeExpr)} {m : Member TypeExpr}
  {steps : List AccessStep} {step : AccessStep}

/-- The last step of an access is the outermost index of its chain. -/
theorem chain_access (base : TypeExpr) (steps : List AccessStep) (step : AccessStep) :
    env.chain (accessOf base (steps ++ [step])) =
      .index (accessOf base (steps ++ [step])) (.ok step.indexKey)
        (env.chain (accessOf base steps)) := by
  have haccess : accessOf base (steps ++ [step]) = .indexed (accessOf base steps) step.index := by
    rw [accessOf, foldl_append]
    rfl
  have hk : IndexKey.ofType (some env) step.index = .ok step.indexKey := by
    obtain ⟨depth, bindings⟩ := env
    cases step <;> rfl
  rw [haccess, env.chain_indexed, hk]

/-- A member of a unique name is the one that is found under it. -/
theorem find_unique_member (hm : m ∈ ms) (hunique : ∀ other ∈ ms, other.name = m.name → other = m) :
    findMember? ms (.str m.name) = some m := by
  have hsame (other : Member TypeExpr) :
      (Json.str other.name).same (.str m.name) = true ↔ other.name = m.name := by
    rw [same_iff_key rfl]
    simp [Json.key?]
  cases hfind : findMember? ms (.str m.name) with
  | none => exact absurd ((hsame m).2 rfl) (find?_eq_none.1 hfind m hm)
  | some other =>
    unfold findMember? at hfind
    have hn := (hsame other).1 (by simpa using find?_some hfind)
    rw [hunique other (mem_of_find?_eq_some hfind) hn]

/-- The member of an object type is found in it. -/
theorem member_type_of_object (hcontainer : container.unwrap = .object ms none) (key : Json) :
    p.memberType (some container) key = pure ((findMember? ms key).bind Member.type) := by
  rw [memberType, memberTypeWithin, hcontainer]

/-- The member of a declared object type is found in its body. -/
theorem member_type_of_declaration (hf : p.find name = .ok (some decl))
    (hbody : decl.body? = some body) (hobj : body.unwrap = .object ms none)
    {key : Json} (hm : findMember? ms key = some m) :
    p.memberType (some (.reference name [])) key = pure m.type := by
  obtain ⟨nameKey, hk, hd⟩ := bind_eq_ok_iff.1 hf
  have hlookup : p.declaration? nameKey = some decl := Except.ok.inj hd
  obtain ⟨count, hcount⟩ : ∃ count, p.unit.declarations.length = count + 1 :=
    Nat.exists_eq_succ_of_ne_zero (length_pos_of_mem (mem_of_find hf)).ne'
  rw [memberType, memberTypeWithin]
  dsimp only [TypeExpr.unwrap]
  rw [hk, lift_ok, pure_bind, if_neg not_mem_nil, hlookup]
  cases decl with
  | enumeration => cases hbody
  | typeAlias =>
    cases hbody
    dsimp only
    rw [hcount, memberTypeWithin, hobj]
    dsimp only
    rw [hm]
    rfl
  | interface =>
    obtain ⟨-, rfl⟩ := body_of_interface hbody
    obtain ⟨hms, -⟩ := TypeExpr.object.inj hobj
    dsimp only
    rw [hms, hm]

/-- The declared type of an access is the one that its steps lead to. -/
theorem chain_type_of_descends (hf : p.find name = .ok (some decl))
    (hroot : env.chain (.reference name []) = .root (.reference name []))
    (hbody : decl.body? = some body) (hobj : body.unwrap = .object ms none)
    (h : Descends body steps t) (hsome : steps ≠ []) {found : TypeExpr}
    (hres : (p.chainType (env.chain
      (accessOf (.reference name []) steps))).result = .ok (some found)) : found = t := by
  induction h generalizing found with
  | start => exact (hsome rfl).elim
  | @step steps container t step hcontainer hstep ih =>
    rw [chain_access] at hres
    cases step with
    | element => cases hres
    | key key =>
      generalize hun : container.unwrap = outer at hstep
      cases hstep with
      | @key others m _ hm hunique ht =>
        have hfind := find_unique_member hm hunique
        rcases eq_nil_or_concat steps with rfl | ⟨before, last, rfl⟩
        · cases hcontainer.eq_of_nil
          cases hobj.symm.trans hun
          rw [access_of_nil, hroot] at hres
          change (p.memberType _ _).result = _ at hres
          rw [member_type_of_declaration hf hbody hobj hfind, ht] at hres
          cases hres
          rfl
        · rw [concat_eq_append, chain_access] at hres ih
          obtain ⟨_, hk, hres⟩ := bind_ok_iff.1 hres
          cases hk
          obtain ⟨found?, hfound?, hres⟩ := bind_ok_iff.1 hres
          cases found? with
          | none => cases hres
          | some =>
            cases ih (by simp) hfound?
            dsimp only at hres
            rw [member_type_of_object hun, hfind] at hres
            exact (Option.some.inj ((Except.ok.inj hres).symm.trans ht))

/-- The segment of a step to the elements is its only word. -/
theorem element_segment_of_step {segment : String} (hwrappers : p.KeepsWrappers)
    (hstep : StepsTo container.unwrap .element t)
    (h : p.elementSegment (some container) = .ok (some segment)) :
    stepWords container.unwrap .element = [segment] := by
  unfold elementSegment at h
  rw [Option.map_some] at h
  generalize container.unwrap = outer at hstep h
  cases hstep with
  | array =>
    cases h
    rfl
  | @wrapper name hn =>
    rcases mem_pair.1 hn with rfl | rfl <;> cases h <;> rfl
  | record =>
    obtain ⟨-, hmaybe⟩ := hwrappers "Record" mem_cons_self
    obtain ⟨isMaybe, hisMaybe, h⟩ := bind_eq_ok_iff.1 h
    cases isMaybe with
    | true => exact (hmaybe hisMaybe).elim
    | false =>
      cases h
      rfl

/-- The segment of a step is made of its words. -/
theorem segment_of_step {access : TypeExpr} {object : Chain} {segment : String}
    (hwrappers : p.KeepsWrappers) (hstep : StepsTo container.unwrap step t)
    (hobj : step = .element → ∀ found,
      (p.chainType object).result = .ok (some found) → found = container)
    (h : (p.segment access step.indexKey object).result = .ok (some segment))
    (before later : List String) :
    ".".intercalate (before ++ segment :: later) =
      ".".intercalate (before ++ (stepWords container.unwrap step ++ later)) := by
  cases step with
  | key key =>
    cases h
    generalize container.unwrap = outer at hstep
    cases hstep with
    | @key _ m _ _ _ _ _ _ hn =>
      have hsegment : shapeSegment m.name = "shape" ++ "." ++ m.name := if_pos hn
      rw [hsegment, intercalate_joined]
      rfl
  | element =>
    obtain ⟨found, hf, h⟩ := bind_ok_iff.1 h
    obtain ⟨taken, htaken, h⟩ := bind_ok_iff.1 h
    have hsegment := lift_ok_iff.1 htaken
    cases taken with
    | none =>
      obtain ⟨_, -, h⟩ := bind_ok_iff.1 h
      obtain ⟨_, -, h⟩ := bind_ok_iff.1 h
      cases h
    | some =>
      cases h
      cases found with
      | none => cases hsegment
      | some found =>
        cases hobj rfl found hf
        rw [element_segment_of_step hwrappers hstep hsegment]
        rfl

theorem step_words_ne_nil (container : TypeExpr) (step : AccessStep) :
    stepWords container step ≠ [] := by
  unfold stepWords
  split
  · exact cons_ne_nil _ _
  · split <;> exact cons_ne_nil _ _

/-- The words of a step have no dots in them. -/
theorem step_words_whole (hstep : StepsTo container step t) :
    ∀ word ∈ stepWords container step, '.' ∉ word.toList := by
  cases hstep with
  | key _ _ _ _ _ hn =>
    intro word hword
    rcases mem_pair.1 hword with rfl | rfl
    · decide
    · exact not_mem_of_identifier hn
  | array | record =>
    intro word hword
    cases mem_singleton.1 hword
    decide
  | wrapper hn =>
    rcases mem_pair.1 hn with rfl | rfl <;> intro word hword <;>
      cases mem_singleton.1 hword <;> decide

end Chains

section Paths

variable {environment : Environment} {name : Name} {declaration : Declaration}
  {body type : TypeExpr} {members : List (Member TypeExpr)} {steps : List AccessStep}
  {schema : Schema}

/-- A path into the schema of a name, and what it leads to in a schema. -/
structure PathLeadsTo (program : Program) (name : Name) (schema : Schema)
    (words later : List String) (found reached : Schema) : Prop where
  target : ∃ constant, program.settings.nameOf name = .ok constant ∧
    found = .field (some (.reference constant)) (".".intercalate (words ++ later))
  nonempty : words ≠ []
  whole : ∀ word ∈ words, '.' ∉ word.toList
  follow : schema.follow? words = some reached

/-- The chain of an access is compiled to a path that leads to the schema of the type that the
access denotes. -/
theorem access_leads_to (hwrappers : p.KeepsWrappers) (hf : p.find name = .ok (some declaration))
    (hroot : environment.chain (.reference name []) = .root (.reference name []))
    (hbody : declaration.body? = some body) (hobj : body.unwrap = .object members none)
    (hs : (p.compile ⟨body, .empty, {}⟩).result = .ok schema)
    (h : Descends body steps type) (hsome : steps ≠ []) {later : List String} {found : Schema}
    (haccess : (p.accessChain (environment.chain
      (accessOf (.reference name []) steps)) later).result = .ok (some found)) :
    ∃ words reached, (p.compile ⟨type, .empty, {}⟩).result = .ok reached ∧
      p.PathLeadsTo name schema words later found reached := by
  induction h generalizing later found with
  | start => exact (hsome rfl).elim
  | @step steps container type step hcontainer hstep ih =>
    rw [chain_access] at haccess
    obtain ⟨_, hk, haccess⟩ := bind_ok_iff.1 haccess
    cases hk
    obtain ⟨_, -, haccess⟩ := bind_ok_iff.1 haccess
    obtain ⟨segment, hsegment, haccess⟩ := bind_ok_iff.1 haccess
    cases segment with
    | none => cases haccess
    | some =>
      have hstepped {outer : Schema}
          (houter : (p.compile ⟨container, .empty, {}⟩).result = .ok outer) :=
        step_reaches hwrappers hstep ((compile_unwrap ⟨container, .empty, {}⟩) ▸ houter)
      have hwhole := step_words_whole hstep
      dsimp only at haccess
      rcases eq_nil_or_concat steps with rfl | ⟨before, last, rfl⟩
      · cases hcontainer.eq_of_nil
        rw [access_of_nil, hroot] at haccess hsegment
        obtain ⟨target, htarget, haccess⟩ := bind_ok_iff.1 haccess
        obtain ⟨constant, hc, htarget⟩ := bind_ok_iff.1 htarget
        obtain ⟨_, -, htarget⟩ := bind_ok_iff.1 htarget
        cases htarget
        cases haccess
        obtain ⟨reached, hreached, hfollow⟩ := hstepped hs
        have hno : step ≠ .element := by
          rintro rfl
          rw [hobj] at hstep
          cases hstep
        have hwords := segment_of_step hwrappers hstep (fun h => (hno h).elim) hsegment [] later
        refine ⟨_, reached, hreached, ⟨constant, lift_ok_iff.1 hc, ?_⟩,
          step_words_ne_nil _ _, hwhole, hfollow⟩
        rw [nil_append, nil_append] at hwords
        rw [hwords]
      · rw [concat_eq_append] at hcontainer ih haccess hsegment
        rw [chain_access] at haccess
        dsimp only at haccess
        rw [← chain_access] at haccess
        obtain ⟨words, outer, houter, ⟨constant, hc, rfl⟩, hnonempty, hall, hfollow⟩ :=
          ih (by simp) haccess
        obtain ⟨reached, hreached, hi⟩ := hstepped houter
        have hwords := segment_of_step hwrappers hstep
          (fun _ found h => chain_type_of_descends hf hroot hbody hobj hcontainer
            (by simp) h) hsegment words later
        refine ⟨words ++ stepWords container.unwrap step, reached, hreached,
          ⟨constant, hc, ?_⟩, by simp [hnonempty], ?_, ?_⟩
        · rw [hwords, append_assoc]
        · exact fun word hword => (mem_append.1 hword).elim (hall word) (hwhole word)
        · rw [follow_append hfollow, hi]

/-- A declaration without parameters and tags is compiled as its body. -/
theorem compile_body_of_declaration (hparams : declaration.parameters = [])
    (htags : declaration.tags = []) (hbody : declaration.body? = some body)
    (h : (p.declarationSchema declaration).result = .ok schema) :
    (p.compile ⟨body, .empty, {}⟩).result = .ok schema := by
  rw [declaration_schema_eq] at h
  cases declaration with
  | enumeration => cases hbody
  | typeAlias d =>
    cases hbody
    have hnone : p.tags d.tags = [] := by
      rw [show d.tags = [] from htags, Program.tags, ite_self]
    rw [declarationPlan, show d.parameters = [] from hparams, hnone] at h
    rwa [if_pos isEmpty_nil, pure_bind, Plan.run_through] at h
  | interface d =>
    obtain ⟨hher, rfl⟩ := body_of_interface hbody
    have hnone : d.parameters = [] := hparams
    have hstrict : (p.tags d.tags).strict = false := by
      rw [show d.tags = [] from htags, Program.tags, ite_self]
      rfl
    rw [declarationPlan, interfaceUse, bind_assoc, bind_assoc] at h
    obtain ⟨reserved, hreserved, h⟩ := bind_ok_iff.1 h
    cases reserved with
    | some =>
      cases eq_of_reserved (lift_ok_iff.1 hreserved)
      dsimp only at h
      rw [reservedUse, hnone] at h
      cases h
    | none =>
      rw [compile_without_tags rfl, ← interface_plan_plain hher hstrict]
      simpa [hnone, usePlan] using h

/-- The path of an access to a declared object type, through object types, arrays and records, leads
in the schema of the declaration to the schema of the type that the access denotes. -/
theorem access_path_reaches_schema {target : Option Schema} {path : String}
    (hwrappers : program.KeepsWrappers) (hfound : program.find name = .ok (some declaration))
    (hparameters : declaration.parameters = []) (htags : declaration.tags = [])
    (hbody : declaration.body? = some body) (hobject : body.unwrap = .object members none)
    (hunbound : environment.lookup name = .ok none) (hsteps : steps ≠ [])
    (hdenotes : Descends body steps type)
    (hschema : (program.declarationSchema declaration).result = .ok schema)
    (haccess : (program.schemaOf (some (accessOf (.reference name []) steps)) environment
      []).result = .ok (.field target path)) :
    (∃ constant, program.settings.nameOf name = .ok constant ∧
      target = some (.reference constant)) ∧
    ∃ reached, (program.schemaOf (some type) .empty []).result = .ok reached ∧
      schema.follow? (pathWords path) = some reached := by
  have hnone : program.tags [] = [] := ite_self _
  rw [schema_of_some, hnone] at haccess ⊢
  obtain ⟨key, hkey, hbinding⟩ := bind_eq_ok_iff.1 hunbound
  have hroot : environment.chain (.reference name []) = .root (.reference name []) := by
    rw [environment.chain_reference hkey, Except.ok.inj hbinding]
  have hindexed : ∃ base index, accessOf (.reference name []) steps = .indexed base index := by
    rcases List.eq_nil_or_concat steps with rfl | ⟨before, last, rfl⟩
    · exact (hsteps rfl).elim
    · exact ⟨accessOf (.reference name []) before, last.index, by simp [accessOf]⟩
  obtain ⟨base, index, hindexed⟩ := hindexed
  rw [hindexed, compile_without_tags rfl] at haccess
  obtain ⟨plan, schemas, hplan, -, haccess⟩ := run_inversion haccess
  cases hplan
  obtain ⟨found, hchain, haccess⟩ := Traced.bind_ok_iff.1 haccess
  cases found with
  | none => cases eq_of_finish haccess
  | some found =>
    cases eq_of_finish haccess
    change (program.accessChain (environment.chain (.indexed base index)) []).result = _ at hchain
    rw [← hindexed] at hchain
    have hcompiled := compile_body_of_declaration hparameters htags hbody hschema
    obtain ⟨words, reached, hreached, ⟨constant, hconstant, hfield⟩, hnonempty, hwhole, hfollow⟩ :=
      access_leads_to hwrappers hfound hroot hbody hobject hcompiled hdenotes hsteps hchain
    rw [List.append_nil] at hfield
    cases hfield
    refine ⟨⟨constant, hconstant, rfl⟩, reached, hreached, ?_⟩
    rw [path_words_intercalate hnonempty hwhole, hfollow]

end Paths

/-- The type `{ title: string }`. -/
def book : TypeExpr :=
  .object [⟨"title", some (.keyword .string), false, false, []⟩] none

/-- The type `{ books: (Array<{ title: string }>) }`. -/
def row : TypeExpr :=
  .object [⟨"books", some (.paren (.reference (.str "Array") [book])), false, false, []⟩] none

/-- The declaration `type Shelf = { books: (Array<{ title: string }>) }`. -/
def shelf : Declaration :=
  .typeAlias
    { name := .str "Shelf"
      tags := []
      exported := true
      parameters := []
      type := row }

/-- The program of a shelf, with some names reserved for values that may be absent. -/
def library (reserved : List Name) : Program where
  unit := ⟨.null, [shelf], []⟩
  settings := { Settings.default with maybe := some ⟨reserved, .bool true, .bool true⟩ }

theorem books_on_shelf : Descends row [.key "books", .element] book := by
  have hbooks : StepsTo row.unwrap (.key "books") (.paren (.reference (.str "Array") [book])) :=
    .key mem_cons_self (fun _ h _ => mem_singleton.1 h) rfl rfl rfl rfl
  have hk : Descends row [.key "books"] (.paren (.reference (.str "Array") [book])) :=
    .step .start hbooks
  exact .step hk (.wrapper mem_cons_self book)

/-- The path of `Shelf["books"][number]["title"]` leads to the schema of a text. -/
theorem title_path_reaches_schema :
    let steps : List AccessStep := [.key "books", .element, .key "title"]
    let target := some (Schema.reference (.str "shelfSchema"))
    ∃ schema, ((library []).declarationSchema shelf).result = .ok schema ∧
      ((library []).schemaOf (some (accessOf (.reference (.str "Shelf") []) steps)) .empty
        []).result = .ok (.field target "shape.books.element.shape.title") ∧
      ∃ reached,
        ((library []).schemaOf (some (.keyword .string)) .empty []).result = .ok reached ∧
        schema.follow? (pathWords "shape.books.element.shape.title") = some reached := by
  intro steps target
  have hwrappers : (library []).KeepsWrappers := by
    intro name hname
    simp only [arrayNames, List.mem_cons, List.not_mem_nil, or_false] at hname
    rcases hname with rfl | rfl | rfl <;> exact ⟨rfl, fun h => by cases h⟩
  have htitle : StepsTo book (.key "title") (.keyword .string) :=
    .key List.mem_cons_self (fun _ h _ => List.mem_singleton.1 h) rfl rfl rfl rfl
  obtain ⟨schema, hschema⟩ : ∃ schema, ((library []).declarationSchema shelf).result = .ok schema :=
    ⟨_, rfl⟩
  obtain ⟨-, hreached⟩ := @access_path_reaches_schema (library []) .empty (.str "Shelf") shelf row
    (.keyword .string) _ steps schema target "shape.books.element.shape.title" hwrappers rfl rfl rfl
    rfl rfl rfl (by simp [steps]) (.step books_on_shelf htitle) hschema rfl
  exact ⟨schema, hschema, rfl, hreached⟩

/-- Where the name of arrays is reserved, the path of `Shelf["books"][number]` leads nowhere: the
schema of the declaration has a value that may be absent in the place of an array. -/
theorem reserved_array_path_lost :
    let steps : List AccessStep := [.key "books", .element]
    Descends row steps book ∧
      ((library [.str "Array"]).schemaOf (some (accessOf (.reference (.str "Shelf") []) steps))
        .empty []).result =
          .ok (.field (some (.reference (.str "shelfSchema"))) "shape.books.element") ∧
      ∃ schema, ((library [.str "Array"]).declarationSchema shelf).result = .ok schema ∧
        schema.follow? (pathWords "shape.books.element") = none :=
  ⟨books_on_shelf, rfl, _, rfl, rfl⟩

end Program

end Schemata
