import Schemata.Proofs.Forms

/-!
# The grammar of schemas

`Schema.FollowsGrammar` says what a node of a schema looks like that the validators can run: the
calls that are made on the namespace with the arguments they take, what a path starts from, and the
places of the modifiers that only some calls have. `Schema.IsGrammatical` says so of all nodes. The
modifiers that a context calls for keep a schema grammatical, and the plan of every job puts
grammatical schemas together to a grammatical one, so `emitted_schemas_grammatical` holds by
induction on jobs. A grammatical schema can be written, unless a name in it is not a text.
-/

namespace Schemata

open List
open Traced (bind_ok_iff lift_ok_iff)

variable {target : Schema} {name : String} {args parts : List Schema}
  {entries : List (String × Schema)} {mods : List Modifier}

namespace Schema

/-- The expressions that stand directly inside of a node: those in what its modifiers stand on, and
the arguments of the modifiers. -/
def inner (schema : Schema) : List Schema :=
  schema.base.children ++ schema.modifiers.flatMap Modifier.arguments

/-- A node of a schema: an expression with all modifiers that stand on it. -/
inductive IsNode (node : Schema) : Schema → Prop where
  | here : IsNode node node
  | inside {inner schema : Schema} (h : IsNode node inner) (hinner : inner ∈ schema.inner) :
      IsNode node schema

/-- The arguments that a call on the namespace takes. -/
def TakesArguments (arguments : List Schema) : String → Prop
  | "union" => ∃ items, arguments = [.array items] ∧ 2 ≤ items.length
  | "discriminatedUnion" =>
    ∃ field items, arguments = [.value (.str field), .array items] ∧ 2 ≤ items.length
  | "literal" =>
    (∃ value, arguments = [.value value] ∧ value ≠ .null) ∨ ∃ name, arguments = [.symbol name]
  | "object" => ∃ entries, arguments = [.object entries]
  | "array" => ∃ element, arguments = [element]
  | "record" => (∃ value, arguments = [value]) ∨ ∃ key value, arguments = [key, value]
  | "tuple" => ∃ slots, arguments = [.array slots]
  | "function" => arguments = []
  | _ => True

/-- What modifiers can stand on: calls with the arguments they take, paths that start from a schema
with a name, and whatever else has a form. -/
def HasForm : Schema → Prop
  | .call name arguments => TakesArguments arguments name
  | .field target _ => ∃ schema name, target = some schema ∧ schema.base = .reference name
  | .blank => False
  | _ => True

/-- A node that follows the grammar. -/
structure FollowsGrammar (node : Schema) : Prop where
  form : node.base.HasForm
  /-- A function is given its parameters and its result first. -/
  function : ∀ arguments, node.base = .call "function" arguments → ∃ parameters results rest,
    node.modifiers = ⟨"args", parameters, false⟩ :: ⟨"returns", results, false⟩ :: rest
  /-- The further elements of a tuple come first. Source text that a tag adds is no such modifier,
  whatever it says. -/
  rest : ∀ place modifier, node.modifiers[place]? = some modifier → modifier.name = "rest" →
    modifier.raw = false → place = 0 ∧ ∃ arguments, node.base = .call "tuple" arguments

/-- What holds of all nodes of a schema holds of it and of all nodes inside of it. -/
theorem forall_nodes_iff {holds : Schema → Prop} {s : Schema} :
    (∀ node : Schema, node.IsNode s → holds node) ↔
      holds s ∧ ∀ inner ∈ s.inner, ∀ node : Schema, node.IsNode inner → holds node := by
  constructor
  · exact fun h => ⟨h s .here, fun inner hi node hnode => h node (.inside hnode hi)⟩
  · rintro ⟨hself, hi⟩ node hnode
    cases hnode with
    | here => exact hself
    | inside hnode h => exact hi _ h node hnode

/-- All nodes of the schema follow the grammar. -/
def IsGrammatical (schema : Schema) : Prop :=
  ∀ node : Schema, node.IsNode schema → node.FollowsGrammar

/-- A schema is grammatical when it follows the grammar itself and what stands inside of it is
grammatical. -/
theorem grammatical_iff {s : Schema} :
    s.IsGrammatical ↔ s.FollowsGrammar ∧ ∀ inner ∈ s.inner, inner.IsGrammatical :=
  forall_nodes_iff

end Schema

/-- A modifier with grammatical arguments that does not give further elements to a tuple. -/
structure Modifier.IsOrdinary (modifier : Modifier) : Prop where
  name : modifier.name = "rest" → modifier.raw = true
  arguments : ∀ argument ∈ modifier.arguments, argument.IsGrammatical

namespace Schema

section Forms

variable {s : Schema} {xs : List Schema}

/-- An expression without modifiers is grammatical when it has a form, is not a function, and what
it is made of is grammatical. -/
theorem grammatical_of_children (hbase : s.base = s) (hmods : s.modifiers = [])
    (hform : s.HasForm) (hfunction : ∀ args, s ≠ .call "function" args)
    (h : ∀ child ∈ s.children, child.IsGrammatical) : s.IsGrammatical := by
  refine grammatical_iff.2 ⟨⟨by rwa [hbase], fun args heq => ?_, ?_⟩, fun inner hi => ?_⟩
  · exact (hfunction args (hbase ▸ heq)).elim
  · intro place mod hplace
    rw [hmods] at hplace
    cases hplace
  · rw [Schema.inner, hbase, hmods, flatMap_nil, append_nil] at hi
    exact h inner hi

theorem grammatical_call (hn : name ≠ "function") (htakes : TakesArguments args name)
    (h : ∀ arg ∈ args, arg.IsGrammatical) : (call name args).IsGrammatical :=
  grammatical_of_children rfl rfl htakes (fun _ heq => hn (by cases heq; rfl)) h

theorem grammatical_reference (name : Name) : (reference name).IsGrammatical :=
  grammatical_of_children rfl rfl trivial (fun _ h => by cases h) fun _ h => by cases h

theorem grammatical_value (content : Json) : (value content).IsGrammatical :=
  grammatical_of_children rfl rfl trivial (fun _ h => by cases h) fun _ h => by cases h

theorem grammatical_regex (pattern : Json) : (regex pattern).IsGrammatical :=
  grammatical_of_children rfl rfl trivial (fun _ h => by cases h) fun _ h => by cases h

theorem grammatical_symbol (name : Name) : (symbol name).IsGrammatical :=
  grammatical_of_children rfl rfl trivial (fun _ h => by cases h) fun _ h => by cases h

theorem grammatical_verbatim (text : String) : (verbatim text).IsGrammatical :=
  grammatical_of_children rfl rfl trivial (fun _ h => by cases h) fun _ h => by cases h

theorem grammatical_array (h : ∀ x ∈ xs, x.IsGrammatical) :
    (array xs).IsGrammatical := grammatical_of_children rfl rfl trivial (fun _ h => by cases h) h

theorem grammatical_object (h : ∀ e ∈ entries, e.2.IsGrammatical) :
    (object entries).IsGrammatical := by
  refine grammatical_of_children rfl rfl trivial (fun _ h => by cases h) fun child hchild => ?_
  obtain ⟨e, he, rfl⟩ := mem_map.1 hchild
  exact h e he

theorem grammatical_helper (h : ∀ arg ∈ args, arg.IsGrammatical) :
    (helper name args).IsGrammatical :=
  grammatical_of_children rfl rfl trivial (fun _ h => by cases h) h

theorem grammatical_field {name : Name} {path : String} (hbase : target.base = .reference name)
    (h : target.IsGrammatical) : (field (some target) path).IsGrammatical := by
  refine grammatical_of_children rfl rfl ⟨target, name, rfl, hbase⟩ (fun _ h => by cases h)
    fun child hchild => ?_
  cases mem_singleton.1 hchild
  exact h

/-- A call without arguments, of a name that needs none. -/
theorem grammatical_plain_call (hn : name ≠ "function") (htakes : TakesArguments [] name) :
    (call name []).IsGrammatical := grammatical_call hn htakes fun _ h => by cases h

/-- A call on an array literal. -/
theorem grammatical_call_array (hn : name ≠ "function") (htakes : TakesArguments [.array xs] name)
    (h : ∀ x ∈ xs, x.IsGrammatical) : (call name [array xs]).IsGrammatical := by
  refine grammatical_call hn htakes fun arg harg => ?_
  cases mem_singleton.1 harg
  exact grammatical_array h

/-- Ordinary modifiers keep a schema grammatical. -/
theorem IsGrammatical.with_modifiers (h : s.IsGrammatical)
    (hmods : ∀ mod ∈ mods, mod.IsOrdinary) : (s.withModifiers mods).IsGrammatical := by
  obtain ⟨hself, hi⟩ := grammatical_iff.1 h
  refine grammatical_iff.2 ⟨⟨?_, fun args hbase => ?_, fun place mod hplace => ?_⟩,
    fun inner hmem => ?_⟩
  · rw [base_withModifiers]
    exact hself.form
  · rw [base_withModifiers] at hbase
    obtain ⟨params, results, rest, heq⟩ := hself.function args hbase
    exact ⟨params, results, rest ++ mods, by simp [heq]⟩
  · intro hn hraw
    rw [modifiers_withModifiers] at hplace
    rw [base_withModifiers]
    by_cases hlt : place < s.modifiers.length
    · rw [getElem?_append_left hlt] at hplace
      exact hself.rest place mod hplace hn hraw
    · rw [getElem?_append_right (Nat.le_of_not_lt hlt)] at hplace
      have hordinary := hmods mod (mem_of_getElem? hplace)
      exact absurd (hordinary.name hn) (by simp [hraw])
  · simp only [Schema.inner, base_withModifiers, modifiers_withModifiers, flatMap_append,
      mem_append, mem_flatMap] at hmem
    rcases hmem with hmem | hmem | ⟨mod, hmod, harg⟩
    · exact hi inner (mem_append_left _ hmem)
    · exact hi inner (mem_append_right _ (mem_flatMap.2 hmem))
    · exact (hmods mod hmod).arguments inner harg

theorem IsGrammatical.modify {mod : Modifier} (h : s.IsGrammatical)
    (hmod : mod.IsOrdinary) : (s.modify mod).IsGrammatical :=
  @IsGrammatical.with_modifiers [mod] s h (forall_mem_singleton.2 hmod)

/-- A function with its parameters and its result. -/
theorem grammatical_function {params results : List Schema}
    (hparams : ∀ param ∈ params, param.IsGrammatical)
    (hresults : ∀ result ∈ results, result.IsGrammatical) :
    ((call "function" []).withModifiers
      [⟨"args", params, false⟩, ⟨"returns", results, false⟩]).IsGrammatical := by
  refine grammatical_iff.2 ⟨⟨rfl, fun _ _ => ⟨params, results, [], rfl⟩, ?_⟩, fun inner hi => ?_⟩
  · intro place mod hplace hn
    rcases mem_pair.1 (mem_of_getElem? hplace) with rfl | rfl
    · exact absurd hn (by simp)
    · exact absurd hn (by simp)
  · obtain ⟨mod, hmod, harg⟩ := mem_flatMap.1 hi
    rcases mem_pair.1 hmod with rfl | rfl
    · exact hparams inner harg
    · exact hresults inner harg

/-- A tuple with further elements. -/
theorem grammatical_rest {slots rest : List Schema} (hslots : ∀ slot ∈ slots, slot.IsGrammatical)
    (hr : ∀ elt ∈ rest, elt.IsGrammatical) :
    ((call "tuple" [array slots]).modify ⟨"rest", rest, false⟩).IsGrammatical := by
  refine grammatical_iff.2 ⟨⟨⟨slots, rfl⟩, fun _ h => by simp [modify, base] at h, ?_⟩,
    fun inner hi => ?_⟩
  · intro place mod hplace hn hraw
    obtain ⟨hlt, -⟩ := List.getElem?_eq_some_iff.1 hplace
    exact ⟨Nat.lt_one_iff.1 hlt, _, rfl⟩
  · rcases mem_append.1 hi with hi | hi
    · cases mem_singleton.1 hi
      exact grammatical_array hslots
    · obtain ⟨mod, hmod, harg⟩ := mem_flatMap.1 hi
      cases mem_singleton.1 hmod
      exact hr inner harg

end Forms

section Texts

variable {z : String} {failure : Failure} {s : Schema}

/-- An expression that cannot be written as it has no form, or is a path that starts nowhere. -/
def LacksForm : Schema → Prop
  | .blank => True
  | .field none _ => True
  | _ => False

theorem error_of_texts {ss : List Schema} (h : texts z ss = .error failure) :
    ∃ s ∈ ss, s.text z = .error failure := by
  induction ss with
  | nil => cases h
  | cons s rest ih =>
    rcases bind_eq_error_iff.1 h with ha | ⟨_, -, h⟩
    · exact ⟨s, mem_cons_self, ha⟩
    · rcases bind_eq_error_iff.1 h with hr | ⟨_, -, h⟩
      · exact (ih hr).imp fun _ => And.imp_left (mem_cons_of_mem _)
      · cases h

theorem error_of_entry_texts (h : entryTexts z entries = .error failure) :
    ∃ e ∈ entries, e.2.text z = .error failure := by
  induction entries with
  | nil => cases h
  | cons e rest ih =>
    rcases bind_eq_error_iff.1 h with ha | ⟨_, -, h⟩
    · exact ⟨e, mem_cons_self, ha⟩
    · rcases bind_eq_error_iff.1 h with hr | ⟨_, -, h⟩
      · exact (ih hr).imp fun _ => And.imp_left (mem_cons_of_mem _)
      · cases h

/-- Writing an expression fails for want of a form only where an expression inside of it does, or it
lacks a form itself. -/
theorem child_of_render_error {error : RenderError} (h : s.text z = .error (.render error)) :
    s.LacksForm ∨ ∃ child ∈ s.children, child.text z = .error (.render error) := by
  have hn {name : Name} (h : Failure.lift name.text = .error (.render error)) : False := by
    cases htext : name.text <;> rw [htext] at h <;> cases h
  have hwritten {written : Except Failure (List String)} {make : List String → String}
      (h : (do return make (← written)) = .error (.render error)) :
      written = .error (.render error) := by
    cases written <;> cases h
    rfl
  cases s with
  | blank => exact .inl trivial
  | reference | symbol => exact (hn h).elim
  | value | regex | verbatim => cases h
  | call | helper | array => exact .inr (error_of_texts (hwritten h))
  | object entries =>
    cases entries with
    | nil => cases h
    | cons =>
      obtain ⟨e, he, herror⟩ := error_of_entry_texts (hwritten h)
      exact .inr ⟨e.2, mem_map_of_mem he, herror⟩
  | field target =>
    cases target with
    | none => exact .inl trivial
    | some target =>
      cases htarget : target.text z with
      | error =>
        rw [text, htarget] at h
        cases h
        exact .inr ⟨target, mem_singleton.2 rfl, htarget⟩
      | ok =>
        rw [text, htarget] at h
        cases h
  | modified receiver name args raw =>
    cases hreceiver : receiver.text z with
    | error =>
      refine .inr ⟨receiver, mem_cons_self, ?_⟩
      cases raw <;> rw [text, hreceiver] at h <;> cases h <;> exact hreceiver
    | ok =>
      cases raw with
      | true =>
        rw [text, hreceiver] at h
        cases h
      | false =>
        rw [text, hreceiver] at h
        obtain ⟨arg, harg, herror⟩ := error_of_texts (hwritten h)
        exact .inr ⟨arg, mem_cons_of_mem _ harg, herror⟩

theorem size_of_mem_children {child : Schema} (h : child ∈ s.children) :
    sizeOf child < sizeOf s := by
  cases s with
  | call name args =>
    have hlt : sizeOf child < sizeOf args := sizeOf_lt_of_mem h
    rw [call.sizeOf_spec]
    omega
  | helper name args =>
    have hlt : sizeOf child < sizeOf args := sizeOf_lt_of_mem h
    rw [helper.sizeOf_spec]
    omega
  | array xs =>
    have hlt : sizeOf child < sizeOf xs := sizeOf_lt_of_mem h
    rw [array.sizeOf_spec]
    omega
  | object =>
    obtain ⟨e, he, rfl⟩ := mem_map.1 h
    have hlt := sizeOf_lt_of_mem he
    obtain ⟨key, s⟩ := e
    simp only [Prod.mk.sizeOf_spec] at hlt
    simp only [object.sizeOf_spec]
    omega
  | field target =>
    cases target with
    | none => cases h
    | some =>
      cases mem_singleton.1 h
      simp only [field.sizeOf_spec, Option.some.sizeOf_spec]
      omega
  | modified receiver name args =>
    simp only [modified.sizeOf_spec]
    rcases mem_cons.1 h with rfl | h
    · omega
    · have hlt : sizeOf child < sizeOf args := sizeOf_lt_of_mem h
      omega
  | _ => cases h

/-- Where writing fails for want of a form, an expression that lacks one occurs. -/
theorem occurs_of_render_error {s : Schema} {error : RenderError}
    (h : s.text z = .error (.render error)) :
    ∃ lacking : Schema, lacking.Occurs s ∧ lacking.LacksForm := by
  rcases child_of_render_error h with hlacks | ⟨child, hchild, herror⟩
  · exact ⟨s, .here, hlacks⟩
  · have hlt := size_of_mem_children hchild
    obtain ⟨lacking, hoccurs, hlacks⟩ := occurs_of_render_error herror
    exact ⟨lacking, .inside hoccurs hchild, hlacks⟩
termination_by sizeOf s

/-- What occurs in a schema is what the modifiers of a node stand on, with some of them. -/
theorem node_of_occurs {part : Schema} (h : part.Occurs s) :
    ∃ node : Schema, node.IsNode s ∧ node.base = part.base := by
  induction h with
  | here => exact ⟨part, .here, rfl⟩
  | @inside child s hoccurs hchild ih =>
    obtain ⟨node, hnode, hbase⟩ := ih
    by_cases hmodified : ∃ receiver name args raw, s = .modified receiver name args raw
    · obtain ⟨receiver, name, args, raw, rfl⟩ := hmodified
      rcases mem_cons.1 hchild with rfl | harg
      · -- All but the node itself stand inside of the schema as they stand inside of the receiver.
        cases hnode with
        | here => exact ⟨_, .here, hbase⟩
        | inside hnode hi =>
          refine ⟨node, .inside hnode ?_, hbase⟩
          simp only [inner, base, modifiers, flatMap_append, mem_append] at hi ⊢
          exact hi.imp_right .inl
      · refine ⟨node, .inside hnode ?_, hbase⟩
        simp only [inner, modifiers, flatMap_append, mem_append]
        exact .inr (.inr (by simpa using harg))
    · refine ⟨node, .inside hnode (mem_append_left _ ?_), hbase⟩
      cases s with
      | modified => exact (hmodified ⟨_, _, _, _, rfl⟩).elim
      | _ => exact hchild

/-- A grammatical schema never lacks a form to be written in. -/
theorem IsGrammatical.text_ne_render_error (h : s.IsGrammatical) (z : String)
    (error : RenderError) : s.text z ≠ .error (.render error) := by
  intro herror
  obtain ⟨lacking, hoccurs, hlacks⟩ := occurs_of_render_error herror
  obtain ⟨node, hnode, hbase⟩ := node_of_occurs hoccurs
  have hform := (h node hnode).form
  rw [hbase] at hform
  cases lacking with
  | blank => exact hform
  | field =>
    obtain ⟨s, name, rfl, -⟩ := hform
    exact hlacks
  | _ => exact hlacks

end Texts

end Schema

/-- Modifiers that keep a schema grammatical. -/
def Ordinary (modifiers : List Modifier) : Prop :=
  ∀ modifier ∈ modifiers, modifier.IsOrdinary

namespace Refinement

theorem ordinary_nil : Ordinary [] := fun _ h => by cases h

theorem ordinary_append {a b : List Modifier} (ha : Ordinary a)
    (hsecond : Ordinary b) : Ordinary (a ++ b) := by
  intro mod hmod
  rcases mem_append.1 hmod with hmod | hmod
  · exact ha mod hmod
  · exact hsecond mod hmod

theorem ordinary_of_name (hn : name ≠ "rest") (h : ∀ arg ∈ args, arg.IsGrammatical) :
    Modifier.IsOrdinary ⟨name, args, false⟩ := ⟨fun heq => (hn heq).elim, h⟩

theorem ordinary_single (hn : name ≠ "rest") (h : ∀ arg ∈ args, arg.IsGrammatical) :
    Ordinary [⟨name, args, false⟩] := forall_mem_singleton.2 (ordinary_of_name hn h)

theorem ordinary_flagged {flag : Bool} (hn : name ≠ "rest") : Ordinary (flagged flag name) := by
  cases flag with
  | false => exact ordinary_nil
  | true => exact ordinary_single hn fun _ h => by cases h

/-- The modifiers that a context calls for are ordinary. -/
theorem ordinary_modifiers {formats : Json} {ctx : Context} {found : List Modifier}
    (h : (ctx.modifiers formats).result = .ok found) : Ordinary found := by
  intro mod hmod
  obtain ⟨hraw, hn, hdata⟩ := modifiers_plain h mod hmod
  refine ⟨fun heq => (hn heq).elim, fun arg harg => ?_⟩
  cases hdata arg harg with
  | value => exact Schema.grammatical_value _
  | regex => exact Schema.grammatical_regex _
  | options hvalues =>
    refine Schema.grammatical_object fun e he => ?_
    obtain ⟨v, hv⟩ := hvalues e he
    exact hv ▸ Schema.grammatical_value _

end Refinement

namespace Program

variable {p : Program} {ctx : Context} {env : Environment} {schema : Schema}
  {t : Option TypeExpr}

section Steps

variable {values : Values}

theorem ordinary_of_modifiers (h : (p.modifiers ctx).result = .ok mods) : Ordinary mods := by
  obtain ⟨formats, -, h⟩ := bind_ok_iff.1 h
  exact Refinement.ordinary_modifiers h

/-- A grammatical schema stays so when it is finished. -/
theorem grammatical_of_finish {finished : Schema} (hs : schema.IsGrammatical)
    (h : (p.finish ctx schema).result = .ok finished) : finished.IsGrammatical := by
  obtain ⟨mods, hmods, h⟩ := bind_ok_iff.1 h
  cases h
  exact hs.with_modifiers (ordinary_of_modifiers hmods)

theorem grammatical_any : (Schema.call "any" []).IsGrammatical :=
  Schema.grammatical_plain_call (by decide) trivial

theorem grammatical_of_unsupported (h : (p.unsupported t ctx).result = .ok schema) :
    schema.IsGrammatical := by
  obtain ⟨text, -, h⟩ := bind_ok_iff.1 h
  obtain ⟨done, -, h⟩ := bind_ok_iff.1 h
  exact grammatical_of_finish grammatical_any h

/-- A projection of a grammatical schema is grammatical. -/
theorem grammatical_of_project {proj : Projection} {keys : Option TypeExpr}
    {read : Option Environment} (htarget : target.IsGrammatical)
    (h : project target proj.typeName keys read = .ok schema) : schema.IsGrammatical := by
  obtain ⟨names, -, h⟩ := bind_eq_ok_iff.1 h
  cases h
  refine htarget.modify (Refinement.ordinary_of_name ?_ (forall_mem_singleton.2 ?_))
  · cases proj <;> decide
  · refine Schema.grammatical_object fun e he => ?_
    obtain ⟨name, -, rfl⟩ := mem_map.1 he
    exact Schema.grammatical_value _

/-- What an interface inherits is grammatical. -/
theorem heritable_grammatical :
    Heritable fun schema => schema.IsGrammatical ∧ ∃ name, schema.base = .reference name where
  named name := ⟨Schema.grammatical_reference name, name, rfl⟩
  projected := fun ⟨htarget, name, hn⟩ h =>
    ⟨grammatical_of_project htarget h, name, (finishes_of_project h).base.trans hn⟩
  extended := fun ⟨hchain, hbase⟩ ⟨hs, name, hn⟩ =>
    ⟨hchain.modify (Refinement.ordinary_of_name (by decide)
      (forall_mem_singleton.2 (Schema.grammatical_field hn hs))), hbase⟩

/-- The schema of an interface that extends others is grammatical when its own properties are. -/
theorem grammatical_of_extension {heritage : List Heritage} (hes : ∀ e ∈ entries, e.2.IsGrammatical)
    (h : (p.extensionChain heritage (some (.object entries))).result = .ok (some schema)) :
    schema.IsGrammatical := by
  obtain ⟨chain, ⟨hchain, -⟩, hs⟩ := heritable_grammatical.of_extension h
  rcases hs with ⟨-, rfl⟩ | rfl
  · exact hchain
  · refine hchain.modify (Refinement.ordinary_of_name (by decide) ?_)
    exact forall_mem_singleton.2 (Schema.grammatical_object hes)

/-- A product of texts is empty only if there are no texts of one of its factors. -/
theorem products_ne_nil {harvested : List (Values × Json)} {texts : List String}
    (hsome : ∀ found ∈ harvested, found.1.texts ≠ []) (h : products harvested = .ok texts) :
    texts ≠ [] := by
  induction harvested generalizing texts with
  | nil =>
    cases h
    simp
  | cons a rest ih =>
    obtain ⟨tails, htails, h⟩ := bind_eq_ok_iff.1 h
    obtain ⟨after, -, h⟩ := bind_eq_ok_iff.1 h
    cases h
    have hr := ih (forall_mem_cons.1 hsome).2 htails
    have ha := hsome a mem_cons_self
    obtain ⟨text, htext⟩ := exists_mem_of_ne_nil _ ha
    obtain ⟨tail, htail⟩ := exists_mem_of_ne_nil _ hr
    refine ne_nil_of_mem (mem_flatMap.2 ⟨text, htext, mem_map.2 ⟨tail, htail, rfl⟩⟩)

/-- A template that is expanded has at least one text. -/
theorem texts_of_expand {head : Json} {spans : List (TemplateSpan TypeExpr)}
    (h : (p.expand env head spans).result = .ok (some values)) : values.texts ≠ [] := by
  obtain ⟨harvested, -, h⟩ := bind_ok_iff.1 h
  cases harvested with
  | none => cases h
  | some harvested =>
    dsimp only at h
    split at h
    · obtain ⟨text, -, h⟩ := bind_ok_iff.1 h
      obtain ⟨done, -, h⟩ := bind_ok_iff.1 h
      cases h
    · rename_i hsome
      obtain ⟨headText, -, h⟩ := bind_ok_iff.1 h
      obtain ⟨texts, htexts, h⟩ := bind_ok_iff.1 h
      cases h
      have hne : texts ≠ [] := by
        refine products_ne_nil (fun found hf hnil => hsome ?_) (lift_ok_iff.1 htexts)
        exact any_eq_true.2 ⟨found, hf, by simp [hnil]⟩
      simpa using hne

/-- The schema of at least one text is a literal or a union of at least two. -/
theorem grammatical_of_values (hsome : values.texts ≠ []) (hmods : Ordinary mods) :
    (values.schema mods).IsGrammatical := by
  have hnullable : Ordinary (mods ++
      if values.hasNull then [(⟨"nullable", [], false⟩ : Modifier)] else []) :=
    Refinement.ordinary_append hmods (@Refinement.ordinary_flagged _ values.hasNull (by decide))
  have hliteral (text : String) : (Schema.call "literal" [.value (.str text)]).IsGrammatical :=
    Schema.grammatical_call (by decide) (.inl ⟨_, rfl, by simp⟩)
      (forall_mem_singleton.2 (Schema.grammatical_value _))
  unfold Values.schema
  rcases htexts : values.texts with _ | ⟨a, _ | ⟨b, rest⟩⟩
  · exact (hsome htexts).elim
  · exact (hliteral a).with_modifiers hnullable
  · refine Schema.IsGrammatical.with_modifiers ?_ hnullable
    refine Schema.grammatical_call_array (by decide) ⟨_, rfl, by simp⟩ fun x hx => ?_
    obtain ⟨text, -, rfl⟩ := mem_map.1 hx
    exact hliteral text

end Steps

section Forms

variable {names : List String} {jobs : List Job} {core : Schema}

/-- The schema of an object is grammatical when those of its properties and its index signature
are. -/
theorem grammatical_object_schema {v : Option Schema} (hes : ∀ e ∈ entries, e.2.IsGrammatical)
    (hv : ∀ schema ∈ v, schema.IsGrammatical) : (objectSchema entries v).IsGrammatical := by
  have hobj : (Schema.call "object" [.object entries]).IsGrammatical :=
    Schema.grammatical_call (by decide) ⟨entries, rfl⟩
      (forall_mem_singleton.2 (Schema.grammatical_object hes))
  cases v with
  | none => exact hobj
  | some v =>
    have hrecord : (Schema.call "record" [v]).IsGrammatical :=
      Schema.grammatical_call (by decide) (.inl ⟨v, rfl⟩) (forall_mem_singleton.2 (hv v rfl))
    unfold objectSchema
    dsimp only
    split
    · exact hrecord
    · exact hrecord.modify (Refinement.ordinary_of_name (by decide) (forall_mem_singleton.2 hobj))

variable (hps : ∀ part ∈ parts, part.IsGrammatical)

include hps

theorem grammatical_of_zip : ∀ e ∈ names.zip parts, e.2.IsGrammatical :=
  fun e he => hps e.2 (of_mem_zip he).2

theorem grammatical_object_parts {place : Nat} :
    (objectSchema (names.zip parts) parts[place]?).IsGrammatical :=
  grammatical_object_schema (grammatical_of_zip hps) fun schema hs =>
    hps schema (mem_of_getElem? hs)

/-- A call that is made of grammatical schemas is grammatical. -/
theorem grammatical_of_call_of {callee : String} (h : Schema.IsCallOf parts callee args) :
    (Schema.call callee args).IsGrammatical := by
  have hn : callee ≠ "function" := fun heq => h.callee (by simp [heq])
  cases h with
  | plain h =>
    refine Schema.grammatical_plain_call hn ?_
    unfold Schema.TakesArguments
    split <;> simp_all
  | literal h =>
    exact Schema.grammatical_call hn (.inl ⟨_, rfl, h⟩)
      (forall_mem_singleton.2 (Schema.grammatical_value _))
  | member =>
    exact Schema.grammatical_call hn (.inr ⟨_, rfl⟩)
      (forall_mem_singleton.2 (Schema.grammatical_symbol _))
  | object =>
    exact Schema.grammatical_call hn (.inl ⟨_, rfl⟩) (forall_mem_singleton.2 grammatical_any)
  | array => exact Schema.grammatical_call hn ⟨_, rfl⟩ hps
  | record => exact Schema.grammatical_call hn (.inl ⟨_, rfl⟩) hps
  | keyed value key =>
    refine Schema.grammatical_call hn (.inr ⟨key, value, rfl⟩) fun arg harg => hps arg ?_
    exact (Perm.swap value key []).mem_iff.1 harg
  | set | promise => exact Schema.grammatical_call hn trivial hps
  | tuple => exact Schema.grammatical_call_array hn ⟨parts, rfl⟩ hps
  | union h => exact Schema.grammatical_call_array hn ⟨parts, rfl, h⟩ hps

theorem closed_core_grammatical (h : ClosedCore env jobs parts core) :
    core.IsGrammatical := by
  cases h with
  | call h => exact grammatical_of_call_of hps h
  | rest part slots =>
    exact Schema.grammatical_rest (forall_mem_cons.1 hps).2
      (forall_mem_singleton.2 (hps part mem_cons_self))
  | function =>
    refine Schema.grammatical_function (fun param hparam => ?_) fun result hres => ?_
    · exact hps param (mem_of_mem_dropLast hparam)
    · exact hps result (mem_of_getLast? (Option.mem_toList.1 hres))
  | discriminated htwo hlen =>
    refine Schema.grammatical_call (by decide) ⟨_, parts, rfl, hlen ▸ htwo⟩ ?_
    exact forall_mem_cons.2 ⟨Schema.grammatical_value _,
      forall_mem_singleton.2 (Schema.grammatical_array hps)⟩

theorem body_grammatical {off : Option Context} {d : Interface}
    (h : p.Body env off d parts core) :
    (core.withModifiers (Refinement.flagged (p.tags d.tags).strict "strict")).IsGrammatical := by
  refine Schema.IsGrammatical.with_modifiers ?_ (Refinement.ordinary_flagged (by decide))
  cases h with
  | object => exact grammatical_object_parts hps
  | extended _ _ _ h => exact grammatical_of_extension (grammatical_of_zip hps) h

theorem open_core_grammatical {t : TypeExpr} (h : p.OpenCore env t jobs parts core) :
    core.IsGrammatical := by
  cases h with
  | object => exact grammatical_object_parts hps
  | interface _ h => exact body_grammatical hps h
  | intersection =>
    refine (hps _ mem_cons_self).with_modifiers (forall_mem_map.2 fun other hother => ?_)
    exact Refinement.ordinary_of_name (by decide)
      (forall_mem_singleton.2 (hps other (mem_cons_of_mem _ hother)))
  | projected _ h => exact grammatical_of_project (hps _ mem_cons_self) h
  | named => exact Schema.grammatical_reference _
  | path => exact Schema.grammatical_field rfl (Schema.grammatical_reference _)

/-- What is put together of grammatical schemas is grammatical. -/
theorem forms_grammatical {t : TypeExpr} (h : p.Forms env ctx t jobs parts schema) :
    schema.IsGrammatical := by
  cases h with
  | through => exact hps _ mem_cons_self
  | maybe =>
    exact (Schema.grammatical_helper hps).with_modifiers (Refinement.ordinary_flagged (by decide))
  | texts h hmods => exact grammatical_of_values (texts_of_expand h) (ordinary_of_modifiers hmods)
  | closed _ hcore h => exact grammatical_of_finish (closed_core_grammatical hps hcore) h
  | opened hcore h => exact grammatical_of_finish (open_core_grammatical hps hcore) h

end Forms

section Compilations

/-- The schema of a job is grammatical. -/
theorem compile_grammatical {job : Job} (h : (p.compile job).result = .ok schema) :
    schema.IsGrammatical := by
  refine compile_induction (motive := fun _ schema => schema.IsGrammatical) ?_ h
  intro job plan parts schema hplan hps ih h
  have hparts (part : Schema) (hpart : part ∈ parts) : part.IsGrammatical := by
    obtain ⟨next, -, hgram⟩ := exists_of_forall₂ ih part hpart
    exact hgram
  cases plan_forms hplan hps.length_eq.symm h with
  | plain _ hforms => exact forms_grammatical hparts hforms
  | added _ _ hforms =>
    exact (forms_grammatical hparts hforms).modify ⟨fun _ => rfl, fun _ h => by cases h⟩
  | replaced => exact Schema.grammatical_verbatim _

/-- The schema of a declaration is grammatical. -/
theorem declaration_grammatical {decl : Declaration}
    (h : (p.declarationSchema decl).result = .ok schema) : schema.IsGrammatical := by
  rw [declaration_schema_eq] at h
  obtain ⟨plan, parts, hplan, hps, h⟩ := run_inversion h
  have hparts (part : Schema) (hpart : part ∈ parts) : part.IsGrammatical := by
    obtain ⟨job, -, hcomp⟩ := exists_of_forall₂ hps part hpart
    exact compile_grammatical hcomp
  cases declaration_plan_forms hplan hps.length_eq.symm h with
  | enumeration =>
    exact Schema.grammatical_call (by decide) trivial
      (forall_mem_singleton.2 (Schema.grammatical_symbol _))
  | typeAlias => exact hparts _ mem_cons_self
  | interface hbody hs => exact grammatical_of_finish (body_grammatical hparts hbody) hs

theorem schema_of_grammatical {tags : Tags}
    (h : (p.schemaOf t env tags).result = .ok schema) : schema.IsGrammatical := by
  cases t with
  | some =>
    rw [schema_of_some] at h
    exact compile_grammatical h
  | none =>
    unfold schemaOf inContext at h
    dsimp only at h
    split at h
    · exact grammatical_of_unsupported h
    · split at h
      · obtain ⟨found, hf, h⟩ := bind_ok_iff.1 h
        cases h
        exact (grammatical_of_unsupported hf).modify ⟨fun _ => rfl, fun _ h => by cases h⟩
      · cases h
        exact Schema.grammatical_verbatim _

end Compilations

/-- Every schema that a type or a declaration is compiled to is grammatical, in all of its nodes,
and so it never lacks a form to be written in. -/
theorem emitted_schemas_grammatical (program : Program) :
    (∀ type environment tags schema,
      (program.schemaOf type environment tags).result = .ok schema →
        schema.IsGrammatical ∧ ∀ z error, schema.text z ≠ .error (.render error)) ∧
    ∀ declaration compiled, (program.compileDeclaration declaration).result = .ok compiled →
      compiled.schema.IsGrammatical ∧
        ∀ z error, compiled.schema.text z ≠ .error (.render error) := by
  refine ⟨fun type environment tags schema h => ?_, fun declaration compiled h => ?_⟩
  · have hschema := schema_of_grammatical h
    exact ⟨hschema, hschema.text_ne_render_error⟩
  · obtain ⟨schema, hschema, h⟩ := bind_eq_ok_iff.1 h
    obtain ⟨schemaName, -, h⟩ := bind_eq_ok_iff.1 h
    obtain ⟨dependencies, -, h⟩ := bind_eq_ok_iff.1 h
    cases h
    have hgrammatical := declaration_grammatical hschema
    exact ⟨hgrammatical, hgrammatical.text_ne_render_error⟩

/-- The program without declarations under the usual settings. -/
def bare : Program where
  unit := ⟨.null, [], []⟩
  settings := .default

/-- The schema of a tuple of a template and any number of further elements is grammatical. The two
texts of the template are a union, and the further elements come before what a tag asks for. -/
theorem letters_grammatical :
    let letters : TypeExpr := .template (.str "")
      [⟨.union [.literal (.str "a"), .literal (.str "b"), .literal .null], .str "!"⟩]
    let tuple : TypeExpr := .tuple [letters, .spread (.array (.keyword .string))]
    ∃ schema, (bare.schemaOf (some tuple) .empty [("description", "letters")]).result = .ok schema ∧
      schema.modifiers.map Modifier.name = ["rest", "describe"] ∧ schema.IsGrammatical := by
  intro letters tuple
  obtain ⟨schema, hschema, hmodifiers⟩ : ∃ schema,
      (bare.schemaOf (some tuple) .empty [("description", "letters")]).result = .ok schema ∧
        schema.modifiers.map Modifier.name = ["rest", "describe"] := ⟨_, rfl, rfl⟩
  exact ⟨schema, hschema, hmodifiers, ((emitted_schemas_grammatical bare).1 _ _ _ _ hschema).1⟩

/-- Source text that a tag adds to a schema can read like the modifier for further elements, and the
schema is no tuple then. -/
theorem rest_text_added_to_string :
    ∃ schema, (bare.schemaOf (some (.keyword .string)) .empty [("schema", ".rest")]).result =
        .ok schema ∧
      schema.base = .call "string" [] ∧ schema.modifiers = [⟨"rest", [], true⟩] :=
  ⟨_, rfl, rfl, rfl⟩

end Program

end Schemata
