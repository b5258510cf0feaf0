import Schemata.Proofs.AccessOutcomes

/-!
# What a compilation tells and what its schema bears

`Schema.Bears` says that a schema refers to another one under a name or calls the helper, at any
depth. `Exact` says that what comes out of a step of a compilation bears what went into it and what
the trace of the step tells, and `exact_bind` that exact steps compose. The steps of the compiler
that need no other type are exact, one after the other.
-/

namespace Schemata

open List
open Traced (bind_ok_iff bind_trace_of_ok)

variable {name : String} {args : List Schema} {mods : List Modifier}

/-- The expressions that an expression is directly made of. -/
def Schema.children : Schema → List Schema
  | .call _ arguments => arguments
  | .object entries => entries.map (·.2)
  | .array items => items
  | .helper _ arguments => arguments
  | .field target _ => target.toList
  | .modified receiver _ arguments _ => receiver :: arguments
  | _ => []

/-- An expression that occurs in another one, at any depth. -/
inductive Schema.Occurs (node : Schema) : Schema → Prop where
  | here : Occurs node node
  | inside {child schema : Schema} (h : Occurs node child) (hchild : child ∈ schema.children) :
      Occurs node schema

/-- What a schema can bear that others have to know of. -/
inductive Mark where
  /-- Another schema is referred to. -/
  | reference (name : Name)
  /-- The helper is called. -/
  | helper

/-- What an event tells of a schema. -/
def Event.mark? : Event → Option Mark
  | .dependency name => some (.reference name)
  | .helper => some .helper
  | .warning _ => none
  | .notice _ => none

/-- What events tell of a schema. -/
def marks (events : List Event) : List Mark :=
  events.filterMap Event.mark?

@[simp]
theorem marks_append (a b : List Event) : marks (a ++ b) = marks a ++ marks b := filterMap_append

theorem marks_findings (events : List Event) : marks (findings events) = marks events :=
  filterMap_findings (fun _ => rfl) events

/-- The names that are used follow from what a trace tells of a schema. -/
theorem used_names_of_marks {a b : List Event} (h : marks a = marks b) :
    usedNames a = usedNames b := by
  have hused (events : List Event) : usedNames events =
      (marks events).filterMap fun mark => mark.casesOn some none := by
    rw [usedNames, marks, filterMap_filterMap]
    refine congrArg (events.filterMap ·) (funext fun event => ?_)
    cases event <;> rfl
  rw [hused, hused, h]

/-- A reference or a call of the helper occurs in the schema. -/
def Schema.Bears (schema : Schema) : Mark → Prop
  | .reference name => Occurs (.reference name) schema
  | .helper => ∃ name arguments, Occurs (.helper name arguments) schema

/-- One of the schemas bears a mark. -/
def AnyBears (schemas : List Schema) (mark : Mark) : Prop :=
  ∃ schema ∈ schemas, schema.Bears mark

/-- What the arguments of modifiers bear. -/
def ModifiersBear (modifiers : List Modifier) (mark : Mark) : Prop :=
  AnyBears (modifiers.flatMap Modifier.arguments) mark

/-- What a schema bears by itself, outside of the expressions it is made of. -/
def Schema.BearsItself : Schema → Mark → Prop
  | .reference name, mark => mark = .reference name
  | .helper _ _, mark => mark = .helper
  | _, _ => False

section Bears

variable {s : Schema} {mark : Mark} {mod : Modifier}

/-- A schema bears what it bears by itself and what the expressions it is made of bear. -/
theorem Schema.bears_iff : s.Bears mark ↔ s.BearsItself mark ∨ AnyBears s.children mark := by
  cases mark with
  | reference =>
    constructor
    · intro h
      cases h with
      | here => exact .inl rfl
      | inside h hchild => exact .inr ⟨_, hchild, h⟩
    · rintro (hself | ⟨child, hchild, h⟩)
      · cases s <;> cases hself
        exact .here
      · exact .inside h hchild
  | helper =>
    constructor
    · rintro ⟨name, args, h⟩
      cases h with
      | here => exact .inl rfl
      | inside h hchild => exact .inr ⟨_, hchild, name, args, h⟩
    · rintro (hself | ⟨child, hchild, name, args, h⟩)
      · cases s <;> cases hself
        exact ⟨_, _, .here⟩
      · exact ⟨name, args, .inside h hchild⟩

@[simp]
theorem any_bears_nil : ¬AnyBears [] mark := by
  simp [AnyBears]

@[simp]
theorem any_bears_cons {rest : List Schema} :
    AnyBears (s :: rest) mark ↔ s.Bears mark ∨ AnyBears rest mark := by
  simp [AnyBears]

@[simp]
theorem any_bears_append {a b : List Schema} :
    AnyBears (a ++ b) mark ↔ AnyBears a mark ∨ AnyBears b mark := by
  simp [AnyBears, or_and_right, exists_or]

@[simp]
theorem any_bears_reverse {ss : List Schema} : AnyBears ss.reverse mark ↔ AnyBears ss mark := by
  simp [AnyBears]

@[simp]
theorem modifiers_bear_nil : ¬ModifiersBear [] mark := any_bears_nil

@[simp]
theorem modifiers_bear_cons {rest : List Modifier} :
    ModifiersBear (mod :: rest) mark ↔ AnyBears mod.arguments mark ∨ ModifiersBear rest mark := by
  simp [ModifiersBear]

@[simp]
theorem modifiers_bear_append {a b : List Modifier} :
    ModifiersBear (a ++ b) mark ↔ ModifiersBear a mark ∨ ModifiersBear b mark := by
  simp [ModifiersBear]

namespace Schema

/-- A schema that bears nothing by itself bears what the expressions it is made of bear. -/
theorem bears_iff_children (hself : ¬s.BearsItself mark) :
    s.Bears mark ↔ AnyBears s.children mark := by
  rw [bears_iff]
  exact or_iff_right hself

/-- A schema that bears nothing by itself and has no parts bears nothing. -/
theorem not_bears_of_leaf (hself : ¬s.BearsItself mark) (hleaf : s.children = []) :
    ¬s.Bears mark := by
  rw [bears_iff_children hself, hleaf]
  exact any_bears_nil

@[simp]
theorem bears_call : (call name args).Bears mark ↔ AnyBears args mark := bears_iff_children id

@[simp]
theorem bears_reference {name : Name} : (reference name).Bears mark ↔ mark = .reference name := by
  rw [bears_iff]
  exact or_iff_left any_bears_nil

@[simp]
theorem bears_object {es : List (String × Schema)} :
    (object es).Bears mark ↔ AnyBears (es.map (·.2)) mark := bears_iff_children id

@[simp]
theorem bears_array {xs : List Schema} : (array xs).Bears mark ↔ AnyBears xs mark :=
  bears_iff_children id

@[simp]
theorem bears_helper :
    (helper name args).Bears mark ↔ mark = .helper ∨ AnyBears args mark := bears_iff

@[simp]
theorem bears_field {target : Option Schema} {path : String} :
    (field target path).Bears mark ↔ AnyBears target.toList mark := bears_iff_children id

@[simp]
theorem bears_modify : (s.modify mod).Bears mark ↔ s.Bears mark ∨ AnyBears mod.arguments mark :=
  (bears_iff_children id).trans any_bears_cons

@[simp]
theorem not_bears_value {v : Json} : ¬(Schema.value v).Bears mark := not_bears_of_leaf id rfl

@[simp]
theorem not_bears_regex {pattern : Json} : ¬(regex pattern).Bears mark := not_bears_of_leaf id rfl

@[simp]
theorem not_bears_symbol {name : Name} : ¬(symbol name).Bears mark := not_bears_of_leaf id rfl

@[simp]
theorem not_bears_verbatim {text : String} : ¬(verbatim text).Bears mark := not_bears_of_leaf id rfl

/-- Modifiers add what their arguments bear. -/
@[simp]
theorem bears_with_modifiers :
    (s.withModifiers mods).Bears mark ↔ s.Bears mark ∨ ModifiersBear mods mark := by
  induction mods generalizing s with
  | nil => simp
  | cons a rest ih => simp [ih, or_assoc]

@[simp]
theorem bears_combinator :
    (combinator name args mods).Bears mark ↔ AnyBears args mark ∨ ModifiersBear mods mark := by
  simp [combinator]

end Schema

end Bears

/-- What comes out of a computation bears what went into it and what the trace tells, and nothing
else. -/
def Exact {α : Type} (bears : α → Mark → Prop) (given : Mark → Prop) (computation : Compilation α) :
    Prop :=
  ∀ value, computation.result = .ok value →
    ∀ mark, bears value mark ↔ given mark ∨ mark ∈ marks computation.trace

/-- Nothing in the trace of a computation tells of a schema. -/
def Quiet {α : Type} (computation : Compilation α) : Prop :=
  marks computation.trace = []

/-- What a schema bears, if there is one. -/
def OptionBears (schema : Option Schema) (mark : Mark) : Prop :=
  AnyBears schema.toList mark

section Exact

variable {α β : Type} {bears : α → Mark → Prop} {given : Mark → Prop} {next : α → Compilation β}
  {bears' : β → Mark → Prop} {a : Compilation α}

theorem exact_pure {v : α} (h : ∀ mark, bears v mark ↔ given mark) :
    Exact bears given (pure v) := by
  intro other hother mark
  cases hother
  simp [h, marks]

theorem Exact.congr {other : Mark → Prop} {comp : Compilation α} (h : Exact bears given comp)
    (hgiven : ∀ mark, given mark ↔ other mark) : Exact bears other comp := by
  intro v hv mark
  rw [h v hv mark, hgiven]

/-- The second of two computations is given what comes out of the first one, and what the first one
does not touch. -/
theorem exact_bind {frame : Mark → Prop} (ha : Exact bears given a)
    (hnext : ∀ v, a.result = .ok v →
      Exact bears' (fun mark => frame mark ∨ bears v mark) (next v)) :
    Exact bears' (fun mark => frame mark ∨ given mark) (a >>= next) := by
  intro result hres mark
  obtain ⟨v, hv, hres⟩ := bind_ok_iff.1 hres
  rw [hnext v hv result hres mark, bind_trace_of_ok hv, marks_append, mem_append]
  simp only [ha v hv mark, or_assoc]

/-- The second of two computations is given all that the first one brings up. -/
theorem exact_new_bind (ha : Exact bears (fun _ => False) a)
    (hnext : ∀ v, a.result = .ok v →
      Exact bears' (fun mark => given mark ∨ bears v mark) (next v)) :
    Exact bears' given (a >>= next) := (exact_bind ha hnext).congr fun mark => by simp

/-- The second of two computations is given only what comes out of the first one. -/
theorem exact_then
    (ha : Exact bears given a) (hnext : ∀ v, a.result = .ok v → Exact bears' (bears v) (next v)) :
    Exact bears' given (a >>= next) := by
  have hbind : Exact bears' (fun mark => False ∨ given mark) (a >>= next) :=
    exact_bind ha fun v hv => (hnext v hv).congr fun mark => by simp
  exact hbind.congr fun mark => by simp

/-- A quiet computation can be passed over. -/
theorem exact_quiet_bind
    (ha : Quiet a) (hnext : ∀ v, a.result = .ok v → Exact bears' given (next v)) :
    Exact bears' given (a >>= next) := by
  intro result hres mark
  obtain ⟨v, hv, hres⟩ := bind_ok_iff.1 hres
  rw [hnext v hv result hres mark, bind_trace_of_ok hv, marks_append, ha]
  simp

theorem exact_fail {failure : Failure} : Exact bears given (Traced.fail failure) :=
  fun _ h => nomatch h

theorem quiet_pure (v : α) : Quiet (pure v) := rfl

theorem quiet_fail (failure : Failure) : Quiet (Traced.fail failure : Compilation α) := rfl

theorem quiet_lift (v : Except Fault α) : Quiet (liftM v : Compilation α) := by
  cases v <;> rfl

theorem quiet_result (result : Except Failure α) : Quiet (liftM result : Compilation α) := rfl

theorem quiet_warn (warning : Warning) : Quiet (Compilation.warn warning) := rfl

theorem quiet_note (notice : Notice) : Quiet (Compilation.note notice) := rfl

theorem quiet_bind (ha : Quiet a)
    (hnext : ∀ v, a.result = .ok v → Quiet (next v)) : Quiet (a >>= next) := by
  obtain ⟨trace, result⟩ := a
  cases result with
  | error => exact ha
  | ok v =>
    have hquiet := hnext v rfl
    unfold Quiet at *
    rw [Traced.bind_ok, marks_append, ha, hquiet]
    rfl

/-- Lookups are quiet. -/
def quietly : Stepwise where
  holds := Quiet
  holds_pure := quiet_pure
  holds_warn := quiet_warn
  holds_note := quiet_note
  holds_lift := quiet_lift
  holds_hides _ _ := quiet_result _
  holds_fault _ := quiet_fail _
  holds_reject _ := quiet_fail _
  holds_project _ _ _ _ := quiet_result _
  holds_bind := quiet_bind

end Exact

namespace Refinement

theorem not_bears_flagged {flag : Bool} {mark : Mark} :
    ¬ModifiersBear (flagged flag name) mark := by
  cases flag <;> simp [flagged]

/-- The modifiers that a context calls for bear nothing. -/
theorem not_bears_modifiers {formats : Json} {ctx : Context} {found : List Modifier}
    (h : (ctx.modifiers formats).result = .ok found) (mark : Mark) : ¬ModifiersBear found mark := by
  rintro ⟨arg, harg, hbears⟩
  obtain ⟨mod, hmod, harg⟩ := mem_flatMap.1 harg
  cases (modifiers_plain h mod hmod).arguments arg harg with
  | value => exact Schema.not_bears_value hbears
  | regex => exact Schema.not_bears_regex hbears
  | options hvalues =>
    obtain ⟨child, hchild, hbears⟩ := Schema.bears_object.1 hbears
    obtain ⟨e, he, rfl⟩ := mem_map.1 hchild
    obtain ⟨v, hv⟩ := hvalues e he
    exact Schema.not_bears_value (hv ▸ hbears)

end Refinement

namespace Program

variable {p : Program} {ctx : Context} {env : Environment}

section Leaves

theorem modifiers_exact : Exact ModifiersBear (fun _ => False) (p.modifiers ctx) := by
  intro mods hres mark
  have hquiet : Quiet (p.modifiers ctx) := quietly.modifiers
  obtain ⟨formats, -, hres⟩ := bind_ok_iff.1 hres
  rw [hquiet]
  simp [Refinement.not_bears_modifiers hres mark]

theorem finish_exact (s : Schema) : Exact Schema.Bears s.Bears (p.finish ctx s) :=
  exact_new_bind modifiers_exact fun mods _ => exact_pure fun mark => by simp

theorem finish_leaf_exact {s : Schema} (h : ∀ mark, ¬s.Bears mark) :
    Exact Schema.Bears (fun _ => False) (p.finish ctx s) :=
  (finish_exact s).congr fun mark => iff_false_intro (h mark)

theorem unsupported_exact (t : Option TypeExpr) :
    Exact Schema.Bears (fun _ => False) (p.unsupported t ctx) := by
  refine exact_quiet_bind (quiet_lift _) fun _ _ => ?_
  exact exact_quiet_bind (quiet_warn _) fun _ _ => finish_leaf_exact fun mark => by simp

theorem keyword_exact (keyword : Keyword) :
    Exact Schema.Bears (fun _ => False) (p.keywordSchema keyword ctx) := by
  unfold keywordSchema
  cases keyword <;> exact finish_leaf_exact fun mark => by simp

theorem reference_exact (name : Name) : Exact Schema.Bears (fun _ => False) (p.reference name) := by
  refine exact_quiet_bind (quiet_lift _) fun schemaName _ s hs mark => ?_
  cases hs
  simp [Traced.emit, marks, Event.mark?, bind, Traced.bind]

theorem union_exact (arms : List TypeExpr) (ss : List Schema) :
    Exact Schema.Bears (AnyBears ss) (p.unionSchema env arms ss ctx) := by
  refine exact_new_bind modifiers_exact fun mods _ => ?_
  have hunion : Exact Schema.Bears (fun mark => AnyBears ss mark ∨ ModifiersBear mods mark)
      (pure (Schema.combinator "union" [.array ss] mods)) :=
    exact_pure fun mark => by simp
  dsimp only
  split
  · refine exact_quiet_bind (quietly.discriminated _ _) fun told _ => ?_
    split
    · exact exact_pure fun mark => by simp
    · exact hunion
  · exact hunion

theorem project_exact (target : Schema) (proj : String) (keys : Option TypeExpr)
    (read : Option Environment) :
    Exact Schema.Bears target.Bears (liftM (project target proj keys read)) := by
  intro s hs mark
  change project target proj keys read = .ok s at hs
  obtain ⟨names, -, hs⟩ := bind_eq_ok_iff.1 hs
  cases hs
  -- The mask holds values only.
  have hmask : ¬(Schema.object (names.map fun name => (name, .value (.bool true)))).Bears mark := by
    rw [Schema.bears_object]
    rintro ⟨v, hv, hbears⟩
    simp only [map_map, mem_map, Function.comp_apply] at hv
    obtain ⟨name, -, rfl⟩ := hv
    exact Schema.not_bears_value hbears
  rw [quiet_result, Schema.bears_modify, any_bears_cons]
  simp only [hmask, any_bears_nil, not_mem_nil, or_false]

theorem inherited_exact (c : Heritage) : Exact Schema.Bears (fun _ => False) (p.inherited c) := by
  refine exact_new_bind (reference_exact c.name) fun s _ => ?_
  split
  · exact exact_pure fun mark => by simp
  · exact (project_exact s _ _ _).congr fun mark => by simp

theorem extend_exact (chain : Schema) (cs : List Heritage) :
    Exact Schema.Bears chain.Bears (p.extend chain cs) := by
  induction cs generalizing chain with
  | nil => exact exact_pure fun mark => Iff.rfl
  | cons c rest ih =>
    refine exact_new_bind (inherited_exact c) fun s _ => ?_
    exact (ih _).congr fun mark => by simp

theorem inherited_chain_exact (cs : List Heritage) :
    Exact OptionBears (fun _ => False) (p.inheritedChain cs) := by
  cases cs with
  | nil => exact exact_pure fun mark => by simp [OptionBears]
  | cons c rest =>
    refine exact_new_bind (inherited_exact c) fun s _ => ?_
    refine exact_bind (extend_exact s rest) fun chain _ => ?_
    exact exact_pure fun mark => by simp [OptionBears]

/-- An object without entries can be left out, because it bears nothing. -/
theorem extension_chain_exact (cs : List Heritage) (es : List (String × Schema)) :
    Exact OptionBears (AnyBears (es.map (·.2))) (p.extensionChain cs (some (.object es))) := by
  refine exact_new_bind (inherited_chain_exact cs) fun chain _ => ?_
  cases es with
  | nil => exact exact_pure fun mark => by simp
  | cons =>
    cases chain with
    | none => exact exact_fail
    | some => exact exact_pure fun mark => by simp [OptionBears, or_comm]

/-- A path refers to the schema that it starts from. -/
theorem access_chain_exact (chain : Chain) (later : List String) :
    Exact OptionBears (fun _ => False) (p.accessChain chain later) := by
  intro found hf mark
  rw [← marks_findings]
  cases found with
  | none =>
    obtain ⟨warning, h⟩ := (access_chain_comes chain later).of_none hf
    simp [h, OptionBears, marks, Event.mark?]
  | some =>
    obtain ⟨-, -, constant, -, -, rfl, h⟩ := (access_chain_comes chain later).of_some hf
    simp [h, OptionBears, marks, Event.mark?]

/-- The schema of texts bears what its modifiers do. -/
theorem bears_values {values : Values} {mark : Mark} :
    (values.schema mods).Bears mark ↔ ModifiersBear mods mark := by
  have hnull : ¬ModifiersBear (if values.hasNull then [⟨"nullable", [], false⟩] else []) mark := by
    split <;> simp
  unfold Values.schema
  dsimp only
  split
  · simp [hnull]
  · have htexts : ¬AnyBears (values.texts.map fun text =>
        Schema.call "literal" [.value (.str text)]) mark := by
      rintro ⟨s, hs, hbears⟩
      obtain ⟨text, -, rfl⟩ := mem_map.1 hs
      simp at hbears
    simp [hnull, htexts]

end Leaves

end Program

end Schemata
