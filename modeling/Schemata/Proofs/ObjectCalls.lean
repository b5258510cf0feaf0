import Schemata.Proofs.Grammar

/-!
# Calls that only objects have

Some modifiers can only be called on the schema of an object, and some wrap a schema so that these
can no longer be called. `Schema.ReceivesCalls` says that in all nodes of a schema such calls stand
on what makes an object or stands for one, with no wrapper before them. The modifiers that a context
calls for put them before all wrappers, `modifiers_called_by`. So what matters is whether the schema
that they are added to `IsOpen`: `CallsFirst.receives_iff`.
-/

namespace Schemata

open List

variable {name : String} {args : List Schema}

/-- A call that only the schemas of objects have. Source text that a tag adds is no such call. -/
def Modifier.IsObjectCall (modifier : Modifier) : Prop :=
  modifier.raw = false ∧
    modifier.name ∈ ["partial", "required", "strict", "omit", "pick", "extend"]

/-- A call after which a schema is no longer the one of an object. -/
def Modifier.IsWrapper (modifier : Modifier) : Prop :=
  modifier.raw = false ∧ modifier.name ∈ ["optional", "nullable", "default", "and"]

namespace Schema

/-- What is or stands for the schema of an object: the call that makes one, a schema that has a
name, and a path. -/
def StandsForObject : Schema → Prop
  | .call name _ => name = "object"
  | .reference _ => True
  | .field _ _ => True
  | _ => False

/-- A schema that calls for objects can be added to. -/
structure IsOpen (schema : Schema) : Prop where
  base : schema.base.StandsForObject
  bare : ∀ modifier ∈ schema.modifiers, ¬modifier.IsWrapper

/-- In the modifiers of a node, the calls for objects stand on one, with no wrapper before them. -/
def CallsReceived (node : Schema) : Prop :=
  ∀ before call after, node.modifiers = before ++ call :: after → call.IsObjectCall →
    node.base.StandsForObject ∧ ∀ modifier ∈ before, ¬modifier.IsWrapper

/-- In all nodes of the schema, the calls for objects stand on one. -/
def ReceivesCalls (schema : Schema) : Prop :=
  ∀ node : Schema, node.IsNode schema → node.CallsReceived

theorem receives_iff {s : Schema} :
    s.ReceivesCalls ↔ s.CallsReceived ∧ ∀ inner ∈ s.inner, inner.ReceivesCalls :=
  forall_nodes_iff

section Forms

/-- Without modifiers, it comes to what an expression is made of. -/
theorem receives_of_bare {s : Schema} (hbase : s.base = s) (hmods : s.modifiers = []) :
    s.ReceivesCalls ↔ ∀ child ∈ s.children, child.ReceivesCalls := by
  rw [receives_iff, inner, hbase, hmods, flatMap_nil, append_nil, CallsReceived, hmods]
  refine and_iff_right fun before call after h => ?_
  cases before <;> cases h

@[simp]
theorem receives_call :
    (call name args).ReceivesCalls ↔ ∀ arg ∈ args, arg.ReceivesCalls := receives_of_bare rfl rfl

@[simp]
theorem receives_object {es : List (String × Schema)} :
    (object es).ReceivesCalls ↔ ∀ e ∈ es, e.2.ReceivesCalls := by
  rw [receives_of_bare rfl rfl, children, forall_mem_map]

@[simp]
theorem receives_array {xs : List Schema} :
    (array xs).ReceivesCalls ↔ ∀ x ∈ xs, x.ReceivesCalls := receives_of_bare rfl rfl

@[simp]
theorem receives_helper :
    (helper name args).ReceivesCalls ↔ ∀ arg ∈ args, arg.ReceivesCalls := receives_of_bare rfl rfl

@[simp]
theorem receives_field {target : Option Schema} {path : String} :
    (field target path).ReceivesCalls ↔ ∀ s ∈ target, s.ReceivesCalls := by
  rw [receives_of_bare rfl rfl]
  cases target <;> simp [children]

@[simp]
theorem receives_reference (name : Name) : (reference name).ReceivesCalls :=
  (receives_of_bare rfl rfl).2 fun _ h => by cases h

@[simp]
theorem receives_value (content : Json) : (value content).ReceivesCalls :=
  (receives_of_bare rfl rfl).2 fun _ h => by cases h

@[simp]
theorem receives_regex (pattern : Json) : (regex pattern).ReceivesCalls :=
  (receives_of_bare rfl rfl).2 fun _ h => by cases h

@[simp]
theorem receives_symbol (name : Name) : (symbol name).ReceivesCalls :=
  (receives_of_bare rfl rfl).2 fun _ h => by cases h

@[simp]
theorem receives_verbatim (text : String) : (verbatim text).ReceivesCalls :=
  (receives_of_bare rfl rfl).2 fun _ h => by cases h

end Forms

section Modifiers

variable {s : Schema} {added : List Modifier}

/-- Calls that are added to a schema are received when the schema is open and no wrapper is added
before them. -/
theorem calls_received_added :
    (s.withModifiers added).CallsReceived ↔
      s.CallsReceived ∧ ∀ before call after, added = before ++ call :: after →
        call.IsObjectCall → s.IsOpen ∧ ∀ mod ∈ before, ¬mod.IsWrapper := by
  rw [CallsReceived, CallsReceived, modifiers_withModifiers, base_withModifiers]
  constructor
  · intro h
    constructor
    · intro before call after hsplit hcall
      exact h before call (after ++ added) (by rw [hsplit, append_assoc]; rfl) hcall
    · intro before call after hsplit hcall
      obtain ⟨hbase, hbefore⟩ := h (s.modifiers ++ before) call after
        (by rw [hsplit, append_assoc]) hcall
      obtain ⟨hown, hadded⟩ := forall_mem_append.1 hbefore
      exact ⟨⟨hbase, hown⟩, hadded⟩
  · rintro ⟨hown, hadded⟩ before call after hsplit hcall
    -- The call is one of the added ones, or it was there before.
    rcases append_eq_append_iff.1 hsplit with ⟨middle, rfl, hmiddle⟩ | ⟨middle, hsame, hmiddle⟩
    · obtain ⟨hopen, hbefore⟩ := hadded middle call after hmiddle hcall
      exact ⟨hopen.base, forall_mem_append.2 ⟨hopen.bare, hbefore⟩⟩
    · cases middle with
      | nil =>
        rw [append_nil] at hsame
        obtain ⟨hopen, -⟩ := hadded [] call after hmiddle.symm hcall
        exact ⟨hopen.base, hsame ▸ hopen.bare⟩
      | cons a rest =>
        cases hmiddle
        exact hown before call rest hsame hcall

theorem open_with_modifiers :
    (s.withModifiers added).IsOpen ↔ s.IsOpen ∧ ∀ mod ∈ added, ¬mod.IsWrapper := by
  constructor
  · rintro ⟨hbase, hbare⟩
    rw [base_withModifiers] at hbase
    rw [modifiers_withModifiers, forall_mem_append] at hbare
    exact ⟨⟨hbase, hbare.1⟩, hbare.2⟩
  · rintro ⟨⟨hbase, hbare⟩, hadded⟩
    refine ⟨by rwa [base_withModifiers], ?_⟩
    rw [modifiers_withModifiers, forall_mem_append]
    exact ⟨hbare, hadded⟩

/-- Without modifiers, a schema is open when it stands for an object. -/
theorem open_of_bare (hbase : s.base = s) (hmods : s.modifiers = []) :
    s.IsOpen ↔ s.StandsForObject := by
  constructor
  · exact fun h => hbase ▸ h.base
  · intro h
    refine ⟨by rwa [hbase], fun mod hmod => ?_⟩
    rw [hmods] at hmod
    cases hmod

@[simp]
theorem open_call : (call name args).IsOpen ↔ name = "object" := open_of_bare rfl rfl

@[simp]
theorem open_reference (name : Name) : (reference name).IsOpen := (open_of_bare rfl rfl).2 trivial

@[simp]
theorem open_field (target : Option Schema) (path : String) : (field target path).IsOpen :=
  (open_of_bare rfl rfl).2 trivial

@[simp]
theorem not_open_helper : ¬(helper name args).IsOpen := fun h => h.base

end Modifiers

end Schema

/-- Modifiers that call for an object exactly when this is asked for, and do so before any
wrapper. -/
structure CallsFirst (asked : Prop) (added : List Modifier) : Prop where
  asked : (∃ call ∈ added, call.IsObjectCall) ↔ asked
  first : ∀ before call after, added = before ++ call :: after → call.IsObjectCall →
    ∀ modifier ∈ before, ¬modifier.IsWrapper

namespace CallsFirst

variable {asked : Prop} {added : List Modifier} {call : Modifier}

/-- A schema with such modifiers receives the calls when it is open, if they are asked for. -/
theorem receives_iff (h : CallsFirst asked added) {s : Schema} :
    (s.withModifiers added).ReceivesCalls ↔
      s.ReceivesCalls ∧ (∀ mod ∈ added, ∀ arg ∈ mod.arguments, arg.ReceivesCalls) ∧
        (asked → s.IsOpen) := by
  have hcalls : (∀ before call after, added = before ++ call :: after → call.IsObjectCall →
      s.IsOpen ∧ ∀ mod ∈ before, ¬mod.IsWrapper) ↔ (asked → s.IsOpen) := by
    constructor
    · intro hadded hasked
      obtain ⟨call, hmem, hcall⟩ := h.asked.2 hasked
      obtain ⟨before, after, hsplit⟩ := append_of_mem hmem
      exact (hadded before call after hsplit hcall).1
    · intro hopen before call after hsplit hcall
      refine ⟨hopen (h.asked.1 ⟨call, ?_, hcall⟩), h.first before call after hsplit hcall⟩
      rw [hsplit]
      exact mem_append_right _ mem_cons_self
  have hi : (∀ inner ∈ (s.withModifiers added).inner, inner.ReceivesCalls) ↔
      (∀ inner ∈ s.inner, inner.ReceivesCalls) ∧
        ∀ mod ∈ added, ∀ arg ∈ mod.arguments, arg.ReceivesCalls := by
    simp only [Schema.inner, Schema.base_withModifiers, Schema.modifiers_withModifiers,
      flatMap_append, forall_mem_append, forall_mem_flatMap, and_assoc]
  rw [Schema.receives_iff, Schema.receives_iff, Schema.calls_received_added, hcalls, hi]
  tauto

/-- Modifiers that are neither calls for objects nor wrappers may come before. -/
theorem append_left (h : CallsFirst asked added) {plain : List Modifier}
    (hplain : ∀ mod ∈ plain, ¬mod.IsObjectCall ∧ ¬mod.IsWrapper) :
    CallsFirst asked (plain ++ added) := by
  constructor
  · rw [← h.asked]
    constructor
    · rintro ⟨call, hmem, hcall⟩
      rcases mem_append.1 hmem with hmem | hmem
      · exact ((hplain call hmem).1 hcall).elim
      · exact ⟨call, hmem, hcall⟩
    · rintro ⟨call, hmem, hcall⟩
      exact ⟨call, mem_append_right _ hmem, hcall⟩
  · intro before call after hsplit hcall mod hmod
    rcases append_eq_append_iff.1 hsplit with ⟨middle, rfl, hmiddle⟩ | ⟨middle, hsame, hmiddle⟩
    · rcases mem_append.1 hmod with hmem | hmem
      · exact (hplain mod hmem).2
      · exact h.first middle call after hmiddle hcall mod hmem
    · exact (hplain mod (hsame ▸ mem_append_left _ hmod)).2

/-- Modifiers that are no calls for objects may come after. -/
theorem append_right (h : CallsFirst asked added) {later : List Modifier}
    (hlater : ∀ mod ∈ later, ¬mod.IsObjectCall) : CallsFirst asked (added ++ later) := by
  constructor
  · rw [← h.asked]
    constructor
    · rintro ⟨call, hmem, hcall⟩
      rcases mem_append.1 hmem with hmem | hmem
      · exact ⟨call, hmem, hcall⟩
      · exact (hlater call hmem hcall).elim
    · rintro ⟨call, hmem, hcall⟩
      exact ⟨call, mem_append_left _ hmem, hcall⟩
  · intro before call after hsplit hcall mod hmod
    rcases append_eq_append_iff.1 hsplit with ⟨middle, rfl, hmiddle⟩ | ⟨middle, hsame, hmiddle⟩
    · have hmem : call ∈ later := hmiddle ▸ mem_append_right _ mem_cons_self
      exact (hlater call hmem hcall).elim
    · cases middle with
      | nil =>
        have hmem : call ∈ later := by
          rw [nil_append] at hmiddle
          exact hmiddle ▸ mem_cons_self
        exact (hlater call hmem hcall).elim
      | cons a rest =>
        cases hmiddle
        exact h.first before call rest hsame hcall mod hmod

/-- Modifiers without a call for an object ask for none. -/
theorem of_none (h : ∀ mod ∈ added, ¬mod.IsObjectCall) : CallsFirst False added :=
  ⟨⟨fun ⟨call, hmem, hcall⟩ => h call hmem hcall, False.elim⟩, fun _ call _ hsplit hcall =>
    (h call (hsplit ▸ mem_append_right _ mem_cons_self) hcall).elim⟩

/-- Modifiers without a wrapper among them. -/
theorem of_bare (h : ∀ mod ∈ added, ¬mod.IsWrapper) :
    CallsFirst (∃ call ∈ added, call.IsObjectCall) added :=
  ⟨.rfl, fun _ _ _ hsplit _ mod hmod =>
    h mod (hsplit ▸ mem_append_left _ hmod)⟩

/-- A call for an object is no wrapper. -/
theorem not_wrapper (h : call.IsObjectCall) : ¬call.IsWrapper := by
  rintro ⟨-, hwrapper⟩
  obtain ⟨-, hcall⟩ := h
  simp only [mem_cons, not_mem_nil, or_false] at hcall hwrapper
  rcases hcall with hn | hn | hn | hn | hn | hn <;>
    rw [hn] at hwrapper <;> simp at hwrapper

theorem single (h : call.IsObjectCall) : CallsFirst True [call] := by
  have hbare : ∀ mod ∈ [call], ¬mod.IsWrapper := forall_mem_singleton.2 (not_wrapper h)
  exact ⟨iff_true_intro ⟨call, mem_singleton_self call, h⟩, (of_bare hbare).first⟩

end CallsFirst

namespace Schema

variable {s : Schema} {call : Modifier}

/-- A call for an object keeps a schema open. -/
theorem open_called (h : call.IsObjectCall) : (s.modify call).IsOpen ↔ s.IsOpen := by
  have hadded := @open_with_modifiers s [call]
  rw [forall_mem_singleton, and_iff_left (CallsFirst.not_wrapper h)] at hadded
  exact hadded

/-- A call for an object is received when it is made on an open schema. -/
theorem receives_called (h : call.IsObjectCall) :
    (s.modify call).ReceivesCalls ↔
      s.ReceivesCalls ∧ (∀ arg ∈ call.arguments, arg.ReceivesCalls) ∧ s.IsOpen := by
  have hadded := @CallsFirst.receives_iff _ _ (CallsFirst.single h) s
  rw [forall_mem_singleton, true_imp_iff] at hadded
  exact hadded

end Schema

/-- The context asks for calls that only objects have. -/
def Context.Asks (context : Context) : Prop :=
  context.allOptional = true ∨ context.allRequired = true

/-- The context wraps a schema. -/
def Context.Wraps (context : Context) : Prop :=
  context.optional = true ∨ context.nullable = true ∨ (context.tags.get? "default").isSome

/-- Modifiers as a context calls for them. -/
structure CalledBy (context : Context) (added : List Modifier) : Prop where
  calls : CallsFirst context.Asks added
  wraps : (∃ modifier ∈ added, modifier.IsWrapper) ↔ context.Wraps
  arguments : ∀ modifier ∈ added, ∀ argument ∈ modifier.arguments, argument.ReceivesCalls

namespace Refinement

/-- A constraint is neither a call for objects nor a wrapper. -/
theorem IsConstraint.plain {mod : Modifier} (h : IsConstraint mod) :
    ¬mod.IsObjectCall ∧ ¬mod.IsWrapper := by
  cases h with
  | bound hn =>
    rcases mem_pair.1 hn with rfl | rfl <;>
      exact ⟨fun h => by simp [Modifier.IsObjectCall] at h,
        fun h => by simp [Modifier.IsWrapper] at h⟩
  | regex =>
    exact ⟨fun h => by simp [Modifier.IsObjectCall] at h,
      fun h => by simp [Modifier.IsWrapper] at h⟩
  | @format name known message hknown =>
    have hnames : ∀ e ∈ builtinFormats,
        e.2.modifier ∉ ["partial", "required", "strict", "omit", "pick", "extend"] ∧
          e.2.modifier ∉ ["optional", "nullable", "default", "and"] := by decide
    obtain ⟨hcall, hwrapper⟩ := hnames _ hknown
    unfold builtinFormat
    split
    · exact ⟨fun h => hcall h.2, fun h => hwrapper h.2⟩
    · exact ⟨fun h => hcall h.2, fun h => hwrapper h.2⟩

/-- Data that is an argument of a modifier has no calls on objects in it. -/
theorem IsDatum.receives_calls {arg : Schema} (h : IsDatum arg) : arg.ReceivesCalls := by
  cases h with
  | value => exact Schema.receives_value _
  | regex => exact Schema.receives_regex _
  | options hvalues =>
    refine Schema.receives_object.2 fun e he => ?_
    obtain ⟨v, hv⟩ := hvalues e he
    exact hv ▸ Schema.receives_value _

/-- The flags on all properties are calls for objects. -/
theorem calls_first_flags (ctx : Context) :
    CallsFirst ctx.Asks (flagged ctx.allOptional "partial" ++
      flagged ctx.allRequired "required") := by
  have hbare : ∀ mod ∈ flagged ctx.allOptional "partial" ++
      flagged ctx.allRequired "required", ¬mod.IsWrapper := by
    intro mod hmod
    rcases mem_append.1 hmod with hmem | hmem
    · obtain ⟨-, rfl⟩ := mem_flagged.1 hmem
      simp [Modifier.IsWrapper]
    · obtain ⟨-, rfl⟩ := mem_flagged.1 hmem
      simp [Modifier.IsWrapper]
  have hasked : (∃ call ∈ flagged ctx.allOptional "partial" ++
      flagged ctx.allRequired "required", call.IsObjectCall) ↔ ctx.Asks := by
    constructor
    · rintro ⟨call, hmem, -⟩
      rcases mem_append.1 hmem with hmem | hmem
      · exact .inl (mem_flagged.1 hmem).1
      · exact .inr (mem_flagged.1 hmem).1
    · rintro (hall | hall)
      · refine ⟨⟨"partial", [], false⟩, mem_append_left _ (mem_flagged.2 ⟨hall, rfl⟩), ?_⟩
        simp [Modifier.IsObjectCall]
      · refine ⟨⟨"required", [], false⟩, mem_append_right _ (mem_flagged.2 ⟨hall, rfl⟩), ?_⟩
        simp [Modifier.IsObjectCall]
  exact ⟨hasked, (CallsFirst.of_bare hbare).first⟩

/-- The modifiers that a context calls for put calls for objects before wrappers. -/
theorem modifiers_called_by {formats : Json} {ctx : Context} {found : List Modifier}
    (h : (ctx.modifiers formats).result = .ok found) : CalledBy ctx found := by
  have hplain := modifiers_plain h
  obtain ⟨constraints, hconstraints, rfl⟩ := modifiers_inversion h
  refine ⟨((calls_first_flags ctx).append_left ?_).append_right ?_, ?_, ?_⟩
  · exact fun mod hmod => (hconstraints mod hmod).plain
  · simp only [mem_append, mem_flagged, mem_valued]
    rintro mod (((⟨-, rfl⟩ | ⟨text, -, rfl⟩) | ⟨-, rfl⟩) | ⟨text, -, rfl⟩) <;>
      simp [Modifier.IsObjectCall]
  · simp only [mem_append, mem_flagged, mem_valued]
    constructor
    · rintro ⟨mod, (hmem | hmem) | (((hmem | hmem) | hmem) | hmem), hwrapper⟩
      · exact ((hconstraints mod hmem).plain.2 hwrapper).elim
      · rcases hmem with ⟨-, rfl⟩ | ⟨-, rfl⟩ <;> simp [Modifier.IsWrapper] at hwrapper
      · exact .inl hmem.1
      · obtain ⟨text, -, rfl⟩ := hmem
        simp [Modifier.IsWrapper] at hwrapper
      · exact .inr (.inl hmem.1)
      · obtain ⟨text, htext, -⟩ := hmem
        exact .inr (.inr (htext ▸ rfl))
    · rintro (hoptional | hnullable | hdefault)
      · exact ⟨_, .inr (.inl (.inl (.inl ⟨hoptional, rfl⟩))), by simp [Modifier.IsWrapper]⟩
      · exact ⟨_, .inr (.inl (.inr ⟨hnullable, rfl⟩)), by simp [Modifier.IsWrapper]⟩
      · obtain ⟨text, htext⟩ := Option.isSome_iff_exists.1 hdefault
        exact ⟨_, .inr (.inr ⟨text, htext, rfl⟩), by simp [Modifier.IsWrapper]⟩
  · exact fun mod hmod arg harg =>
      ((hplain mod hmod).arguments arg harg).receives_calls

end Refinement

end Schemata
