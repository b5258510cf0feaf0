import Mathlib.Data.List.Forall2
import Schemata.Generation
import Schemata.Proofs.Calls

/-!
# The values that a schema accepts

`Schema.Accepts` says which values an expression accepts, given what the schemas under other names
accept. `Validates` is about a module of constants that refer to one another: it is the least
relation in which every constant accepts what its expression accepts.
-/

namespace Schemata

open List

variable {entries : List (String × Schema)}

/-- A value at run time. -/
inductive Value where
  | undefined
  | null
  | bool (value : Bool)
  | number (value : Rat)
  | text (value : String)
  | array (items : List Value)
  | object (fields : List (String × Value))

namespace Value

/-- What a property reads as; a missing one reads as undefined. -/
def read (fields : List (String × Value)) (name : String) : Value :=
  ((fields.find? (·.1 = name)).map (·.2)).getD .undefined

/-- The number that a double-precision number stands for. -/
def ofBinary64? : Binary64 → Option Value
  | .finite negative significand exponent =>
    let (num, den) := Binary64.ratio significand exponent
    some (.number (mkRat (if negative then -(num : Int) else num) den))
  | _ => none

/-- The value that a literal stands for. -/
def ofJson? : Json → Option Value
  | .null => some .null
  | .bool value => some (.bool value)
  | .int value => some (.number value)
  | .float value => ofBinary64? value
  | .str word => some (.text word)
  | _ => none

end Value

/-- What a call without arguments accepts. -/
def AtomAccepts (name : String) (value : Value) : Prop :=
  match name with
  | "any" => True
  | "unknown" => True
  | "string" => ∃ text, value = .text text
  | "number" => ∃ number, value = .number number
  | "boolean" => ∃ truth, value = .bool truth
  | "null" => value = .null
  | "undefined" => value = .undefined
  | "void" => value = .undefined
  | _ => False

namespace Schema

variable (known : Key → Value → Prop) {slots arms : List Schema}

mutual

/-- Whether an expression accepts a value, given what the schemas under names accept. -/
def Accepts : Schema → Value → Prop
  | .call "literal" [.value json], input => Value.ofJson? json = some input
  | .call "array" [element], input =>
    ∃ items, input = .array items ∧ ∀ item ∈ items, Accepts element item
  | .call "tuple" [.array slots], input =>
    ∃ items, input = .array items ∧ AcceptsEach slots items
  | .call "union" [.array arms], input => AcceptsOne arms input
  | .call "record" [element], input =>
    ∃ fields, input = .object fields ∧ ∀ field ∈ fields, Accepts element field.2
  | .call "record" [key, element], input =>
    ∃ fields, input = .object fields ∧
      ∀ field ∈ fields, Accepts key (.text field.1) ∧ Accepts element field.2
  | .call "object" [.object entries], input =>
    ∃ fields, input = .object fields ∧ AcceptsEntries entries fields
  | .call name [], input => AtomAccepts name input
  | .reference name, input => ∃ key, name.key? = some key ∧ known key input
  | .modified receiver "optional" [] false, input => input = .undefined ∨ Accepts receiver input
  | .modified receiver "nullable" [] false, input => input = .null ∨ Accepts receiver input
  | .modified receiver "and" [other] false, input => Accepts receiver input ∧ Accepts other input
  | .modified receiver "rest" [element] false, input =>
    ∃ front back, input = .array (front ++ back) ∧ Accepts receiver (.array front) ∧
      ∀ item ∈ back, Accepts element item
  | _, _ => False

/-- Each of the schemas accepts the value at its place, and there are no other inputs. -/
def AcceptsEach : List Schema → List Value → Prop
  | [], items => items = []
  | slot :: rest, items =>
    ∃ first others, items = first :: others ∧ Accepts slot first ∧ AcceptsEach rest others

/-- One of the schemas accepts the value. -/
def AcceptsOne : List Schema → Value → Prop
  | [], _ => False
  | arm :: rest, input => Accepts arm input ∨ AcceptsOne rest input

/-- The schema of each entry accepts what the property of its name reads as. -/
def AcceptsEntries : List (String × Schema) → List (String × Value) → Prop
  | [], _ => True
  | (name, schema) :: rest, fields =>
    Accepts schema (Value.read fields name) ∧ AcceptsEntries rest fields

end

variable {known} {s : Schema} {input : Value}

theorem accepts_call_atom {name : String} :
    (call name []).Accepts known input ↔ AtomAccepts name input := by
  rw [Accepts]

theorem accepts_literal {json : Json} :
    (call "literal" [.value json]).Accepts known input ↔ Value.ofJson? json = some input := Iff.rfl

theorem accepts_array :
    (call "array" [s]).Accepts known input ↔
      ∃ xs, input = .array xs ∧ ∀ x ∈ xs, s.Accepts known x := Iff.rfl

theorem accepts_record :
    (call "record" [s]).Accepts known input ↔
      ∃ fields, input = .object fields ∧ ∀ field ∈ fields, s.Accepts known field.2 := Iff.rfl

theorem accepts_keyed_record {key : Schema} :
    (call "record" [key, s]).Accepts known input ↔
      ∃ fields, input = .object fields ∧
        ∀ field ∈ fields, key.Accepts known (.text field.1) ∧ s.Accepts known field.2 := Iff.rfl

theorem accepts_reference {name : Name} :
    (reference name).Accepts known input ↔ ∃ key, name.key? = some key ∧ known key input := Iff.rfl

theorem accepts_optional :
    (s.modify ⟨"optional", [], false⟩).Accepts known input ↔
      input = .undefined ∨ s.Accepts known input := Iff.rfl

theorem accepts_nullable :
    (s.modify ⟨"nullable", [], false⟩).Accepts known input ↔
      input = .null ∨ s.Accepts known input := Iff.rfl

theorem accepts_and {other : Schema} :
    (s.modify ⟨"and", [other], false⟩).Accepts known input ↔
      s.Accepts known input ∧ other.Accepts known input := Iff.rfl

theorem accepts_rest {elt : Schema} :
    (s.modify ⟨"rest", [elt], false⟩).Accepts known input ↔
      ∃ front back, input = .array (front ++ back) ∧ s.Accepts known (.array front) ∧
        ∀ x ∈ back, elt.Accepts known x := Iff.rfl

theorem accepts_each_iff {xs : List Value} :
    AcceptsEach known slots xs ↔ Forall₂ (fun slot x => slot.Accepts known x) slots xs := by
  induction slots generalizing xs with
  | nil => simp [AcceptsEach]
  | cons slot rest ih =>
    rw [AcceptsEach, forall₂_cons_left_iff]
    constructor
    · rintro ⟨a, others, rfl, ha, hothers⟩
      exact ⟨a, others, ha, ih.1 hothers, rfl⟩
    · rintro ⟨a, others, ha, hothers, rfl⟩
      exact ⟨a, others, rfl, ha, ih.2 hothers⟩

theorem accepts_one_iff : AcceptsOne known arms input ↔ ∃ arm ∈ arms, arm.Accepts known input := by
  induction arms with
  | nil => simp [AcceptsOne]
  | cons arm rest ih => simp [AcceptsOne, ih]

theorem accepts_entries_iff {fields : List (String × Value)} :
    AcceptsEntries known entries fields ↔
      ∀ e ∈ entries, e.2.Accepts known (Value.read fields e.1) := by
  induction entries with
  | nil => simp [AcceptsEntries]
  | cons e rest ih =>
    obtain ⟨name, s⟩ := e
    rw [AcceptsEntries, ih, forall_mem_cons]

/-- A tuple accepts the lists whose items are accepted one by one. -/
theorem accepts_tuple :
    (call "tuple" [.array slots]).Accepts known input ↔
      ∃ xs, input = .array xs ∧ Forall₂ (fun slot x => slot.Accepts known x) slots xs := by
  simp only [Accepts, accepts_each_iff]

theorem accepts_union :
    (call "union" [.array arms]).Accepts known input ↔ ∃ arm ∈ arms, arm.Accepts known input :=
  accepts_one_iff

theorem accepts_object :
    (call "object" [.object entries]).Accepts known input ↔
      ∃ fields, input = .object fields ∧
        ∀ e ∈ entries, e.2.Accepts known (Value.read fields e.1) := by
  simp only [Accepts, accepts_entries_iff]

/-- An object with an index signature accepts what its properties and its values accept. -/
theorem accepts_object_schema {elt : Option Schema} :
    (Program.objectSchema entries elt).Accepts known input ↔
      ∃ fields, input = .object fields ∧
        (∀ e ∈ entries, e.2.Accepts known (Value.read fields e.1)) ∧
        ∀ s ∈ elt, ∀ field ∈ fields, s.Accepts known field.2 := by
  cases elt with
  | none => simp [Program.objectSchema, accepts_object]
  | some s =>
    cases entries with
    | nil => simp [Program.objectSchema, accepts_record]
    | cons =>
      simp only [Program.objectSchema, isEmpty_cons, Bool.false_eq_true, if_false,
        accepts_and, accepts_record, accepts_object]
      constructor
      · rintro ⟨⟨fields, rfl, hfields⟩, other, hother, hes⟩
        cases hother
        exact ⟨fields, rfl, hes, fun _ h => Option.mem_some.1 h ▸ hfields⟩
      · rintro ⟨fields, rfl, hes, hfields⟩
        exact ⟨⟨fields, rfl, hfields s rfl⟩, fields, rfl, hes⟩

end Schema

/-- The values that a constant of a module accepts, by the key of its name: the least relation in
which a constant accepts what its expression does. -/
inductive Validates (constants : List Compiled) : Key → Value → Prop where
  | intro {constant : Compiled} {key value} {known : Key → Value → Prop}
      (hconstant : constant ∈ constants) (hkey : constant.schemaName.key? = some key)
      (hknown : ∀ other found, known other found → Validates constants other found)
      (h : constant.schema.Accepts known value) : Validates constants key value

namespace Context

variable {ctx : Context}

/-- The values that a context allows beside those of a type. -/
def Allows (context : Context) (value : Value) : Prop :=
  (context.optional = true ∧ value = .undefined) ∨ (context.nullable = true ∧ value = .null)

/-- A context that asks for nothing but that a value may be absent. -/
structure Bare (context : Context) : Prop where
  tags : context.tags = []
  allOptional : context.allOptional = false
  allRequired : context.allRequired = false

/-- Without tags there are the modifiers of the flags only. -/
theorem modifiers_without_tags (htags : ctx.tags = []) (formats : Json) :
    ctx.modifiers formats = pure (Refinement.flagged ctx.allOptional "partial" ++
      Refinement.flagged ctx.allRequired "required" ++
      Refinement.flagged ctx.optional "optional" ++
      Refinement.flagged ctx.nullable "nullable") := by
  obtain ⟨optional, nullable, allOptional, allRequired, tags⟩ := ctx
  cases htags
  simp [modifiers, Refinement.tagged, Refinement.valued, Tags.get?]

/-- The modifiers of a bare context are those of absent values. -/
theorem Bare.modifiers_eq (h : ctx.Bare) (formats : Json) :
    ctx.modifiers formats = pure (Refinement.flagged ctx.optional "optional" ++
      Refinement.flagged ctx.nullable "nullable") := by
  rw [modifiers_without_tags h.tags, h.allOptional, h.allRequired]
  rfl

theorem accepts_flagged {known : Key → Value → Prop} {s : Schema} {v : Value} :
    (s.withModifiers (Refinement.flagged ctx.optional "optional" ++
      Refinement.flagged ctx.nullable "nullable")).Accepts known v ↔
      ctx.Allows v ∨ s.Accepts known v := by
  obtain ⟨optional, nullable, allOptional, allRequired, tags⟩ := ctx
  cases optional <;> cases nullable <;>
    simp [Allows, Refinement.flagged, Schema.accepts_optional, Schema.accepts_nullable, or_assoc,
      or_left_comm]

end Context

namespace Program

variable {p : Program} {ctx : Context} {known : Key → Value → Prop} {v : Value}
  {mods : List Modifier} {s : Schema}

theorem modifiers_of_bare (hctx : ctx.Bare) (h : (p.modifiers ctx).result = .ok mods) :
    mods = Refinement.flagged ctx.optional "optional" ++
      Refinement.flagged ctx.nullable "nullable" := by
  obtain ⟨formats, -, h⟩ := Traced.bind_ok_iff.1 h
  rw [hctx.modifiers_eq] at h
  exact (Except.ok.inj h).symm

/-- A schema with the modifiers of a context accepts what the context allows, and no more. -/
theorem accepts_modifiers (hctx : ctx.Bare) (h : (p.modifiers ctx).result = .ok mods) :
    (s.withModifiers mods).Accepts known v ↔ ctx.Allows v ∨ s.Accepts known v := by
  rw [modifiers_of_bare hctx h, Context.accepts_flagged]

theorem accepts_finish (hctx : ctx.Bare) {found : Schema}
    (h : (p.finish ctx s).result = .ok found) :
    found.Accepts known v ↔ ctx.Allows v ∨ s.Accepts known v := by
  obtain ⟨mods, hmods, h⟩ := Traced.bind_ok_iff.1 h
  cases h
  exact accepts_modifiers hctx hmods

end Program

end Schemata
