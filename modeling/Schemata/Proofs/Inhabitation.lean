import Schemata.Proofs.Acceptance

/-!
# The values that belong to a type

`Belongs` says which values belong to a type without parameters, given what belongs to the types
under names. A reference to a generic declaration stands for its body with parameters replaced by
arguments and defaults, `TypeExpr.instantiate`. `Inhabits` is about the declarations of a program:
it is the least relation in which the values of a declaration are those of its body.
-/

namespace Schemata

open List

variable {elt type : TypeExpr} {slots : List TypeExpr}

/-- What parameters are replaced by, by their keys. -/
abbrev Substitution := Key → Option TypeExpr

/-- The substitution with one more parameter. -/
def Substitution.bind (substitution : Substitution) (name : Name) (type : TypeExpr) :
    Substitution :=
  fun key => if name.key? = some key then some type else substitution key

/-- A function on lists that does the same with each element is a map. -/
theorem eq_map_of_rec {α β : Type} {f : List α → List β} {g : α → β} (hnil : f [] = [])
    (hcons : ∀ x rest, f (x :: rest) = g x :: f rest) (xs : List α) : f xs = xs.map g := by
  induction xs with
  | nil => exact hnil
  | cons x rest ih => rw [hcons, ih, map_cons]

namespace TypeExpr

variable (substitution : Substitution)

mutual

/-- The type with parameters replaced. -/
def instantiate : TypeExpr → TypeExpr
  | .reference name arguments =>
    match name.key?.bind substitution with
    | some type => type
    | none => .reference name (instantiateAll arguments)
  | .object members index => .object (instantiateMembers members) (instantiateIndex index)
  | .array element => .array (instantiate element)
  | .spread type => .spread (instantiate type)
  | .named name type optional => .named name (instantiate type) optional
  | .tuple elements => .tuple (instantiateAll elements)
  | .union arms => .union (instantiateAll arms)
  | .intersection arms => .intersection (instantiateAll arms)
  | .function parameters result =>
    .function (instantiateParameters parameters) (instantiate result)
  | .template head spans => .template head (instantiateSpans spans)
  | .indexed base index => .indexed (instantiate base) (instantiate index)
  | .paren type => .paren (instantiate type)
  | .keyword word => .keyword word
  | .literal value => .literal value
  | .enumMember enumName memberName => .enumMember enumName memberName
  | .unsupported kind text => .unsupported kind text

/-- The types with parameters replaced. -/
def instantiateAll : List TypeExpr → List TypeExpr
  | [] => []
  | type :: rest => instantiate type :: instantiateAll rest

/-- A type that may be missing, with parameters replaced. -/
def instantiateOption : Option TypeExpr → Option TypeExpr
  | none => none
  | some type => some (instantiate type)

/-- The members with parameters replaced in their types. -/
def instantiateMembers : List (Member TypeExpr) → List (Member TypeExpr)
  | [] => []
  | ⟨name, type, optional, readonly, tags⟩ :: rest =>
    ⟨name, instantiateOption type, optional, readonly, tags⟩ :: instantiateMembers rest

/-- The index signature with parameters replaced in its types. -/
def instantiateIndex : Option (IndexSignature TypeExpr) → Option (IndexSignature TypeExpr)
  | none => none
  | some ⟨name, key, type⟩ => some ⟨name, instantiateOption key, instantiateOption type⟩

/-- The parameters of a function with parameters replaced in their types. -/
def instantiateParameters : List (Parameter TypeExpr) → List (Parameter TypeExpr)
  | [] => []
  | ⟨name, type, optional⟩ :: rest =>
    ⟨name, instantiateOption type, optional⟩ :: instantiateParameters rest

/-- The spans of a template with parameters replaced in their types. -/
def instantiateSpans : List (TemplateSpan TypeExpr) → List (TemplateSpan TypeExpr)
  | [] => []
  | ⟨type, after⟩ :: rest => ⟨instantiate type, after⟩ :: instantiateSpans rest

end

variable {substitution}

theorem instantiate_all_eq (types : List TypeExpr) :
    instantiateAll substitution types = types.map (instantiate substitution) :=
  eq_map_of_rec rfl (fun _ _ => rfl) types

theorem instantiate_option_eq (t : Option TypeExpr) :
    instantiateOption substitution t = t.map (instantiate substitution) := by
  cases t <;> rfl

theorem instantiate_members_eq (ms : List (Member TypeExpr)) :
    instantiateMembers substitution ms =
      ms.map fun m =>
        { m with type := m.type.map (instantiate substitution) } :=
  eq_map_of_rec rfl (fun _ _ => by rw [instantiateMembers, instantiate_option_eq]) ms

theorem instantiate_index_eq (index : Option (IndexSignature TypeExpr)) :
    instantiateIndex substitution index = index.map fun sig =>
      { sig with
        keyType := sig.keyType.map (instantiate substitution)
        type := sig.type.map (instantiate substitution) } := by
  cases index with
  | none => rfl
  | some =>
    rw [instantiateIndex, instantiate_option_eq, instantiate_option_eq]
    rfl

end TypeExpr

/-- Parameters are replaced in order, each by its argument, or by its default as far as the
parameters before it are replaced. -/
def bindArguments : List GenericParameter → List TypeExpr → Substitution → Substitution
  | [], _, substitution => substitution
  | parameter :: rest, argument :: others, substitution =>
    bindArguments rest others (substitution.bind parameter.name argument)
  | ⟨name, _, some type⟩ :: rest, [], substitution =>
    bindArguments rest [] (substitution.bind name (type.instantiate substitution))
  | ⟨_, _, none⟩ :: rest, [], substitution => bindArguments rest [] substitution

/-- The type that a declaration gives a name to, unless it is an enumeration or extends others. -/
def Declaration.body? : Declaration → Option TypeExpr
  | .typeAlias declared => some declared.type
  | .interface declared =>
    if declared.heritage.isEmpty then some (.object declared.members declared.index) else none
  | .enumeration _ => none

/-- The body of a declaration with its parameters replaced. -/
def Declaration.instance? (declaration : Declaration) (arguments : List TypeExpr) :
    Option TypeExpr :=
  declaration.body?.map fun body =>
    body.instantiate (bindArguments declaration.parameters arguments fun _ => none)

/-- The values that a predefined type stands for. No value is a big integer. -/
def Keyword.Holds : Keyword → Value → Prop
  | .any, _ => True
  | .unknown, _ => True
  | .string, value => ∃ text, value = .text text
  | .number, value => ∃ number, value = .number number
  | .boolean, value => ∃ truth, value = .bool truth
  | .undefined, value => value = .undefined
  | .void, value => value = .undefined
  | .object, value => (∃ fields, value = .object fields) ∨ ∃ items, value = .array items
  | .never, _ => False
  | .bigint, _ => False

/-- A value belongs to a type, given what belongs to the declarations without parameters. -/
inductive Belongs (program : Program) (known : Key → Value → Prop) : TypeExpr → Value → Prop where
  | keyword {keyword : Keyword} {value} (h : keyword.Holds value) :
      Belongs program known (.keyword keyword) value
  | literal {json value} (h : Value.ofJson? json = some value) :
      Belongs program known (.literal json) value
  | array {element items} (h : ∀ item ∈ items, Belongs program known element item) :
      Belongs program known (.array element) (.array items)
  | tuple {slots : List TypeExpr} {items : List Value} (hlength : slots.length = items.length)
      (h : ∀ pair ∈ slots.zip items, Belongs program known pair.1 pair.2) :
      Belongs program known (.tuple slots) (.array items)
  /-- The remaining items of a tuple, taken together, belong to the type that is spread. -/
  | restTuple {slots : List TypeExpr} {rest} {front : List Value} {back}
      (hlength : slots.length = front.length)
      (h : ∀ pair ∈ slots.zip front, Belongs program known pair.1 pair.2)
      (hrest : Belongs program known rest (.array back)) :
      Belongs program known (.tuple (slots ++ [.spread rest])) (.array (front ++ back))
  | union {arms arm value} (harm : arm ∈ arms) (h : Belongs program known arm value) :
      Belongs program known (.union arms) value
  | intersection {arms value} (h : ∀ arm ∈ arms, Belongs program known arm value) :
      Belongs program known (.intersection arms) value
  /-- Every property belongs to the type of its member, unless it is optional and undefined, and to
  the type of the index signature, if there is one. -/
  | object {members index fields}
      (hmembers : ∀ member ∈ members, ∀ type ∈ member.type, ¬(member.optional =
        true ∧ Value.read fields member.name = .undefined) →
        Belongs program known type (Value.read fields member.name))
      (hindex : ∀ signature ∈ index, ∀ field ∈ fields,
        Belongs program known (signature.type.getD (.keyword .any)) field.2) :
      Belongs program known (.object members index) (.object fields)
  | paren {type value} (h : Belongs program known type value) :
      Belongs program known (.paren type) value
  | arrayOf {name element items} (hname : Builtin.ofName? name = some .array)
      (h : ∀ item ∈ items, Belongs program known element item) :
      Belongs program known (.reference name [element]) (.array items)
  | readonly {name type value} (hname : Builtin.ofName? name = some .readonly)
      (h : Belongs program known type value) : Belongs program known (.reference name [type]) value
  | record {name} {key : TypeExpr} {type fields} (hname : Builtin.ofName? name = some .record)
      (hkey : key.unwrap = .keyword .string)
      (h : ∀ field ∈ fields, Belongs program known type field.2) :
      Belongs program known (.reference name [key, type]) (.object fields)
  | named {name : Name} {key} {declaration : Declaration} {value} (hkey : name.key? = some key)
      (hfound : program.declaration? key = some declaration)
      (hparameters : declaration.parameters = []) (h : known key value) :
      Belongs program known (.reference name []) value
  | generic {name : Name} {key arguments} {declaration : Declaration} {body value}
      (hkey : name.key? = some key) (hfound : program.declaration? key = some declaration)
      (hparameters : declaration.parameters ≠ [])
      (hbody : declaration.instance? arguments = some body) (h : Belongs program known body value) :
      Belongs program known (.reference name arguments) value

/-- The values of a declaration without parameters, by the key of its name: the least relation in
which they are the values of its body. -/
inductive Inhabits (program : Program) : Key → Value → Prop where
  | intro {key} {declaration : Declaration} {body value} {known : Key → Value → Prop}
      (hfound : program.declaration? key = some declaration)
      (hparameters : declaration.parameters = []) (hbody : declaration.instance? [] = some body)
      (hknown : ∀ other found, known other found → Inhabits program other found)
      (h : Belongs program known body value) : Inhabits program key value

section Inversion

variable {p : Program} {known : Key → Value → Prop} {v : Value} {arms : List TypeExpr}

theorem belongs_keyword {keyword : Keyword} :
    Belongs p known (.keyword keyword) v ↔ keyword.Holds v := by
  constructor
  · intro h
    cases h with
    | keyword h => exact h
  · exact .keyword

theorem belongs_literal {json : Json} :
    Belongs p known (.literal json) v ↔ Value.ofJson? json = some v := by
  constructor
  · intro h
    cases h with
    | literal h => exact h
  · exact .literal

theorem belongs_array :
    Belongs p known (.array elt) v ↔ ∃ xs, v = .array xs ∧ ∀ x ∈ xs, Belongs p known elt x := by
  constructor
  · intro h
    cases h with
    | array h => exact ⟨_, rfl, h⟩
  · rintro ⟨xs, rfl, h⟩
    exact .array h

theorem belongs_union : Belongs p known (.union arms) v ↔ ∃ arm ∈ arms, Belongs p known arm v := by
  constructor
  · intro h
    cases h with
    | union harm h => exact ⟨_, harm, h⟩
  · rintro ⟨arm, harm, h⟩
    exact .union harm h

theorem belongs_intersection :
    Belongs p known (.intersection arms) v ↔ ∀ arm ∈ arms, Belongs p known arm v := by
  constructor
  · intro h
    cases h with
    | intersection h => exact h
  · exact .intersection

theorem belongs_object {ms : List (Member TypeExpr)} {index : Option (IndexSignature TypeExpr)} :
    Belongs p known (.object ms index) v ↔
      ∃ fields, v = .object fields ∧
        (∀ m ∈ ms, ∀ type ∈ m.type,
          ¬(m.optional = true ∧ Value.read fields m.name = .undefined) →
            Belongs p known type (Value.read fields m.name)) ∧
        ∀ sig ∈ index, ∀ field ∈ fields,
          Belongs p known (sig.type.getD (.keyword .any)) field.2 := by
  constructor
  · intro h
    cases h with
    | object hms hidx => exact ⟨_, rfl, hms, hidx⟩
  · rintro ⟨fields, rfl, hms, hidx⟩
    exact .object hms hidx

theorem belongs_paren : Belongs p known (.paren type) v ↔ Belongs p known type v := by
  constructor
  · intro h
    cases h with
    | paren h => exact h
  · exact .paren

/-- No value belongs to a spread that stands by itself. -/
theorem not_belongs_spread : ¬Belongs p known (.spread type) v := by
  intro h
  cases h

/-- The items of a tuple belong to its slots, one by one. -/
theorem forall₂_of_zip {xs : List Value} (hlen : slots.length = xs.length)
    (h : ∀ pair ∈ slots.zip xs, Belongs p known pair.1 pair.2) :
    Forall₂ (Belongs p known) slots xs := forall₂_iff_zip.2 ⟨hlen, fun hpair => h _ hpair⟩

/-- A tuple with a spread has all other items in front of those that are spread. -/
theorem belongs_rest_tuple {rest : TypeExpr} :
    Belongs p known (.tuple (slots ++ [.spread rest])) v ↔
      ∃ front back, v = .array (front ++ back) ∧ Forall₂ (Belongs p known) slots front ∧
        Belongs p known rest (.array back) := by
  constructor
  · intro h
    generalize helts : slots ++ [TypeExpr.spread rest] = elements at h
    cases h with
    | tuple hlen h =>
      -- The spread itself would have to have an item.
      subst helts
      have hback := forall₂_drop slots.length (forall₂_of_zip hlen h)
      rw [drop_left] at hback
      obtain ⟨x, others, hx, -, -⟩ := forall₂_cons_left_iff.1 hback
      exact (not_belongs_spread hx).elim
    | restTuple hlen h hr =>
      obtain ⟨rfl, hspread⟩ := append_inj' helts rfl
      cases hspread
      exact ⟨_, _, rfl, forall₂_of_zip hlen h, hr⟩
  · rintro ⟨front, back, rfl, hfront, hr⟩
    obtain ⟨hlen, h⟩ := forall₂_iff_zip.1 hfront
    exact .restTuple hlen (fun pair hpair => h hpair) hr

/-- A tuple without a spread has an item for each of its slots. -/
theorem belongs_plain_tuple (hplain : ∀ slot ∈ slots, ∀ type, slot ≠ .spread type) :
    Belongs p known (.tuple slots) v ↔
      ∃ xs, v = .array xs ∧ Forall₂ (Belongs p known) slots xs := by
  constructor
  · intro h
    cases h with
    | tuple hlen h => exact ⟨_, rfl, forall₂_of_zip hlen h⟩
    | restTuple =>
      exact (hplain _ (mem_append_right _ mem_cons_self) _ rfl).elim
  · rintro ⟨xs, rfl, hxs⟩
    obtain ⟨hlen, h⟩ := forall₂_iff_zip.1 hxs
    exact .tuple hlen fun pair hpair => h hpair

/-- Parentheses do not matter, also when parameters are replaced inside of them. -/
theorem belongs_instantiate_unwrap {sub : Substitution} :
    Belongs p known (type.unwrap.instantiate sub) v ↔ Belongs p known (type.instantiate sub) v := by
  fun_induction TypeExpr.unwrap type with
  | case1 type ih => rw [TypeExpr.instantiate, belongs_paren, ih]
  | case2 => rfl

end Inversion

section References

variable {p : Program} {known : Key → Value → Prop} {v : Value} {name : Name}

/-- A name under which nothing is declared. -/
def Undeclared (program : Program) (name : Name) : Prop :=
  ∀ key, name.key? = some key → program.declaration? key = none

theorem belongs_array_of (hn : Builtin.ofName? name = some .array)
    (hundeclared : Undeclared p name) :
    Belongs p known (.reference name [elt]) v ↔
      ∃ xs, v = .array xs ∧ ∀ x ∈ xs, Belongs p known elt x := by
  constructor
  · intro h
    cases h with
    | arrayOf _ h => exact ⟨_, rfl, h⟩
    | readonly hother => rw [hn] at hother; cases hother
    | generic hk hf => rw [hundeclared _ hk] at hf; cases hf
  · rintro ⟨xs, rfl, h⟩
    exact .arrayOf hn h

theorem belongs_readonly (hn : Builtin.ofName? name = some .readonly)
    (hundeclared : Undeclared p name) :
    Belongs p known (.reference name [type]) v ↔ Belongs p known type v := by
  constructor
  · intro h
    cases h with
    | arrayOf hother => rw [hn] at hother; cases hother
    | readonly _ h => exact h
    | generic hk hf => rw [hundeclared _ hk] at hf; cases hf
  · exact .readonly hn

theorem belongs_record (hn : Builtin.ofName? name = some .record)
    (hundeclared : Undeclared p name) {key : TypeExpr} (hstring : key.unwrap = .keyword .string) :
    Belongs p known (.reference name [key, type]) v ↔
      ∃ fields, v = .object fields ∧ ∀ field ∈ fields, Belongs p known type field.2 := by
  constructor
  · intro h
    cases h with
    | record _ _ h => exact ⟨_, rfl, h⟩
    | generic hk hf => rw [hundeclared _ hk] at hf; cases hf
  · rintro ⟨fields, rfl, h⟩
    exact .record hn hstring h

variable {key : Key} {decl : Declaration} (hkey : name.key? = some key)
  (hfound : p.declaration? key = some decl)

include hkey hfound

theorem belongs_named (hparams : decl.parameters = []) :
    Belongs p known (.reference name []) v ↔ known key v := by
  constructor
  · intro h
    cases h with
    | named hother _ _ h =>
      cases hkey.symm.trans hother
      exact h
    | generic hother hd hgeneric =>
      cases hkey.symm.trans hother
      cases hfound.symm.trans hd
      exact (hgeneric hparams).elim
  · exact .named hkey hfound hparams

theorem belongs_generic (hn : Builtin.ofName? name = none) (hparams : decl.parameters ≠ [])
    {args : List TypeExpr} {body : TypeExpr} (hbody : decl.instance? args = some body) :
    Belongs p known (.reference name args) v ↔ Belongs p known body v := by
  constructor
  · intro h
    cases h with
    | arrayOf hother | readonly hother | record hother => rw [hn] at hother; cases hother
    | named hother hd hplain =>
      cases hkey.symm.trans hother
      cases hfound.symm.trans hd
      exact (hparams hplain).elim
    | generic hother hd _ hinstance h =>
      cases hkey.symm.trans hother
      cases hfound.symm.trans hd
      cases hbody.symm.trans hinstance
      exact h
  · exact .generic hkey hfound hparams hbody

end References

end Schemata
