import Mathlib.Data.List.Nodup
import Schemata.Proofs.Inhabitation
import Schemata.Proofs.Termination

/-!
# The structural core

`Core` describes the types of the structural core: predefined types, literals, arrays, tuples,
unions, intersections, objects, records of texts and references, all without tags. `CoreProgram`
describes the programs of such types. In an environment, `Environment.close` is the substitution
that the bindings stand for: `bind_types_close` says that entering a generic declaration is
replacing its parameters, and `resolve_core` that a type and what it leads to have the same values.
-/

namespace Schemata

open List

variable {params : List GenericParameter} {given : List TypeExpr} {known : Key → Value → Prop}
  {key : Key}

/-- The keys of parameters. -/
abbrev Scope := Key → Bool

/-- The scope with one more parameter. -/
def Scope.add (scope : Scope) (name : Name) : Scope :=
  fun key => decide (name.key? = some key) || scope key

/-- A name that no parameter has. -/
def Unbound (scope : Scope) (name : Name) : Prop :=
  ∀ key, name.key? = some key → scope key = false

namespace Environment

mutual

/-- What bound parameters stand for, with all parameters replaced. -/
def close : Environment → Substitution
  | .mk _ bindings => closeIn bindings

/-- What the binding of a key, if there is one, stands for. -/
def closeIn : List (Binding Environment) → Substitution
  | [] => fun _ => none
  | ⟨name, type, environment⟩ :: rest => fun key =>
    if name.key? = some key then some (type.instantiate (close environment))
    else closeIn rest key

end

/-- The keys of the bound parameters. -/
def scope (environment : Environment) : Scope :=
  fun key => (environment.binding? key).isSome

theorem close_in_eq (bindings : List (Binding Environment)) (key : Key) :
    closeIn bindings key =
      (bindings.find? fun b => b.name.key? = some key).map fun b =>
        b.type.instantiate b.environment.close := by
  induction bindings with
  | nil => rfl
  | cons b rest ih =>
    obtain ⟨name, t, env⟩ := b
    by_cases h : name.key? = some key
    · simp [closeIn, h]
    · simp [closeIn, h, ih]

/-- A bound parameter stands for the type of its binding. -/
theorem close_eq (env : Environment) (key : Key) :
    env.close key = (env.binding? key).map fun b => b.type.instantiate b.environment.close := by
  obtain ⟨depth, bindings⟩ := env
  exact close_in_eq bindings key

/-- What is found after a binding was put among others. -/
theorem find_put_binding {added : Binding Environment} (hadded : added.name.key? = some key)
    (bindings : List (Binding Environment)) (other : Key) :
    ∃ name, ((putBinding key added bindings).find? fun b =>
        b.name.key? = some other) =
      if other = key then some ⟨name, added.type, added.environment⟩
      else bindings.find? fun b => b.name.key? = some other := by
  induction bindings with
  | nil =>
    refine ⟨added.name, ?_⟩
    by_cases h : other = key
    · simp [putBinding, hadded, h]
    · simp [putBinding, hadded, h, Ne.symm h]
  | cons first rest ih =>
    obtain ⟨name, hn⟩ := ih
    by_cases ha : first.name.key? = some key
    · refine ⟨first.name, ?_⟩
      by_cases h : other = key
      · simp [putBinding, ha, h]
      · simp [putBinding, ha, h, Ne.symm h]
    · refine ⟨name, ?_⟩
      by_cases hother : first.name.key? = some other
      · have hne : other ≠ key := fun h => ha (h ▸ hother)
        simp [putBinding, hother, hne]
      · simp [putBinding, ha, hother, hn]

variable {env read bound : Environment} {name : Name} {t : TypeExpr}

/-- The binding of a key after one more parameter was bound. -/
theorem binding_of_bind (h : env.bind name t read = .ok bound) (key : Key) :
    (name.key? = some key ∧ ∃ spelled, bound.binding? key = some ⟨spelled, t, read⟩) ∨
    (name.key? ≠ some key ∧ bound.binding? key = env.binding? key) := by
  obtain ⟨own, hn, h⟩ := bind_eq_ok_iff.1 h
  cases h
  have hown : name.key? = some own := Program.key?_of_key hn
  obtain ⟨spelled, hfind⟩ := @find_put_binding own ⟨name, t, read⟩ hown env.bindings key
  by_cases hk : key = own
  · subst hk
    exact .inl ⟨hown, spelled, hfind.trans (if_pos rfl)⟩
  · refine .inr ⟨fun heq => hk ?_, hfind.trans (if_neg hk)⟩
    exact Option.some.inj (heq.symm.trans hown)

/-- Binding one more parameter is replacing one more. -/
theorem close_bind (h : env.bind name t read = .ok bound) :
    bound.close = env.close.bind name (t.instantiate read.close) := by
  funext key
  rw [close_eq, Substitution.bind]
  rcases binding_of_bind h key with ⟨hk, spelled, hb⟩ | ⟨hk, hb⟩
  · rw [hb, if_pos hk, Option.map_some]
  · rw [hb, if_neg hk, close_eq]

theorem scope_bind (h : env.bind name t read = .ok bound) : bound.scope = env.scope.add name := by
  funext key
  unfold scope Scope.add
  rcases binding_of_bind h key with ⟨hk, spelled, hb⟩ | ⟨hk, hb⟩
  · simp [hb, hk]
  · simp [hb, hk]

theorem binding_of_unbound (h : Unbound env.scope name) (hk : name.key? = some key) :
    env.binding? key = none := by
  have hscope : (env.binding? key).isSome = false := h key hk
  exact Option.isNone_iff_eq_none.1 (Option.isSome_eq_false_iff.1 hscope)

/-- A name that is not bound is not replaced. -/
theorem instantiate_unbound (h : Unbound env.scope name) (args : List TypeExpr) :
    (TypeExpr.reference name args).instantiate env.close =
      .reference name (args.map (TypeExpr.instantiate env.close)) := by
  have hnone : name.key?.bind env.close = none := by
    cases hk : name.key? with
    | none => rfl
    | some => rw [Option.bind_some, close_eq, binding_of_unbound h hk, Option.map_none]
  rw [TypeExpr.instantiate, hnone, TypeExpr.instantiate_all_eq]

/-- A bound name is replaced by the type of its binding. -/
theorem instantiate_bound {b : Binding Environment} (hk : name.key? = some key)
    (hb : env.binding? key = some b) (args : List TypeExpr) :
    (TypeExpr.reference name args).instantiate env.close =
      b.type.instantiate b.environment.close := by
  rw [TypeExpr.instantiate, hk, Option.bind_some, close_eq, hb, Option.map_some]

end Environment

/-- The parameters that are entered with a declaration are replaced by its arguments. -/
theorem Program.bind_types_close {caller inner bound : Environment}
    (h : bindTypes caller params given inner = .ok bound) :
    bound.close = bindArguments params (given.map (TypeExpr.instantiate caller.close))
      inner.close := by
  fun_induction bindTypes caller params given inner with
  | case1 =>
    cases h
    rfl
  | case2 _ _ _ _ _ ih | case3 _ _ _ _ _ ih =>
    obtain ⟨next, hbind, h⟩ := bind_eq_ok_iff.1 h
    rw [ih next h, Environment.close_bind hbind]
    rfl
  | case4 name limit rest inner ih => rw [ih h, map_nil, bindArguments]

/-- The predefined types of the core. -/
def Keyword.core : List Keyword :=
  [.string, .number, .boolean, .any, .unknown, .never, .undefined, .void]

/-- The types of the structural core, in the scope of parameters. A reference to a generic
declaration gives arguments to the parameters without a default; `elided` says whether it may leave
out all of them. -/
inductive Core (program : Program) (elided : Bool) (scope : Scope) : TypeExpr → Prop where
  | keyword {keyword} (h : keyword ∈ Keyword.core) : Core program elided scope (.keyword keyword)
  | literal {json value} (h : Value.ofJson? json = some value) :
      Core program elided scope (.literal json)
  | array {element} (h : Core program elided scope element) :
      Core program elided scope (.array element)
  | tuple {slots} (h : ∀ slot ∈ slots, Core program elided scope slot) :
      Core program elided scope (.tuple slots)
  | restTuple {slots rest} (h : ∀ slot ∈ slots, Core program elided scope slot)
      (hrest : Core program elided scope rest) :
      Core program elided scope (.tuple (slots ++ [.spread rest]))
  | union {arms} (hsome : arms ≠ []) (h : ∀ arm ∈ arms, Core program elided scope arm) :
      Core program elided scope (.union arms)
  | intersection {arms} (hsome : arms ≠ []) (h : ∀ arm ∈ arms, Core program elided scope arm) :
      Core program elided scope (.intersection arms)
  /-- The members have types, different names and no tags, and any text is a key. -/
  | object {members : List (Member TypeExpr)} {index} (hnames : (members.map Member.name).Nodup)
      (htyped : ∀ member ∈ members, member.type.isSome)
      (htags : ∀ member ∈ members, member.tags = [])
      (hmembers : ∀ member ∈ members, ∀ type ∈ member.type, Core program elided scope type)
      (hkeys : ∀ signature ∈ index, ∀ type ∈ signature.keyType, type.unwrap = .keyword .string)
      (hindex : ∀ signature ∈ index, ∀ type ∈ signature.type, Core program elided scope type) :
      Core program elided scope (.object members index)
  | paren {type} (h : Core program elided scope type) : Core program elided scope (.paren type)
  | parameter {name : Name} {key} (hkey : name.key? = some key) (hscope : scope key = true) :
      Core program elided scope (.reference name [])
  | arrayOf {name element} (hname : Builtin.ofName? name = some .array)
      (hscope : Unbound scope name) (h : Core program elided scope element) :
      Core program elided scope (.reference name [element])
  | readonly {name type} (hname : Builtin.ofName? name = some .readonly)
      (hscope : Unbound scope name) (h : Core program elided scope type) :
      Core program elided scope (.reference name [type])
  | record {name} {key : TypeExpr} {type} (hname : Builtin.ofName? name = some .record)
      (hscope : Unbound scope name) (hkey : key.unwrap = .keyword .string)
      (h : Core program elided scope type) : Core program elided scope (.reference name [key, type])
  | named {declaration : Declaration} (hfound : declaration ∈ program.unit.declarations)
      (hscope : Unbound scope declaration.name) (hparameters : declaration.parameters = []) :
      Core program elided scope (.reference declaration.name [])
  | generic {declaration : Declaration} {arguments : List TypeExpr}
      (hfound : declaration ∈ program.unit.declarations)
      (hscope : Unbound scope declaration.name) (hparameters : declaration.parameters ≠ [])
      (hsome : elided = true ∨ arguments ≠ [])
      (hdefaults : ∀ parameter ∈ declaration.parameters.drop arguments.length,
        parameter.default.isSome)
      (h : ∀ argument ∈ arguments, Core program elided scope argument) :
      Core program elided scope (.reference declaration.name arguments)

/-- The defaults of parameters are in the core, each in the scope of the parameters before it. -/
def CoreDefaults (program : Program) (elided : Bool) : Scope → List GenericParameter → Prop
  | _, [] => True
  | scope, parameter :: rest =>
    (∀ type ∈ parameter.default, Core program elided scope type) ∧
      CoreDefaults program elided (scope.add parameter.name) rest

/-- The scope of the body of a declaration. -/
def scopeOf (parameters : List GenericParameter) : Scope :=
  parameters.foldl (fun scope parameter => scope.add parameter.name) fun _ => false

/-- The tags of a declaration. -/
def Declaration.tags : Declaration → Tags
  | .interface declared => declared.tags
  | .typeAlias declared => declared.tags
  | .enumeration declared => declared.tags

/-- A declaration of the core, which is no enumeration and extends no other. -/
structure CoreDeclaration (program : Program) (elided : Bool) (declaration : Declaration) :
    Prop where
  key : ∃ key, declaration.name.key? = some key
  name : Builtin.ofName? declaration.name = none
  tags : declaration.tags = []
  defaults : CoreDefaults program elided (fun _ => false) declaration.parameters
  body : ∃ body, declaration.body? = some body ∧
    Core program elided (scopeOf declaration.parameters) body

/-- The key of the schema of a declaration. -/
def Program.schemaKey? (program : Program) (declaration : Declaration) : Option Key :=
  match program.settings.nameOf declaration.name with
  | .ok name => name.key?
  | .error _ => none

/-- A program of the core: no type has a special meaning, and different declarations have different
names, and schemas of different names. -/
structure CoreProgram (program : Program) (elided : Bool) : Prop where
  declarations : ∀ declaration ∈ program.unit.declarations,
    CoreDeclaration program elided declaration
  distinct : (program.unit.declarations.map fun declaration => declaration.name.key?).Nodup
  maybe : ∃ maybe, program.settings.maybe = some maybe ∧ maybe.typeNames = []
  named : ∀ declaration ∈ program.unit.declarations, ∃ key,
    program.schemaKey? declaration = some key
  naming : ∀ first ∈ program.unit.declarations, ∀ second ∈ program.unit.declarations,
    program.schemaKey? first = program.schemaKey? second → first.name = second.name

/-- What parameters are bound to is in the core. -/
inductive Environment.InCore (program : Program) (elided : Bool) : Environment → Prop where
  | intro {environment : Environment}
      (types : ∀ binding ∈ environment.bindings,
        Core program elided binding.environment.scope binding.type)
      (environments : ∀ binding ∈ environment.bindings,
        InCore program elided binding.environment) : InCore program elided environment

section Environments

variable {p : Program} {elided : Bool} {env caller inner bound : Environment} {t : TypeExpr}

/-- An environment at the start of an instantiation is in the core. -/
theorem in_core_enter : env.enter.InCore p elided :=
  .intro (fun _ h => nomatch h) fun _ h => nomatch h

/-- One more binding of the core keeps an environment in the core. -/
theorem in_core_bind {read : Environment} {name : Name} (henv : env.InCore p elided)
    (hread : read.InCore p elided) (ht : Core p elided read.scope t)
    (hbind : env.bind name t read = .ok bound) : bound.InCore p elided := by
  cases henv with
  | intro types environments =>
    constructor <;> intro b hb <;>
      rcases Environment.mem_bind hbind hb with ⟨rfl, rfl⟩ | hold
    · exact ht
    · exact types b hold
    · exact hread
    · exact environments b hold

/-- The body of a declaration is compiled in the scope of its parameters, bound in the core. -/
theorem in_core_bind_types (hcaller : caller.InCore p elided)
    (hgiven : ∀ arg ∈ given, Core p elided caller.scope arg)
    (hsupplied : ∀ param ∈ params.drop given.length, param.default.isSome)
    (hdefaults : CoreDefaults p elided inner.scope params) (hi : inner.InCore p elided)
    (h : Program.bindTypes caller params given inner = .ok bound) :
    bound.InCore p elided ∧
      bound.scope = params.foldl (fun scope param => scope.add param.name) inner.scope := by
  fun_induction Program.bindTypes caller params given inner with
  | case1 =>
    cases h
    exact ⟨hi, rfl⟩
  | case2 param rest arg others inner ih =>
    obtain ⟨-, hr⟩ := hdefaults
    obtain ⟨next, hbind, h⟩ := bind_eq_ok_iff.1 h
    have hscope := Environment.scope_bind hbind
    rw [foldl_cons, ← hscope]
    rw [← hscope] at hr
    exact ih next (forall_mem_cons.1 hgiven).2 hsupplied
      hr (in_core_bind hi hcaller (hgiven _ mem_cons_self) hbind) h
  | case3 name limit t rest inner ih =>
    obtain ⟨ht, hr⟩ := hdefaults
    obtain ⟨next, hbind, h⟩ := bind_eq_ok_iff.1 h
    have hscope := Environment.scope_bind hbind
    rw [foldl_cons, ← hscope]
    rw [← hscope] at hr
    exact ih next hgiven (forall_mem_cons.1 hsupplied).2
      hr (in_core_bind hi hi (ht t rfl) hbind) h
  | case4 =>
    -- A parameter without a default has an argument.
    cases hsupplied _ mem_cons_self

/-- A type of the core in parentheses is in the core. -/
theorem Core.unwrap {scope : Scope} (h : Core p elided scope t) : Core p elided scope t.unwrap := by
  fun_induction TypeExpr.unwrap t with
  | case1 t ih =>
    cases h with
    | paren h => exact ih h
  | case2 => exact h

/-- What a type of the core leads to is in the core and has the same values. -/
theorem resolve_core {found : TypeExpr} (henv : env.InCore p elided)
    (ht : Core p elided env.scope t) (h : env.resolve t = .ok (found, inner)) :
    inner.InCore p elided ∧ Core p elided inner.scope found ∧
      ∀ v, Belongs p known (found.instantiate inner.close) v ↔
        Belongs p known (t.instantiate env.close) v := by
  -- Along the environments of bindings: resolving a parameter goes on where it was bound.
  induction henv generalizing t with
  | @intro env types environments ih =>
    rcases Environment.resolve_cases h with ⟨rfl, rfl⟩ | ⟨name, key, b, rfl, hk, hb, h⟩
    · exact ⟨.intro types environments, ht, fun _ => Iff.rfl⟩
    · have hmem := mem_of_find?_eq_some hb
      obtain ⟨hi, hf, hvalues⟩ := ih b hmem (types b hmem).unwrap h
      refine ⟨hi, hf, fun v => ?_⟩
      rw [hvalues, belongs_instantiate_unwrap,
        Environment.instantiate_bound (Program.key?_of_key hk) hb]

end Environments

section Programs

variable {p : Program} {elided : Bool} {name : Name}

/-- A name with a key can be looked up. -/
theorem key_of_key? {name : Name} (h : name.key? = some key) : name.key = .ok key := by
  rw [Json.key, h]

/-- The key of a text is the key of no other value. -/
theorem eq_text_of_key {v : Json} {text : String} (h : v.key? = some (.text text)) :
    v = .str text := by
  cases v with
  | str =>
    cases h
    rfl
  | float =>
    simp only [Json.key?] at h
    split at h <;> cases h
  | _ => cases h

/-- The names under which arrays can be written are those of the known type. -/
theorem builtin_of_array_name (h : name.isOneOf arrayNames = true) :
    Builtin.ofName? name = some .array := by
  cases name with
  | str text =>
    have hnames : text = "Array" ∨ text = "ReadonlyArray" := by
      simpa [Json.isOneOf, arrayNames, Json.isText, Json.text?] using h
    rcases hnames with rfl | rfl
    · decide
    · decide
  | _ => cases h

namespace CoreProgram

variable (hprogram : CoreProgram p elided) {decl : Declaration}

include hprogram

/-- A declaration is the only one of its name. -/
theorem eq_of_key {a b : Declaration} (ha : a ∈ p.unit.declarations)
    (hsecond : b ∈ p.unit.declarations) (h : a.name.key? = b.name.key?) :
    a = b := inj_on_of_nodup_map hprogram.distinct ha hsecond h

/-- A declaration is found under its name. -/
theorem declaration_eq (hf : decl ∈ p.unit.declarations) (hk : decl.name.key? = some key) :
    p.declaration? key = some decl := by
  cases h : p.declaration? key with
  | none =>
    have hother := find?_eq_none.1 h decl hf
    simp [hk] at hother
  | some other =>
    have hother : other.name.key? = some key := by simpa using find?_some h
    rw [hprogram.eq_of_key (mem_of_find?_eq_some h) hf (hother.trans hk.symm)]

/-- Nothing is declared under the name of a known type. -/
theorem undeclared {builtin : Builtin} (h : Builtin.ofName? name = some builtin) :
    Undeclared p name := by
  intro key hk
  obtain ⟨text, rfl, -⟩ := Builtin.mem_names_of_name h
  cases hf : p.declaration? key with
  | none => rfl
  | some decl =>
    have hd : decl.name.key? = some key := by simpa using find?_some hf
    cases hk
    have hn := (hprogram.declarations _ (mem_of_find?_eq_some hf)).name
    rw [eq_text_of_key hd, h] at hn
    cases hn

/-- No name has a special meaning. -/
theorem not_maybe (hk : name.key = .ok key) : p.settings.isMaybeName name = .ok false := by
  obtain ⟨maybe, hmaybe, hnames⟩ := hprogram.maybe
  rw [Settings.isMaybeName, hmaybe]
  simp [hk, hnames, Bind.bind, Except.bind, pure, Except.pure]

/-- No declaration has a special meaning. -/
theorem not_reserved (hf : decl ∈ p.unit.declarations) : p.reserved? (some decl) = .ok none := by
  obtain ⟨key, hk⟩ := (hprogram.declarations decl hf).key
  cases decl with
  | interface d =>
    have hn : d.name.key = .ok key := key_of_key? hk
    rw [Program.reserved?, hprogram.not_maybe hn]
    rfl
  | _ => rfl

/-- What a type of the core is spread to is in the core, and its values are the arrays of the
values of that. -/
theorem belongs_elements {env inner : Environment} {t elt : TypeExpr} (henv : env.InCore p elided)
    (ht : Core p elided env.scope t) (h : Program.elementType env t = .ok (some (elt, inner))) :
    inner.InCore p elided ∧ Core p elided inner.scope elt ∧
      ∀ v, Belongs p known (t.instantiate env.close) v ↔
        ∃ xs, v = .array xs ∧ ∀ x ∈ xs, Belongs p known (elt.instantiate inner.close) x := by
  unfold Program.elementType at h
  cases hres : env.resolve t with
  | error => simp [hres, Except.map] at h
  | ok reached =>
    obtain ⟨found, read⟩ := reached
    have helt : Program.elementOf? read found = some (elt, inner) := by
      simpa [hres, Except.map] using h
    obtain ⟨hread, hf, hvalues⟩ := resolve_core henv ht hres
    have hun := hf.unwrap
    unfold Program.elementOf? at helt
    split at helt
    · rename_i part hpart
      cases helt
      rw [hpart] at hun
      cases hun with
      | array hcore =>
        refine ⟨hread, hcore, fun v => ?_⟩
        rw [← hvalues, ← belongs_instantiate_unwrap, hpart, TypeExpr.instantiate, belongs_array]
    · rename_i name a rest hpart
      split at helt
      · rename_i harray
        cases helt
        rw [hpart] at hun
        have hn := builtin_of_array_name harray
        cases hun with
        | arrayOf _ hscope hcore =>
          refine ⟨hread, hcore, fun v => ?_⟩
          rw [← hvalues, ← belongs_instantiate_unwrap, hpart,
            Environment.instantiate_unbound hscope]
          exact belongs_array_of hn (hprogram.undeclared hn)
        | readonly hother | record hother => rw [hn] at hother; cases hother
        | generic hd =>
          rw [(hprogram.declarations _ hd).name] at hn
          cases hn
      · cases helt
    · cases helt

end CoreProgram

end Programs

end Schemata
