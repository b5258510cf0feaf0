import Mathlib.Data.List.Chain
import Schemata.Generation
import Schemata.Proofs.Lookup
import Schemata.Proofs.Stepwise

/-!
# Instantiations inside of one another

`Nests` is the graph of the declarations that are compiled in place of a reference: an edge leads
from one to another when the other is referred to inside of the first. The depth of an environment
counts the declarations that a compilation is inside of, and `Homed` says that these make up a path
of the graph, for the environment itself and for those in which arguments are read. An argument is
read where it is written, so arguments inside of one another make no path longer, and
`depth_limit_only_stops_recursion` says that a limit which no path exceeds stops nothing.
-/

namespace Schemata

open List
open Traced (bind_ok_iff lift_ok_iff)

variable {middle inner type : TypeExpr} {error : CompileError} {decl : Declaration}

/-- The type is the other one or written inside of it. -/
def TypeExpr.In (inner type : TypeExpr) : Prop :=
  inner = type ∨ inner.Within type

/-- What is inside of a type is inside of what that is inside of. -/
theorem TypeExpr.Within.trans (h : inner.Within middle) (hmiddle : middle.Within type) :
    inner.Within type := by
  induction hmiddle with
  | part hpart => exact .deeper h hpart
  | deeper hi hpart ih => exact .deeper ih hpart

theorem TypeExpr.In.within (h : inner.In middle) (hmiddle : middle.Within type) :
    inner.In type := by
  rcases h with rfl | h
  · exact .inr hmiddle
  · exact .inr (h.trans hmiddle)

/-- A type is another one or written inside of one of its parts. -/
theorem TypeExpr.in_iff : inner.In type ↔ inner = type ∨ ∃ part ∈ type.parts, inner.In part := by
  constructor
  · rintro (h | h)
    · exact .inl h
    · cases h with
      | part h => exact .inr ⟨_, h, .inl rfl⟩
      | deeper hi h => exact .inr ⟨_, h, .inr hi⟩
  · rintro (h | ⟨part, hpart, h⟩)
    · exact .inl h
    · exact h.within (.part hpart)

/-- The types that are written in a declaration: those of its body and the defaults of its
parameters. -/
def Declaration.types (declaration : Declaration) : List TypeExpr :=
  declaration.bodyTypes ++ declaration.defaults

namespace Program

section Graph

variable (program : Program)

/-- A declaration of the unit that is compiled in place of the references to it. -/
def IsNode (declaration : Declaration) : Prop :=
  declaration ∈ program.unit.declarations ∧ program.IsEntered declaration

/-- A type that is written in the outer declaration has a reference to the inner one. -/
def Nests (outer inner : Declaration) : Prop :=
  ∃ type ∈ outer.types, ∃ name arguments, (TypeExpr.reference name arguments).In type ∧
    program.find name = .ok (some inner)

/-- Declarations, each of which is referred to in the one before it. Any of them can come back. -/
structure IsPath (path : List Declaration) : Prop where
  nodes : ∀ declaration ∈ path, program.IsNode declaration
  edges : path.IsChain program.Nests

/-- The limit allows so many declarations inside of one another. A limit that cannot be compared
with any number is none; it makes every instantiation fail. -/
def Allows (count : Nat) : Prop :=
  match program.settings.limit with
  | .atMost bound => count ≤ bound
  | .unlimited => count ≤ freeNestings
  | .incomparable => True

end Graph

variable {p : Program} {path : List Declaration} {env : Environment}

section Paths

variable {name : Name} {args : List TypeExpr}

/-- All references in a type are written in the last declaration of a path. -/
def Written (path : List Declaration) (type : TypeExpr) : Prop :=
  ∀ declaration ∈ path.getLast?, ∀ name arguments, (TypeExpr.reference name arguments).In type →
    ∃ written ∈ declaration.types, (TypeExpr.reference name arguments).In written

theorem Written.within {part : TypeExpr} (h : Written path type) (hpart : part.Within type) :
    Written path part :=
  fun decl hlast name args href =>
    h decl hlast name args (href.within hpart)

theorem Written.unwrap (h : Written path type) : Written path type.unwrap := by
  fun_induction TypeExpr.unwrap type with
  | case1 type ih => exact ih (h.within (.part (mem_singleton.2 rfl)))
  | case2 => exact h

/-- The type of any value has no references. -/
theorem written_any : Written path (.keyword .any) := by
  intro decl hlast name args href
  rcases TypeExpr.in_iff.1 href with h | ⟨part, hpart, -⟩
  · cases h
  · cases hpart

/-- What is written in a declaration is written in the last one of a path to it. -/
theorem written_of_mem (h : type ∈ decl.types) : Written (path ++ [decl]) type := by
  intro last hlast name args href
  rw [getLast?_concat] at hlast
  cases hlast
  exact ⟨type, h, href⟩

/-- The declarations that a compilation is inside of make up a path, and so do those around every
bound type. -/
inductive Homed (program : Program) : List Declaration → Environment → Prop where
  | intro {path : List Declaration} {environment : Environment}
      (paths : Binding Environment → List Declaration) (hpath : program.IsPath path)
      (hdepth : environment.depth = path.length)
      (hwritten : ∀ binding ∈ environment.bindings, Written (paths binding) binding.type)
      (hhomed : ∀ binding ∈ environment.bindings,
        Homed program (paths binding) binding.environment) : Homed program path environment

theorem Homed.is_path (h : p.Homed path env) : p.IsPath path := by
  cases h with
  | intro paths hpath => exact hpath

theorem Homed.depth (h : p.Homed path env) : env.depth = path.length := by
  cases h with
  | intro paths hpath hdepth => exact hdepth

theorem Homed.binding (h : p.Homed path env) {b : Binding Environment} (hb : b ∈ env.bindings) :
    ∃ around, Written around b.type ∧ p.Homed around b.environment := by
  cases h with
  | intro paths hpath hdepth hwritten hhomed =>
    exact ⟨paths b, hwritten b hb, hhomed b hb⟩

theorem homed_of_bindings (hpath : p.IsPath path) (hdepth : env.depth = path.length)
    (h : ∀ b ∈ env.bindings, ∃ around, Written around b.type ∧ p.Homed around b.environment) :
    p.Homed path env := by
  choose! paths hwritten hhomed using h
  exact .intro paths hpath hdepth hwritten hhomed

/-- Nothing is around a compilation that starts. -/
theorem homed_empty : p.Homed [] .empty :=
  homed_of_bindings ⟨fun _ h => (by cases h), .nil⟩ rfl fun _ h => by cases h

theorem homed_bind {read bound : Environment} {around : List Declaration}
    (h : p.Homed path env) (hread : p.Homed around read) (ht : Written around type)
    (hbind : env.bind name type read = .ok bound) : p.Homed path bound := by
  refine homed_of_bindings h.is_path (by rw [Environment.depth_bind hbind, h.depth]) fun b hb => ?_
  rcases Environment.mem_bind hbind hb with ⟨rfl, rfl⟩ | hold
  · exact ⟨around, ht, hread⟩
  · exact h.binding hold

/-- A type leads to one that is written in the last declaration of a path of its own. -/
theorem Homed.resolve {inner : Environment} {found : TypeExpr} (h : p.Homed path env)
    (ht : Written path type) (hres : env.resolve type = .ok (found, inner)) :
    ∃ around, Written around found ∧ p.Homed around inner := by
  induction h generalizing type with
  | @intro path env paths hpath hdepth hwritten hhomed ih =>
    rcases Environment.resolve_cases hres with ⟨rfl, rfl⟩ | ⟨_, _, b, -, -, hb, hres⟩
    · exact ⟨path, ht, .intro paths hpath hdepth hwritten hhomed⟩
    · have hmem := mem_of_find?_eq_some hb
      exact ih b hmem (hwritten b hmem).unwrap hres

/-- A path goes on to what is referred to in its last declaration. -/
theorem IsPath.concat (h : p.IsPath path) (hwritten : Written path (.reference name args))
    (hfind : p.find name = .ok (some decl)) (hentered : p.IsEntered decl) :
    p.IsPath (path ++ [decl]) := by
  constructor
  · intro node hnode
    rcases mem_append.1 hnode with hnode | hnode
    · exact h.nodes node hnode
    · cases mem_singleton.1 hnode
      exact ⟨mem_of_find hfind, hentered⟩
  · refine isChain_append.2 ⟨h.edges, .singleton _, fun last hlast inner hi => ?_⟩
    cases hi
    obtain ⟨type, ht, href⟩ := hwritten last hlast name args (.inl rfl)
    exact ⟨type, ht, name, args, href, hfind⟩

/-- A declaration that is entered is at the end of the path of its environment. -/
theorem homed_of_entered {caller inner : Environment} (hcaller : p.Homed path caller)
    (hargs : ∀ arg ∈ args, Written path arg) (hpath : p.IsPath (path ++ [decl]))
    (h : Entered decl caller args inner) : p.Homed (path ++ [decl]) inner := by
  induction h with
  | enter =>
    refine homed_of_bindings hpath ?_ fun _ h => by cases h
    rw [length_append, length_singleton, ← hcaller.depth]
    rfl
  | argument hi harg hbind ih =>
    exact homed_bind ih hcaller (hargs _ harg) hbind
  | default hi hdefault hbind ih =>
    exact homed_bind ih ih (written_of_mem (mem_append_right _ hdefault)) hbind
  | without hi ih =>
    exact homed_of_bindings hpath ih.depth fun b hb =>
      ih.binding (Environment.mem_without hb)

/-- The jobs that a type asks for are for types that are written at the ends of paths. -/
theorem homed_of_asked {job : Job} (henv : p.Homed path env) (ht : Written path type)
    (h : p.Asked env type job) :
    ∃ around, Written around job.type ∧ p.Homed around job.environment := by
  cases h with
  | part hpart => exact ⟨path, ht.within hpart, henv⟩
  | any => exact ⟨path, written_any, henv⟩
  | bound hb => exact henv.binding hb
  | spread hspread helt =>
    obtain ⟨found, hres, hpart⟩ := resolve_of_element helt
    obtain ⟨around, hf, hi⟩ := henv.resolve (ht.within hspread) hres
    exact ⟨around, hf.within (TypeExpr.within_of_mem_parts_unwrap hpart), hi⟩
  | body href hfind hentered hleft hi hpart =>
    subst href
    have hpath := henv.is_path.concat ht hfind hentered
    refine ⟨_, ?_, homed_of_entered henv (fun arg harg => ht.within (.part harg)) hpath hi⟩
    rcases hpart with hpart | rfl
    · exact written_of_mem (mem_append_left _ hpart)
    · exact written_any

end Paths

end Program

/-- The failure is due to the limit on the depth of instantiations. -/
def Failure.IsTooDeep (failure : Failure) : Prop :=
  ∃ name limit, failure = .compile (.genericDepth name limit)

/-- The computation is not stopped by the limit on the depth of instantiations. -/
def Traced.Unstopped {α : Type} (computation : Compilation α) : Prop :=
  ∀ failure, computation.result = .error failure → ¬failure.IsTooDeep

/-- The result is not a failure that is due to the limit. -/
def NotTooDeep {α : Type} (result : Except Failure α) : Prop :=
  ∀ failure, result = .error failure → ¬failure.IsTooDeep

section Unstopped

variable {α β : Type} {next : α → Compilation β} {a : Compilation α}

theorem not_too_deep_lift (v : Except Fault α) : NotTooDeep (liftM v : Except Failure α) := by
  rintro failure h ⟨name, limit, rfl⟩
  cases v <;> cases h

theorem not_too_deep_bind {a : Except Failure α} {next : α → Except Failure β} (ha : NotTooDeep a)
    (hnext : ∀ v, NotTooDeep (next v)) : NotTooDeep (a >>= next) := by
  cases a with
  | ok v => exact hnext v
  | error failure =>
    intro other h
    cases h
    exact ha failure rfl

/-- What comes first is not stopped when the whole is not. -/
theorem Traced.Unstopped.of_bind (h : (a >>= next).Unstopped) : a.Unstopped := by
  intro failure hfailure
  obtain ⟨trace, result⟩ := a
  cases hfailure
  exact h failure rfl

/-- What comes after a value is not stopped when the whole is not. -/
theorem Traced.Unstopped.after {v : α}
    (h : (a >>= next).Unstopped) (hv : a.result = .ok v) : (next v).Unstopped := by
  intro failure hfailure
  obtain ⟨trace, result⟩ := a
  cases hv
  exact h failure hfailure

theorem unstopped_pure (v : α) : (pure v : Compilation α).Unstopped := fun _ h => by cases h

theorem unstopped_fault (fault : Fault) :
    (Traced.fail (.fault fault) : Compilation α).Unstopped := by
  rintro failure h ⟨name, limit, rfl⟩
  cases h

/-- A rejection for another reason is not due to the limit. -/
theorem unstopped_reject (h : ∀ name limit, error ≠ .genericDepth name limit) :
    (Compilation.reject error : Compilation α).Unstopped := by
  rintro failure hfailure ⟨name, limit, rfl⟩
  exact h name limit (by cases hfailure; rfl)

theorem unstopped_lift (v : Except Fault α) : (liftM v : Compilation α).Unstopped := by
  cases v with
  | ok v => exact unstopped_pure v
  | error fault => exact unstopped_fault fault

theorem unstopped_emit (event : Event) : (Traced.emit event : Compilation Unit).Unstopped :=
  fun _ h => by cases h

/-- One computation after another is not stopped if neither is. -/
theorem unstopped_bind (ha : a.Unstopped)
    (hnext : ∀ v, a.result = .ok v → (next v).Unstopped) : (a >>= next).Unstopped := by
  obtain ⟨trace, result⟩ := a
  cases result with
  | ok v => exact hnext v rfl
  | error failure =>
    intro other h
    cases h
    exact ha failure rfl

/-- What comes after a warning or a notice is stopped if anything is. -/
theorem unstopped_after {event : Event} {next : Unit → Compilation β}
    (hnext : (next ()).Unstopped) : (Traced.emit event >>= next).Unstopped :=
  unstopped_bind (unstopped_emit event) fun _ _ => hnext

end Unstopped

namespace Program

theorem literal_keys_unstopped (proj : String) (read : Option Environment)
    (arms : List TypeExpr) : NotTooDeep (literalKeys proj read arms) := by
  induction arms with
  | nil => exact fun _ h => by cases h
  | cons arm rest ih =>
    refine not_too_deep_bind (not_too_deep_lift _) fun found => ?_
    obtain ⟨found, inner⟩ := found
    dsimp only
    split
    · exact not_too_deep_bind ih fun keys _ h => by cases h
    · rintro failure h ⟨name, limit, rfl⟩
      cases h

theorem projection_keys_unstopped (proj : String) (keys : Option TypeExpr)
    (read : Option Environment) : NotTooDeep (projectionKeys proj keys read) := by
  cases keys with
  | none =>
    rintro failure h ⟨name, limit, rfl⟩
    cases h
  | some =>
    refine not_too_deep_bind (not_too_deep_lift _) fun found => ?_
    obtain ⟨found, inner⟩ := found
    dsimp only
    split <;> exact literal_keys_unstopped _ _ _

theorem project_unstopped (target : Schema) (proj : String) (keys : Option TypeExpr)
    (read : Option Environment) :
    (liftM (project target proj keys read) : Compilation Schema).Unstopped :=
  not_too_deep_bind (projection_keys_unstopped _ _ _) fun _ _ h => by cases h

theorem hides_unstopped (c : Heritage) (key : Json) :
    (liftM (hides c key) : Compilation Bool).Unstopped := by
  unfold hides
  split
  · exact unstopped_pure _
  · exact not_too_deep_bind (projection_keys_unstopped _ _ _) fun _ _ h => by cases h

end Program

/-- Lookups are not stopped. -/
def unstoppably : Stepwise where
  holds := Traced.Unstopped
  holds_pure := unstopped_pure
  holds_warn _ := unstopped_emit _
  holds_note _ := unstopped_emit _
  holds_lift := unstopped_lift
  holds_hides := Program.hides_unstopped
  holds_fault := unstopped_fault
  holds_reject := unstopped_reject
  holds_project := Program.project_unstopped
  holds_bind := unstopped_bind

namespace Program

variable {p : Program} {env : Environment}

section Steps

theorem reference_unstopped (name : Name) : (p.reference name).Unstopped :=
  unstopped_bind (unstopped_lift _) fun _ _ => unstopped_after (unstopped_pure _)

theorem access_chain_unstopped (chain : Chain) (later : List String) :
    (p.accessChain chain later).Unstopped := by
  induction chain generalizing later with
  | root => exact unstoppably.reject_access _
  | broken => exact unstopped_fault _
  | index access key object ih =>
    refine unstopped_bind (unstopped_lift _) fun key _ => ?_
    refine unstopped_bind (unstoppably.check_object _) fun _ _ => ?_
    refine unstopped_bind (unstoppably.segment _ _ _) fun found _ => ?_
    cases found with
    | none => exact unstopped_pure _
    | some =>
      dsimp only
      split
      · exact unstopped_bind (reference_unstopped _) fun _ _ => unstopped_pure _
      · exact ih _

theorem indexed_access_unstopped (read : Option Environment) (access : TypeExpr) :
    (p.indexedAccess read access).Unstopped := by
  unfold indexedAccess
  split
  · exact access_chain_unstopped _ _
  · exact unstopped_fault _

end Steps

section Uses

/-- Where the limit allows one more declaration, nothing is stopped. -/
theorem check_depth_unstopped (h : p.Allows (env.depth + 1)) (name : Name) :
    (p.checkDepth name env).Unstopped := by
  unfold checkDepth
  split
  · rename_i hleft
    unfold Allows at h
    unfold nestingsLeft at hleft
    unfold tooDeep
    cases hlimit : p.settings.limit with
    | incomparable => exact unstopped_fault _
    | atMost | unlimited =>
      rw [hlimit] at h hleft
      dsimp only at h hleft
      omega
  · exact unstopped_pure _

theorem instantiation_unstopped (params : List GenericParameter) (name : Name)
    (args : List TypeExpr) : (instantiation params name args env).Unstopped := by
  refine unstopped_bind (unstopped_lift _) fun _ _ => ?_
  refine unstopped_bind (unstopped_lift _) fun _ _ => ?_
  exact unstopped_after (unstopped_pure _)

theorem reserved_use_unstopped (d : Interface) : (p.reservedUse d env).Unstopped := by
  unfold reservedUse
  split
  · refine unstopped_bind (unstopped_lift _) fun _ _ => ?_
    exact unstopped_bind (unstopped_lift _) fun _ _ => unstopped_pure _
  · exact unstopped_reject fun _ _ h => by cases h

theorem generic_use_unstopped (decl : Declaration) : (p.genericUse env decl).Unstopped := by
  cases decl with
  | enumeration => exact unstopped_fault _
  | typeAlias => exact unstopped_pure _
  | interface =>
    refine unstopped_bind (unstopped_lift _) fun reserved _ => ?_
    cases reserved with
    | none => exact unstopped_pure _
    | some => exact reserved_use_unstopped _

theorem name_use_unstopped (name : Name) (args : List TypeExpr) :
    (p.nameUse id name env args).Unstopped := by
  cases args with
  | nil => exact unstopped_pure _
  | cons =>
    by_cases hdate : Builtin.ofName? name = some .date
    · rw [nameUse, if_pos hdate]
      exact unstopped_pure _
    rw [nameUse, if_neg hdate]
    refine unstopped_bind (unstopped_lift _) fun isMaybe _ => ?_
    split
    · exact unstopped_after (unstopped_pure _)
    · cases Builtin.ofName? name with
      | none =>
        exact unstopped_bind (unstopped_lift _) fun _ _ => unstopped_after (unstopped_pure _)
      | some builtin =>
        cases builtin with
        | record => exact unstopped_bind (unstopped_lift _) fun _ _ => unstopped_pure _
        | _ => exact unstopped_pure _

/-- A reference is stopped only at a declaration that it would enter. -/
theorem use_unstopped {name : Name} {args : List TypeExpr}
    (h : ∀ decl, p.find name = .ok (some decl) → p.IsEntered decl → p.Allows (env.depth + 1)) :
    (p.use env name args).Unstopped := by
  unfold Program.use
  refine unstopped_bind (unstopped_lift _) fun key _ => ?_
  cases env.binding? key with
  | some => exact unstopped_pure _
  | none =>
    refine unstopped_bind (unstopped_lift _) fun found hf => ?_
    have hfind := lift_ok_iff.1 hf
    split
    · rename_i decl hgeneric
      obtain ⟨hdecl, hparams⟩ := Option.filter_eq_some_iff.1 hgeneric
      have hallowed := h decl (hdecl ▸ hfind) (.inl (by simp_all))
      refine unstopped_bind (check_depth_unstopped hallowed _) fun _ _ => ?_
      refine unstopped_bind (instantiation_unstopped _ _ _) fun _ _ => ?_
      exact generic_use_unstopped _
    · refine unstopped_bind (unstopped_lift _) fun reserved hreserved => ?_
      cases reserved with
      | none =>
        exact unstopped_bind (name_use_unstopped _ _) fun _ _ => unstopped_pure _
      | some d =>
        have hspecial := lift_ok_iff.1 hreserved
        rw [eq_of_reserved hspecial] at hfind hspecial
        have hallowed := h _ hfind (.inr ⟨d, hspecial⟩)
        refine unstopped_bind (check_depth_unstopped hallowed _) fun _ _ => ?_
        exact reserved_use_unstopped _

theorem interface_use_unstopped (d : Interface) : (p.interfaceUse d).Unstopped := by
  refine unstopped_bind (unstopped_lift _) fun reserved _ => ?_
  cases reserved with
  | some => exact reserved_use_unstopped _
  | none =>
    dsimp only
    split
    · exact unstopped_pure _
    · exact unstopped_reject fun _ _ h => by cases h

end Uses

/-- The plan of a job is stopped only at a declaration that its type is a reference to. -/
theorem plan_unstopped {job : Job}
    (h : ∀ name args decl, job.type = .reference name args →
      p.find name = .ok (some decl) → p.IsEntered decl →
      p.Allows (job.environment.depth + 1)) : unstoppably.Plans (p.plan job) :=
  unstoppably.job_plan fun _ => unstoppably.type_plan
    (fun name args ht => use_unstopped fun decl => h name args decl ht)
    (fun _ _ _ _ _ => reference_unstopped _) (fun _ _ _ _ _ _ _ _ _ => reference_unstopped _)
    fun _ _ _ => indexed_access_unstopped _ _

section Compilations

variable (hallowed : ∀ path, path ≠ [] → p.IsPath path → p.Allows path.length)

include hallowed

/-- A job for a type at the end of a path is not stopped when the limit allows all paths. -/
theorem compile_unstopped (job : Job) {path : List Declaration} (ht : Written path job.type)
    (henv : p.Homed path job.environment) : (p.compile job).Unstopped := by
  induction job using job_induction generalizing path with
  | h job ih =>
    rw [compile_eq_run]
    refine unstoppably.run (plan_unstopped fun name args decl href hfind hentered => ?_)
      fun plan hres next hnext => ?_
    · have hpath := henv.is_path.concat (href ▸ ht) hfind hentered
      have hlen := hallowed _ (by simp) hpath
      rwa [length_append, length_singleton, ← henv.depth] at hlen
    · obtain ⟨around, hwritten, hhomed⟩ := homed_of_asked henv ht (asked_of_plan hres hnext)
      exact ih next ⟨plan, hres, hnext⟩ hwritten hhomed

theorem declaration_unstopped (decl : Declaration) : (p.declarationSchema decl).Unstopped := by
  rw [declaration_schema_eq]
  refine unstoppably.run (unstoppably.declaration_plan (fun _ => ?_)
    (fun d _ => interface_use_unstopped d) fun _ _ _ => ?_) fun plan hres job hjob => ?_
  · exact unstopped_reject fun _ _ h => by cases h
  · exact unstoppably.interface_plan fun _ _ => reference_unstopped _
  · obtain ⟨henv, -⟩ := job_of_declaration hres hjob
    exact compile_unstopped hallowed job (fun _ h => by cases h) (henv ▸ homed_empty)

end Compilations

/-- The limit on the depth of instantiations only stops recursion. When it allows every path of
declarations that are referred to inside of one another, it stops neither the compilation of a
declaration nor that of a type outside of all declarations, however deep the arguments of the type
are nested. -/
theorem depth_limit_only_stops_recursion (program : Program)
    (hallowed : ∀ path, path ≠ [] → program.IsPath path → program.Allows path.length) :
    (∀ declaration, (program.compileDeclaration declaration).Unstopped) ∧
      ∀ type tags, (program.schemaOf type .empty tags).Unstopped := by
  refine ⟨fun declaration failure hfailure => ?_, fun type tags => ?_⟩
  · have hschema := declaration_unstopped hallowed declaration
    refine not_too_deep_bind hschema (fun schema => ?_) failure hfailure
    refine not_too_deep_bind (not_too_deep_lift _) fun name => ?_
    exact not_too_deep_bind (not_too_deep_lift _) fun _ _ h => by cases h
  · cases type with
    | some type =>
      rw [schema_of_some]
      exact compile_unstopped hallowed _ (fun _ h => by cases h) homed_empty
    | none =>
      unfold schemaOf inContext
      dsimp only
      split
      · exact unstoppably.unsupported _
      · split
        · exact unstopped_bind (unstoppably.unsupported _) fun _ _ => unstopped_pure _
        · exact unstopped_pure _

/-- The alias `type Plain<T> = T[]`. -/
def plainBox : Declaration :=
  .typeAlias ⟨.str "Plain", [], true, [⟨.str "T", none, none⟩], .array (.reference (.str "T") [])⟩

/-- The alias `type Outer<T> = Plain<T>`. -/
def outerBox : Declaration :=
  .typeAlias ⟨.str "Outer", [], true, [⟨.str "T", none, none⟩],
    .reference (.str "Plain") [.reference (.str "T") []]⟩

/-- The program of both aliases under a limit. -/
def boxes (limit : Int) : Program where
  unit := ⟨.null, [plainBox, outerBox], []⟩
  settings := { Settings.default with depthLimit := .int limit }

/-- Of the two boxes only the outer one refers to the other. -/
theorem nests_boxes {limit : Int} {outer inner : Declaration}
    (houter : outer ∈ (boxes limit).unit.declarations) (h : (boxes limit).Nests outer inner) :
    outer = outerBox ∧ inner = plainBox := by
  have hparam {name : Name} {args : List TypeExpr}
      (href : (TypeExpr.reference name args).In (.reference (.str "T") [])) :
      (boxes limit).find name ≠ .ok (some inner) := by
    rcases TypeExpr.in_iff.1 href with href | ⟨part, hpart, -⟩
    · cases href
      intro hfind
      cases hfind
    · cases hpart
  obtain ⟨type, ht, name, args, href, hfind⟩ := h
  rcases mem_cons.1 houter with rfl | houter
  · cases mem_singleton.1 ht
    rcases TypeExpr.in_iff.1 href with href | ⟨part, hpart, href⟩
    · cases href
    · cases mem_singleton.1 hpart
      exact (hparam href hfind).elim
  · cases mem_singleton.1 houter
    cases mem_singleton.1 ht
    rcases TypeExpr.in_iff.1 href with href | ⟨part, hpart, href⟩
    · cases href
      cases hfind
      exact ⟨rfl, rfl⟩
    · cases mem_singleton.1 hpart
      exact (hparam href hfind).elim

/-- Boxes are two at most inside of one another, so a limit of two compiles the type
`Outer<Outer<Outer<string>>>`, while a limit of one stops it. -/
theorem nested_boxes_unstopped_at_depth_two :
    let outer (type : TypeExpr) : TypeExpr := .reference (.str "Outer") [type]
    let nested := outer (outer (outer (.keyword .string)))
    (∀ path, path ≠ [] → (boxes 2).IsPath path → (boxes 2).Allows path.length) ∧
      ((boxes 2).schemaOf (some nested) .empty []).Unstopped ∧
      ¬((boxes 1).schemaOf (some nested) .empty []).Unstopped := by
  intro outer nested
  have hallowed (path : List Declaration) (hsome : path ≠ []) (hpath : (boxes 2).IsPath path) :
      (boxes 2).Allows path.length := by
    show (path.length : Int) ≤ 2
    obtain ⟨hnodes, hedges⟩ := hpath
    rcases path with _ | ⟨first, _ | ⟨second, _ | ⟨third, rest⟩⟩⟩
    · exact (hsome rfl).elim
    · simp
    · simp
    · -- The second of three boxes would have to be both of them.
      obtain ⟨hfirst, hedges⟩ := List.isChain_cons_cons.1 hedges
      obtain ⟨hsecond, -⟩ := List.isChain_cons_cons.1 hedges
      obtain ⟨-, hplain⟩ := nests_boxes (hnodes first (by simp)).1 hfirst
      obtain ⟨houter, -⟩ := nests_boxes (hnodes second (by simp)).1 hsecond
      exact absurd (hplain.symm.trans houter) (by simp [plainBox, outerBox])
  refine ⟨hallowed, (depth_limit_only_stops_recursion (boxes 2) hallowed).2 _ _, ?_⟩
  exact fun h => h _ rfl ⟨.str "Plain", .int 1, rfl⟩

end Program

end Schemata
