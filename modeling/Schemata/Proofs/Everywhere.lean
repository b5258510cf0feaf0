import Schemata.Proofs.Nesting

/-!
# What holds of all types on the way

A property of types holds `Everywhere` in a type when the type has it and so do all types that are
written inside of it. It holds everywhere in an environment when it does so in all that parameters
are bound to. Following parameters and entering declarations keep it so, and `asked_everywhere` says
that what a job asks for has the property when the declaration that it enters has.
-/

namespace Schemata

open List

/-- The type and all types that are written inside of it have a property. -/
def TypeExpr.Everywhere (holds : TypeExpr → Prop) (type : TypeExpr) : Prop :=
  ∀ inner : TypeExpr, inner.In type → holds inner

/-- What parameters are bound to has a property everywhere. -/
inductive Environment.Everywhere (holds : TypeExpr → Prop) : Environment → Prop where
  | intro {environment : Environment}
      (types : ∀ binding ∈ environment.bindings, binding.type.Everywhere holds)
      (environments : ∀ binding ∈ environment.bindings, Everywhere holds binding.environment) :
      Everywhere holds environment

/-- The type and the environment of a job have a property everywhere. -/
structure Job.Everywhere (holds : TypeExpr → Prop) (job : Job) : Prop where
  type : job.type.Everywhere holds
  environment : job.environment.Everywhere holds

variable {holds : TypeExpr → Prop}

namespace TypeExpr

variable {type inner : TypeExpr}

theorem Everywhere.here (h : type.Everywhere holds) : holds type := h type (.inl rfl)

theorem Everywhere.within (h : type.Everywhere holds) (hi : inner.Within type) :
    inner.Everywhere holds := fun found hf => h found (hf.within hi)

theorem Everywhere.part {found : TypeExpr} (h : type.Everywhere holds)
    (hf : found ∈ type.parts) : found.Everywhere holds := h.within (.part hf)

theorem Everywhere.unwrap (h : type.Everywhere holds) : type.unwrap.Everywhere holds := by
  fun_induction TypeExpr.unwrap type with
  | case1 type ih => exact ih (h.part (mem_singleton.2 rfl))
  | case2 => exact h

/-- A property holds everywhere in a type when the type has it and it holds everywhere in its
parts. -/
theorem everywhere_iff :
    type.Everywhere holds ↔ holds type ∧ ∀ part ∈ type.parts, part.Everywhere holds := by
  refine ⟨fun h => ⟨h.here, fun part hpart => h.part hpart⟩, fun ⟨hhere, hps⟩ inner hi => ?_⟩
  rcases in_iff.1 hi with rfl | ⟨part, hpart, hin⟩
  · exact hhere
  · exact hps part hpart inner hin

/-- A property holds of a type and of the types inside of it, none of which is deeper than some
depth. For a given type this can be evaluated. -/
def HoldsWithin (holds : TypeExpr → Prop) : Nat → TypeExpr → Prop
  | 0, _ => False
  | depth + 1, type => holds type ∧ ∀ part ∈ type.parts, HoldsWithin holds depth part

theorem everywhere_of_holds_within (depth : Nat) (h : type.HoldsWithin holds depth) :
    type.Everywhere holds := by
  induction depth generalizing type with
  | zero => exact h.elim
  | succ depth ih => exact everywhere_iff.2 ⟨h.1, fun part hpart => ih (h.2 part hpart)⟩

/-- A type without parts is the only one that is written in it. -/
theorem everywhere_of_leaf (hleaf : type.parts = []) (h : holds type) : type.Everywhere holds :=
  everywhere_iff.2 ⟨h, fun part hpart => by simp [hleaf] at hpart⟩

end TypeExpr

namespace Environment

variable {env read bound inner : Environment} {t found : TypeExpr}

theorem Everywhere.binding (h : env.Everywhere holds) {b : Binding Environment}
    (hb : b ∈ env.bindings) : b.type.Everywhere holds ∧ b.environment.Everywhere holds := by
  cases h with
  | intro types environments => exact ⟨types b hb, environments b hb⟩

theorem everywhere_of_bindings
    (h : ∀ b ∈ env.bindings, b.type.Everywhere holds ∧ b.environment.Everywhere holds) :
    env.Everywhere holds :=
  .intro (fun b hb => (h b hb).1) fun b hb => (h b hb).2

theorem no_bindings_everywhere (depth : Nat) : (Environment.mk depth []).Everywhere holds :=
  everywhere_of_bindings fun _ h => by cases h

theorem Everywhere.bind {name : Name} (h : env.Everywhere holds)
    (ht : t.Everywhere holds) (hread : read.Everywhere holds)
    (hbind : env.bind name t read = .ok bound) : bound.Everywhere holds := by
  refine everywhere_of_bindings fun b hb => ?_
  rcases mem_bind hbind hb with ⟨rfl, rfl⟩ | hold
  · exact ⟨ht, hread⟩
  · exact h.binding hold

theorem Everywhere.without (h : env.Everywhere holds) (name : Name) :
    (env.without name).Everywhere holds :=
  everywhere_of_bindings fun _ hb => h.binding (mem_without hb)

/-- What parameters lead to has the properties of what they are bound to. -/
theorem Everywhere.resolve (h : env.Everywhere holds) (ht : t.Everywhere holds)
    (hres : env.resolve t = .ok (found, inner)) :
    found.Everywhere holds ∧ inner.Everywhere holds := by
  induction h generalizing t with
  | @intro env types environments ih =>
    rcases resolve_cases hres with ⟨rfl, rfl⟩ | ⟨_, _, b, -, -, hb, hres⟩
    · exact ⟨ht, .intro types environments⟩
    · have hmem := mem_of_find?_eq_some hb
      exact ih b hmem (types b hmem).unwrap hres

end Environment

namespace Program

variable {p : Program} {env inner : Environment} {args : List TypeExpr}

/-- A declaration is entered in an environment with the properties of the arguments and of its
defaults. -/
theorem entered_everywhere {decl : Declaration} {caller : Environment}
    (hcaller : caller.Everywhere holds) (hargs : ∀ arg ∈ args, arg.Everywhere holds)
    (hdefaults : ∀ t ∈ decl.defaults, t.Everywhere holds) (h : Entered decl caller args inner) :
    inner.Everywhere holds := by
  induction h with
  | enter => exact Environment.no_bindings_everywhere _
  | argument hi harg hbind ih => exact ih.bind (hargs _ harg) hcaller hbind
  | default hi hdefault hbind ih => exact ih.bind (hdefaults _ hdefault) ih hbind
  | without hi ih => exact ih.without _

/-- The elements of what is spread have the properties of what is spread. -/
theorem element_type_everywhere {t elt : TypeExpr} (henv : env.Everywhere holds)
    (ht : t.Everywhere holds) (h : elementType env t = .ok (some (elt, inner))) :
    elt.Everywhere holds ∧ inner.Everywhere holds := by
  obtain ⟨found, hres, hpart⟩ := resolve_of_element h
  obtain ⟨hf, hi⟩ := henv.resolve ht hres
  exact ⟨hf.within (TypeExpr.within_of_mem_parts_unwrap hpart), hi⟩

/-- What a type asks for has a property everywhere when the type has, and so has the declaration
that a reference enters. -/
theorem asked_everywhere {t : TypeExpr} {job : Job} (hany : holds (.keyword .any))
    (henv : env.Everywhere holds) (ht : t.Everywhere holds)
    (hd : ∀ name args decl, t = .reference name args →
      p.find name = .ok (some decl) → ∀ found ∈ decl.types, found.Everywhere holds)
    (h : p.Asked env t job) : job.Everywhere holds := by
  have hanywhere : (TypeExpr.keyword .any).Everywhere holds := TypeExpr.everywhere_of_leaf rfl hany
  cases h with
  | part hpart => exact ⟨ht.within hpart, henv⟩
  | any => exact ⟨hanywhere, henv⟩
  | bound hb =>
    obtain ⟨hbound, hread⟩ := henv.binding hb
    exact ⟨hbound, hread⟩
  | spread hspread helt =>
    obtain ⟨hf, hi⟩ := element_type_everywhere henv (ht.within hspread) helt
    exact ⟨hf, hi⟩
  | body href hfind hentered hleft hi hpart =>
    have hf := hd _ _ _ href hfind
    subst href
    refine ⟨?_, entered_everywhere henv (fun arg harg => ht.part harg)
      (fun found hdefault => hf found (mem_append_right _ hdefault)) hi⟩
    rcases hpart with hpart | rfl
    · exact hf _ (mem_append_left _ hpart)
    · exact hanywhere

end Program

end Schemata
