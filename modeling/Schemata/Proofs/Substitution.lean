import Schemata.Proofs.DefinitionOrder
import Schemata.Proofs.StructuralCore

/-!
# Reading a type and replacing its parameters

A type can be read in an environment that binds its parameters, or its parameters can be replaced by
what they are bound to. `Linked` relates an environment to the one that is left when some of its
parameters are replaced, and `Alike` a type with its environment to the type in which they are
replaced. `resolve_alike` says that types that are alike lead to types that are alike.
-/

namespace Schemata

open List

variable {name : Name} {key : Key} {other : TypeExpr}

/-- The keys of the parameters that are replaced. -/
def Substitution.scope (substitution : Substitution) : Scope :=
  fun key => (substitution key).isSome

namespace TypeExpr

/-- A type that can stand in the place of a parameter without being read in another way there: it is
not in parentheses, not null and not an element of a tuple only. -/
def IsArgument : TypeExpr → Prop
  | .paren _ => False
  | .literal .null => False
  | .spread _ => False
  | .named _ _ _ => False
  | _ => True

/-- Parameters stand in a type without arguments, and not directly inside of parentheses. -/
inductive PlainIn (scope : Scope) : TypeExpr → Prop where
  | intro {type : TypeExpr}
      (hreference : ∀ name first rest, type = .reference name (first :: rest) → Unbound scope name)
      (hparen : ∀ name, type = .paren (.reference name []) → Unbound scope name)
      (hparts : ∀ part ∈ type.parts, PlainIn scope part) : PlainIn scope type

/-- The type with its parts mapped, and the tags of its members. -/
def mapParts (part : TypeExpr → TypeExpr) (retag : Tags → Tags) : TypeExpr → TypeExpr
  | .reference name arguments => .reference name (arguments.map part)
  | .object members index =>
    .object (members.map fun member =>
        { member with type := member.type.map part, tags := retag member.tags })
      (index.map fun signature => { signature with
        keyType := signature.keyType.map part
        type := signature.type.map part })
  | .array element => .array (part element)
  | .spread type => .spread (part type)
  | .named name type optional => .named name (part type) optional
  | .tuple elements => .tuple (elements.map part)
  | .union arms => .union (arms.map part)
  | .intersection arms => .intersection (arms.map part)
  | .function parameters result =>
    .function (parameters.map fun parameter => { parameter with type := parameter.type.map part })
      (part result)
  | .template head spans =>
    .template head (spans.map fun span => { span with type := part span.type })
  | .indexed base index => .indexed (part base) (part index)
  | .paren type => .paren (part type)
  | type => type

/-- A type that is not a parameter itself. -/
def Settled (scope : Scope) (type : TypeExpr) : Prop :=
  ∀ name arguments, type = .reference name arguments → Unbound scope name

end TypeExpr

/-- A substitution of types that can be shown and can stand in the place of parameters. -/
structure Substitution.Proper (substitution : Substitution) : Prop where
  argument : ∀ key type, substitution key = some type → type.IsArgument
  text : ∀ key type, substitution key = some type → ∃ text, type.text = .ok (.str text)

/-- The substitution that replaces nothing. -/
def Substitution.none : Substitution := fun _ => Option.none

theorem Substitution.none_proper : Substitution.none.Proper where
  argument _ _ h := by cases h
  text _ _ h := by cases h

namespace TypeExpr

variable {sub : Substitution} {scope : Scope} {t : TypeExpr}

section Instantiate

theorem instantiate_parameters_eq (params : List (Parameter TypeExpr)) :
    instantiateParameters sub params = params.map fun param =>
      { param with type := param.type.map (instantiate sub) } :=
  eq_map_of_rec rfl (fun _ _ => by rw [instantiateParameters, instantiate_option_eq]) params

theorem instantiate_spans_eq (spans : List (TemplateSpan TypeExpr)) :
    instantiateSpans sub spans = spans.map fun span =>
      { span with type := span.type.instantiate sub } :=
  eq_map_of_rec rfl (fun _ _ => rfl) spans

/-- A name is replaced, or it is not the name of a parameter. -/
theorem replaced_or_unbound (sub : Substitution) (name : Name) :
    (∃ key t, name.key? = some key ∧ sub key = some t) ∨ Unbound sub.scope name := by
  cases hk : name.key? with
  | none => exact .inr fun key h => by rw [hk] at h; cases h
  | some key =>
    cases ht : sub key with
    | some t => exact .inl ⟨key, t, rfl, ht⟩
    | none =>
      refine .inr fun other hother => ?_
      cases hk.symm.trans hother
      simp [Substitution.scope, ht]

theorem instantiate_replaced (hk : name.key? = some key) (ht : sub key = some t)
    (args : List TypeExpr) : (reference name args).instantiate sub = t := by
  rw [instantiate, hk, Option.bind_some, ht]

theorem instantiate_reference (h : Unbound sub.scope name) (args : List TypeExpr) :
    (reference name args).instantiate sub = .reference name (args.map (instantiate sub)) := by
  have hnone : name.key?.bind sub = none := by
    cases hk : name.key? with
    | none => rfl
    | some key =>
      have hscope : (sub key).isSome = false := h key hk
      exact Option.not_isSome_iff_eq_none.1 (by simp [hscope])
  rw [instantiate, hnone, instantiate_all_eq]

/-- Parameters are replaced in the parts of a type that is not a parameter. -/
theorem instantiate_eq_map (h : t.Settled sub.scope) :
    t.instantiate sub = t.mapParts (instantiate sub) id := by
  cases t with
  | reference name args => exact instantiate_reference (h name args rfl) args
  | object =>
    rw [instantiate, instantiate_members_eq, instantiate_index_eq]
    rfl
  | function => rw [instantiate, instantiate_parameters_eq, mapParts]
  | template => rw [instantiate, instantiate_spans_eq, mapParts]
  | tuple | union | intersection => rw [instantiate, instantiate_all_eq, mapParts]
  | _ => rfl

/-- A type whose parts stay the same stays the same. -/
theorem map_parts_same {f : TypeExpr → TypeExpr} (h : ∀ part ∈ t.parts, f part = part) :
    t.mapParts f id = t := by
  have hall (types : List TypeExpr) (h : ∀ part ∈ types, f part = part) : types.map f = types :=
    (map_congr_left h).trans (map_id' types)
  have hoption {found : Option TypeExpr} (h : ∀ part ∈ found, f part = part) :
      found.map f = found := by
    cases found with
    | none => rfl
    | some part => rw [Option.map_some, h part rfl]
  cases t with
  | reference _ types | tuple types | union types | intersection types =>
    rw [mapParts, hall types h]
  | object ms index =>
    have hms : ms.map (fun m => { m with type := m.type.map f, tags := id m.tags }) = ms := by
      refine (map_congr_left fun m hm => ?_).trans (map_id' ms)
      rw [hoption fun part hpart => h part (mem_parts_member hm hpart), id]
    rw [mapParts, hms]
    cases index with
    | none => rfl
    | some =>
      rw [Option.map_some, hoption fun part hpart => h part (mem_parts_key hpart),
        hoption fun part hpart => h part (mem_parts_index hpart)]
  | function params result =>
    have hparams : params.map (fun param => { param with type := param.type.map f }) = params := by
      refine (map_congr_left fun param hparam => ?_).trans (map_id' params)
      rw [hoption fun part hpart => h part (mem_parts_parameter hparam hpart)]
    rw [mapParts, hparams, h result (by simp [parts])]
  | template head spans =>
    have hspans : spans.map (fun span => { span with type := f span.type }) = spans := by
      refine (map_congr_left fun span hspan => ?_).trans (map_id' spans)
      rw [h span.type (mem_map_of_mem hspan)]
    rw [mapParts, hspans]
  | indexed base index => rw [mapParts, h base (by simp [parts]), h index (by simp [parts])]
  | array t | spread t | named name t | paren t => rw [mapParts, h t (by simp [parts])]
  | _ => rfl

/-- A type in which nothing is replaced stays the same. -/
theorem instantiate_none (t : TypeExpr) : t.instantiate .none = t := by
  induction t using parts_induction with
  | h t ih => rw [instantiate_eq_map fun _ _ _ _ _ => rfl, map_parts_same ih]

/-- Parentheses can be taken off before or after parameters are replaced. -/
theorem unwrap_instantiate (h : sub.Proper) (t : TypeExpr) :
    (t.instantiate sub).unwrap = t.unwrap.instantiate sub := by
  fun_induction unwrap t with
  | case1 t ih => rw [instantiate, unwrap, ih]
  | case2 t hparen =>
    cases t with
    | paren t => exact (hparen t rfl).elim
    | reference name =>
      rcases replaced_or_unbound sub name with ⟨key, found, hk, hf⟩ | hunbound
      · rw [instantiate_replaced hk hf]
        have harg := h.argument key found hf
        cases found with
        | paren => exact harg.elim
        | _ => rfl
      · rw [instantiate_reference hunbound, unwrap]
        simp
    | _ => rfl

end Instantiate

section Plain

/-- No type has a parameter in the scope of none. -/
theorem plain_in_none (t : TypeExpr) : t.PlainIn Substitution.none.scope := by
  induction t using parts_induction with
  | h t ih => exact ⟨fun _ _ _ _ _ _ => rfl, fun _ _ _ _ => rfl, ih⟩

theorem settled_none (t : TypeExpr) : t.Settled Substitution.none.scope := fun _ _ _ _ _ => rfl

/-- A type that is neither a name with arguments nor in parentheses is plain when its parts are. -/
theorem PlainIn.of_parts (href : ∀ name a rest, t ≠ .reference name (a :: rest))
    (hparen : ∀ inner, t ≠ .paren inner) (hps : ∀ part ∈ t.parts, part.PlainIn scope) :
    t.PlainIn scope :=
  .intro (fun name a rest h => (href name a rest h).elim) (fun _ h => (hparen _ h).elim) hps

theorem PlainIn.of_no_parts (hps : t.parts = []) (hparen : ∀ inner, t ≠ .paren inner) :
    t.PlainIn scope := by
  refine .of_parts (fun name a rest h => ?_) hparen fun part hpart => ?_
  · rw [h] at hps
    cases hps
  · rw [hps] at hpart
    cases hpart

theorem PlainIn.part {t part : TypeExpr} (h : t.PlainIn scope) (hpart : part ∈ t.parts) :
    part.PlainIn scope := by
  cases h with
  | intro href hparen hps => exact hps part hpart

/-- A type is settled unless it is a parameter by itself. -/
theorem PlainIn.settled (h : t.PlainIn scope)
    (hn : ∀ name, t = .reference name [] → Unbound scope name) : t.Settled scope := by
  intro name args ht
  cases h with
  | intro href =>
    cases args with
    | nil => exact hn name ht
    | cons a rest => exact href name a rest ht

theorem PlainIn.unwrap (h : t.PlainIn scope) : t.unwrap.PlainIn scope := by
  fun_induction TypeExpr.unwrap t with
  | case1 t ih => exact ih (h.part (by simp [parts]))
  | case2 => exact h

/-- A type that is settled is so inside of its parentheses. -/
theorem PlainIn.settled_unwrap (h : t.PlainIn scope) (hsettled : t.Settled scope) :
    t.unwrap.Settled scope := by
  fun_induction TypeExpr.unwrap t with
  | case1 t ih =>
    have hpart : t.PlainIn scope := h.part (by simp [parts])
    refine ih hpart (hpart.settled fun name hn => ?_)
    cases h with
    | intro href hparen => exact hparen name (by rw [hn])
  | case2 => exact hsettled

end Plain

section Text

/-- The parts of a type with parameters replaced are its parts with parameters replaced. -/
theorem parts_instantiate (h : t.Settled sub.scope) :
    (t.instantiate sub).parts = t.parts.map (instantiate sub) := by
  rw [instantiate_eq_map h]
  cases t with
  | object ms index =>
    cases index <;>
      simp [mapParts, parts, objectTypes, IndexSignature.types, map_filterMap, Option.toList_map]
  | function | template => simp [mapParts, parts, map_filterMap]
  | _ => rfl

theorem shows_text_instantiate (h : t.Settled sub.scope) :
    ((t.instantiate sub).Joins ↔ t.Joins) ∧ ((t.instantiate sub).ShowsText ↔ t.ShowsText) := by
  cases t with
  | reference name args =>
    rw [instantiate_reference (h name args rfl)]
    cases args <;> exact ⟨.rfl, .rfl⟩
  | _ => exact ⟨.rfl, .rfl⟩

/-- Types can be shown when parameters are replaced by types that can be. -/
theorem keeps_text (h : sub.Proper) (t : TypeExpr) : t.KeepsText (t.instantiate sub) := by
  have hsettled {t : TypeExpr} (h : t.Settled sub.scope)
      (ih : ∀ part ∈ t.parts, part.KeepsText (part.instantiate sub)) :
      t.KeepsText (t.instantiate sub) := by
    obtain ⟨hjoins, hshows⟩ := shows_text_instantiate h
    refine keeps_text_of_parts (fun part hpart => ?_) hjoins.1 hshows.2
    rw [parts_instantiate h] at hpart
    obtain ⟨inner, hi, rfl⟩ := mem_map.1 hpart
    exact ⟨inner, hi, ih inner hi⟩
  induction t using parts_induction with
  | h t ih =>
    cases t with
    | reference name =>
      rcases replaced_or_unbound sub name with ⟨key, found, hk, hf⟩ | hunbound
      · have hwritten : found.Written := h.text key found hf
        rw [instantiate_replaced hk hf]
        exact ⟨fun _ => (written_iff found).1 hwritten |>.1, fun _ => hwritten⟩
      · exact hsettled (fun _ _ h => by cases h; exact hunbound) ih
    | _ => exact hsettled (fun _ _ h => by cases h) ih

end Text

end TypeExpr

/-- Where the keys that are kept are bound on neither side or on both to what is related in some
way, the other binding and the way can be given as functions of all keys. -/
theorem bindings_chosen {Way : Type} [Inhabited Way] {keeps : Key → Prop}
    {related : Way → Binding Environment → Binding Environment → Prop}
    {first second : Key → Option (Binding Environment)}
    (h : ∀ key, keeps key →
      Option.Rel (fun b other => ∃ way, related way b other) (first key) (second key)) :
    ∃ (other : Key → Binding Environment) (via : Key → Way),
      (∀ key, keeps key → first key = none → second key = none) ∧
      ∀ key b, keeps key → first key = some b →
        second key = some (other key) ∧ related (via key) b (other key) := by
  have hchoice (key : Key) : ∃ other way, ∀ b, keeps key → first key = some b →
      second key = some other ∧ related way b other := by
    have hrel := h key
    generalize first key = found, second key = otherFound at hrel
    by_cases hb : keeps key ∧ found.isSome
    · cases hrel hb.1 with
      | none => cases hb.2
      | @some b other hway =>
        obtain ⟨way, hway⟩ := hway
        exact ⟨other, way, fun _ _ hf => Option.some.inj hf ▸ ⟨rfl, hway⟩⟩
    -- The functions have a value where there is no binding as well.
    · exact ⟨⟨.null, .keyword .any, .empty⟩, default, fun b hk hf => (hb ⟨hk, by simp [hf]⟩).elim⟩
  choose other via hbound using hchoice
  refine ⟨other, via, fun key hk hnone => ?_, hbound⟩
  have hrel := h key hk
  rw [hnone] at hrel
  generalize second key = found at hrel
  cases hrel
  rfl

/-- Two environments, the second of which is left when certain parameters are replaced: these are
bound to what replaces them, read in the second one, and the others are bound in both or in none of
them, to types of which the second one is the first with parameters replaced. -/
inductive Linked : Substitution → Environment → Environment → Prop where
  | intro {substitution} {first second : Environment} (other : Key → Binding Environment)
      (via : Key → Substitution) (hdepth : second.depth ≤ first.depth)
      (hreplaced : ∀ key type, substitution key = some type → ∃ spelled, first.binding? key =
        some ⟨spelled, type, second⟩)
      (hunbound : ∀ key, substitution key = none → first.binding? key = none → second.binding? key =
        none)
      (hbound : ∀ key binding, substitution key = none → first.binding? key = some binding →
        second.binding? key =
        some (other key) ∧ (via key).Proper ∧ binding.type.PlainIn (via key).scope ∧
        (other key).type = binding.type.instantiate (via key))
      (hlinked : ∀ key binding, substitution key = none → first.binding? key = some binding →
        Linked (via key) binding.environment (other key).environment) :
      Linked substitution first second

/-- A type in an environment, and the type with parameters replaced in the environment that is
left. -/
structure AlikeBy (substitution : Substitution) (first second : TypeExpr × Environment) :
    Prop where
  proper : substitution.Proper
  plain : first.1.PlainIn substitution.scope
  type : second.1 = first.1.instantiate substitution
  linked : Linked substitution first.2 second.2

/-- A type in an environment says the same as another one because some parameters are replaced. -/
def Alike (first second : TypeExpr × Environment) : Prop :=
  ∃ substitution, AlikeBy substitution first second

section Linked

variable {sub : Substitution} {first second : Environment}

theorem Linked.depth_le (h : Linked sub first second) : second.depth ≤ first.depth := by
  cases h with
  | intro other via hdepth => exact hdepth

/-- A parameter that is replaced is bound to what replaces it. -/
theorem Linked.replaced (h : Linked sub first second) {t : TypeExpr} (ht : sub key = some t) :
    ∃ spelled, first.binding? key = some ⟨spelled, t, second⟩ := by
  cases h with
  | intro other via hdepth hreplaced => exact hreplaced key t ht

/-- Another parameter is bound in neither environment or to types that are alike. -/
theorem Linked.kept (h : Linked sub first second) (hk : sub key = none) :
    Environment.BoundAlike Alike first second key key := by
  cases h with
  | intro other via hdepth hreplaced hunbound hbound hlinked =>
    unfold Environment.BoundAlike
    cases hb : first.binding? key with
    | none =>
      rw [hunbound key hk hb]
      exact .none
    | some b =>
      obtain ⟨hother, hproper, hplain, ht⟩ := hbound key b hk hb
      rw [hother]
      exact .some ⟨via key, hproper, hplain, ht, hlinked key b hk hb⟩

/-- Environments are linked when their bindings are alike. -/
theorem linked_of_bindings (hdepth : second.depth ≤ first.depth)
    (hreplaced : ∀ key t, sub key = some t →
      ∃ spelled, first.binding? key = some ⟨spelled, t, second⟩)
    (hkept : ∀ key, sub key = none → Environment.BoundAlike Alike first second key key) :
    Linked sub first second := by
  obtain ⟨other, via, hunbound, hbound⟩ := bindings_chosen hkept
  refine .intro other via hdepth hreplaced hunbound ?_ ?_
  · intro key b hk hb
    obtain ⟨hsecond, halike⟩ := hbound key b hk hb
    exact ⟨hsecond, halike.proper, halike.plain, halike.type⟩
  · intro key b hk hb
    exact (hbound key b hk hb).2.linked

/-- An environment is linked to itself when nothing is replaced. -/
theorem linked_refl (env : Environment) : Linked .none env env := by
  induction hsize : sizeOf env using Nat.strongRecOn generalizing env with
  | ind size ih =>
    subst hsize
    refine linked_of_bindings (Nat.le_refl _) (fun _ _ h => by cases h) fun key _ =>
      rel_refl fun b hb => ?_
    have hsmaller := Environment.size_of_binding (mem_of_find?_eq_some hb)
    exact ⟨.none, Substitution.none_proper, TypeExpr.plain_in_none _,
      (TypeExpr.instantiate_none _).symm, ih _ hsmaller _ rfl⟩

/-- A type is like itself in environments that are linked without replacing anything. -/
theorem alike_of_linked (h : Linked .none first second) (t : TypeExpr) :
    AlikeBy .none (t, first) (t, second) :=
  ⟨Substitution.none_proper, t.plain_in_none, t.instantiate_none.symm, h⟩

theorem alike_refl (t : TypeExpr) (env : Environment) : AlikeBy .none (t, env) (t, env) :=
  alike_of_linked (linked_refl env) t

variable {t : TypeExpr}

/-- The parts of types that are alike are alike. -/
theorem AlikeBy.part {part : TypeExpr} (h : AlikeBy sub (t, first) (other, second))
    (hpart : part ∈ t.parts) : AlikeBy sub (part, first) (part.instantiate sub, second) :=
  ⟨h.proper, h.plain.part hpart, rfl, h.linked⟩

/-- Types that are alike are so inside of their parentheses. -/
theorem AlikeBy.unwrap (h : AlikeBy sub (t, first) (other, second)) :
    AlikeBy sub (t.unwrap, first) (other.unwrap, second) := by
  refine ⟨h.proper, h.plain.unwrap, ?_, h.linked⟩
  have ht : other = t.instantiate sub := h.type
  rw [ht]
  exact TypeExpr.unwrap_instantiate h.proper t

/-- A type that is not a bare name is none when parameters are replaced. -/
theorem TypeExpr.PlainIn.instantiate_ne_name (h : t.PlainIn sub.scope)
    (hn : ∀ name, t ≠ .reference name []) (name : Name) :
    t.instantiate sub ≠ .reference name [] := by
  cases t with
  | reference found args =>
    cases args with
    | nil => exact (hn found rfl).elim
    | cons =>
      have hsettled := h.settled fun name hother => (hn name hother).elim
      rw [instantiate_reference (hsettled found _ rfl)]
      simp
  | _ => simp [instantiate]

/-- Types that are alike lead to types that are alike, the first of which is settled. -/
theorem resolve_alike {found : TypeExpr} {inner : Environment}
    (h : AlikeBy sub (t, first) (other, second)) (hf : first.resolve t = .ok (found, inner)) :
    ∃ otherFound otherInner via, second.resolve other = .ok (otherFound, otherInner) ∧
      AlikeBy via (found, inner) (otherFound, otherInner) ∧ found.Settled via.scope := by
  obtain ⟨hproper, hplain, ht, hlinked⟩ := h
  dsimp only at hplain ht hlinked
  subst ht
  -- The induction follows the bindings, which lead to environments that are linked again.
  induction hlinked generalizing t with
  | @intro sub first second otherBinding via hdepth hreplaced hunbound hbound hlinks ih =>
    have hlinked : Linked sub first second :=
      .intro otherBinding via hdepth hreplaced hunbound hbound hlinks
    by_cases hn : ∃ name, t = .reference name []
    · obtain ⟨name, rfl⟩ := hn
      cases hk : name.key with
      | error =>
        obtain ⟨depth, bindings⟩ := first
        simp [Environment.resolve, hk] at hf
      | ok key =>
        have hkey? := Program.key?_of_key hk
        rw [first.resolve_reference hk] at hf
        cases hreplace : sub key with
        | some arg =>
          -- The parameter is bound to the type that replaces it.
          obtain ⟨spelled, hb⟩ := hreplaced key arg hreplace
          rw [hb] at hf
          dsimp only at hf
          have harg := hproper.argument key arg hreplace
          have hun : arg.unwrap = arg := by
            cases arg <;> first | rfl | exact harg.elim
          rw [hun] at hf
          rw [TypeExpr.instantiate_replaced hkey? hreplace]
          exact ⟨found, inner, .none, hf, alike_refl found inner, TypeExpr.settled_none found⟩
        | none =>
          have hfree : Unbound sub.scope name := by
            intro found hf
            cases hkey?.symm.trans hf
            simp [Substitution.scope, hreplace]
          rw [TypeExpr.instantiate_reference hfree, map_nil, second.resolve_reference hk]
          cases hb : first.binding? key with
          | none =>
            rw [hb] at hf
            rw [hunbound key hreplace hb]
            cases hf
            refine ⟨_, _, sub, rfl, ⟨hproper, hplain, ?_, hlinked⟩, ?_⟩
            · exact (TypeExpr.instantiate_reference hfree []).symm
            · exact hplain.settled fun found hf => by cases hf; exact hfree
          | some b =>
            obtain ⟨hother, hbindingProper, hbindingPlain, hbindingType⟩ := hbound key b hreplace hb
            rw [hb] at hf
            rw [hother]
            dsimp only at hf ⊢
            rw [hbindingType, TypeExpr.unwrap_instantiate hbindingProper]
            exact ih key b hreplace hb hf hbindingProper hbindingPlain.unwrap
    · have hne : ∀ name, t ≠ .reference name [] := fun name heq => hn ⟨name, heq⟩
      rw [Environment.resolve_of_ne hne] at hf
      cases hf
      refine ⟨_, _, sub, Environment.resolve_of_ne (hplain.instantiate_ne_name hne),
        ⟨hproper, hplain, rfl, hlinked⟩, ?_⟩
      exact hplain.settled fun name heq => (hne name heq).elim

end Linked

section Entering

variable {a b bound : Environment}

/-- Environments at the start of an instantiation. -/
theorem linked_enter (h : b.depth ≤ a.depth) : Linked .none a.enter b.enter :=
  linked_of_bindings (Nat.succ_le_succ h) (fun _ _ h => by cases h) fun _ _ => .none

/-- One more parameter is bound to types that are alike. -/
theorem linked_bind (h : Linked .none a b) {t : TypeExpr} {read otherRead : Environment}
    (halike : Alike (t, read) (other, otherRead)) (hbound : a.bind name t read = .ok bound) :
    ∃ otherBound, b.bind name other otherRead = .ok otherBound ∧ Linked .none bound otherBound := by
  have hk : ∃ key, name.key = .ok key := by
    obtain ⟨key, hk, -⟩ := bind_eq_ok_iff.1 hbound
    exact ⟨key, hk⟩
  obtain ⟨key, hk⟩ := hk
  have hother : b.bind name other otherRead =
      .ok (.mk b.depth (Environment.putBinding key ⟨name, other, otherRead⟩ b.bindings)) := by
    rw [Environment.bind, hk]
    rfl
  refine ⟨_, hother, linked_of_bindings ?_ (fun _ _ h => by cases h) fun found _ => ?_⟩
  · rw [Environment.depth_bind hbound, Environment.depth_bind hother]
    exact h.depth_le
  · unfold Environment.BoundAlike
    rcases Environment.binding_of_bind hbound found with
      ⟨hsame, spelled, hb⟩ | ⟨hdifferent, hb⟩
    · rcases Environment.binding_of_bind hother found with
        ⟨-, otherSpelled, hotherBinding⟩ | ⟨hne, -⟩
      · rw [hb, hotherBinding]
        exact .some halike
      · exact (hne hsame).elim
    · rcases Environment.binding_of_bind hother found with ⟨heq, -⟩ | ⟨-, hotherBinding⟩
      · exact (hdifferent heq).elim
      · rw [hb, hotherBinding]
        exact h.kept rfl

/-- A declaration is entered with arguments that are alike. -/
theorem linked_bind_types {sub : Substitution} {caller otherCaller : Environment}
    (hproper : sub.Proper) (hcaller : Linked sub caller otherCaller)
    {params : List GenericParameter} {args : List TypeExpr}
    (hargs : ∀ arg ∈ args, arg.PlainIn sub.scope) (h : Linked .none a b)
    (hbound : Program.bindTypes caller params args a = .ok bound) :
    ∃ otherBound, Program.bindTypes otherCaller params
        (args.map (TypeExpr.instantiate sub)) b = .ok otherBound ∧
      Linked .none bound otherBound := by
  fun_induction Program.bindTypes caller params args a generalizing b with
  | case1 =>
    cases hbound
    exact ⟨b, by rw [Program.bindTypes], h⟩
  | case2 param rest arg others a ih =>
    obtain ⟨next, hnext, hbound⟩ := bind_eq_ok_iff.1 hbound
    have halike : Alike (arg, caller) (arg.instantiate sub, otherCaller) :=
      ⟨sub, hproper, hargs arg mem_cons_self, rfl, hcaller⟩
    obtain ⟨otherNext, hotherNext, hlinked⟩ := linked_bind h halike hnext
    rw [map_cons, Program.bindTypes, hotherNext]
    exact ih next (forall_mem_cons.1 hargs).2 hlinked hbound
  | case3 name limit t rest a ih =>
    obtain ⟨next, hnext, hbound⟩ := bind_eq_ok_iff.1 hbound
    obtain ⟨otherNext, hotherNext, hlinked⟩ := linked_bind h ⟨.none, alike_of_linked h t⟩ hnext
    rw [map_nil, Program.bindTypes, hotherNext]
    exact ih next hargs hlinked hbound
  | case4 name limit rest a ih =>
    rw [map_nil, Program.bindTypes]
    exact ih hargs h hbound

/-- Without a name, its key is not bound, and the others are bound as before. -/
theorem Environment.binding_without (env : Environment) (hk : name.key? = some key) (other : Key) :
    (env.without name).binding? other = if other = key then none else env.binding? other := by
  obtain ⟨depth, bindings⟩ := env
  simp only [Environment.without, Environment.binding?, Environment.bindings]
  induction bindings with
  | nil => simp
  | cons b rest ih =>
    have hsame : b.name.same name = true ↔ b.name.key? = some key := Program.same_iff_key hk
    by_cases ha : b.name.key? = some key
    · rw [filter_cons_of_neg (by simp [hsame.2 ha]), ih]
      by_cases hother : other = key
      · simp [hother]
      · simp [hother, ha, Ne.symm hother]
    · have hkept : b.name.same name = false := Bool.eq_false_iff.2 fun h => ha (hsame.1 h)
      rw [filter_cons_of_pos (by simp [hkept])]
      by_cases hother : b.name.key? = some other
      · have hne : other ≠ key := fun h => ha (h ▸ hother)
        simp [hother, hne]
      · simpa [hother] using ih

/-- Environments stay linked without a name. -/
theorem linked_without (h : Linked .none a b) (hk : name.key? = some key) :
    Linked .none (a.without name) (b.without name) := by
  refine linked_of_bindings h.depth_le (fun _ _ h => by cases h) fun other _ => ?_
  rw [Environment.BoundAlike, a.binding_without hk, b.binding_without hk]
  by_cases hother : other = key
  · rw [if_pos hother, if_pos hother]
    exact .none
  · rw [if_neg hother, if_neg hother]
    exact h.kept rfl

end Entering

end Schemata
