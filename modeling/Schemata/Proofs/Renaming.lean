import Schemata.Proofs.Correspondence
import Schemata.Proofs.Lockstep
import Schemata.Proofs.Nesting

/-!
# Renaming parameters

A `Renaming` gives new names to some names. `Program.CanRename` says when the parameters of a
declaration can be renamed without changing what its names stand for. `Mirrors` relates the
environments of two compilations, one of them with new names: what a name is bound to in one of
them, its new name is bound to in the other one, where each type that is bound has a renaming of its
own. `resolve_mirrored` says that following parameters leads to types that are related in the same
way, and `mirrors_bind_types` that a declaration is entered in environments that are.
-/

namespace Schemata

open List

variable {args : List TypeExpr} {t : TypeExpr}

/-- New names for some names. -/
abbrev Renaming := String → Option String

namespace Renaming

/-- The renaming that keeps all names. -/
def none : Renaming := fun _ => Option.none

variable (relabel : Renaming)

/-- The new name of a name. -/
def name : Name → Name
  | .str old => .str ((relabel old).getD old)
  | other => other

/-- The key of the new name of a key. -/
def key : Key → Key
  | .text old => .text ((relabel old).getD old)
  | other => other

/-- The substitution that puts new names in the place of old ones. -/
def substitution : Substitution
  | .text old => (relabel old).map fun new => .reference (.str new) []
  | _ => Option.none

/-- The key is the one of a name that gets a new name, or it is not the one of a new name. -/
def Keeps (key : Key) : Prop :=
  ∀ text, key = .text text → relabel text = Option.none → ∀ old, relabel old ≠ some text

/-- No two names get the same new name. -/
def IsInjective : Prop :=
  ∀ first second new, relabel first = some new → relabel second = some new → first = second

theorem key?_name (name : Name) : (relabel.name name).key? = name.key?.map relabel.key := by
  cases name with
  | float =>
    simp only [Renaming.name, Json.key?]
    split <;> rfl
  | _ => rfl

/-- The key of a new name is the new key. -/
theorem key_name (name : Name) :
    Concurs Eq (fun key other => name.key? = some key ∧ other = relabel.key key) name.key
      (relabel.name name).key := by
  unfold Json.key
  rw [key?_name]
  cases name.key? with
  | none => exact .error rfl
  | some => exact .ok ⟨rfl, rfl⟩

variable {relabel}

/-- Keys that do not clash with new names have different new keys. -/
theorem key_injective (h : relabel.IsInjective) {a b : Key} (ha : relabel.Keeps a)
    (hsecond : relabel.Keeps b) (heq : relabel.key a = relabel.key b) : a = b := by
  cases a with
  | text text =>
    cases b with
    | text other =>
      have heq : (relabel text).getD text = (relabel other).getD other := Key.text.inj heq
      cases htext : relabel text with
      | none =>
        cases hother : relabel other with
        | none => rw [htext, hother] at heq; exact congrArg Key.text heq
        | some =>
          rw [htext, hother] at heq
          exact (ha text rfl htext other (by rw [hother]; exact congrArg some heq.symm)).elim
      | some new =>
        cases hother : relabel other with
        | none =>
          rw [htext, hother] at heq
          exact (hsecond other rfl hother text (by rw [htext]; exact congrArg some heq)).elim
        | some otherNew =>
          rw [htext, hother] at heq
          cases (heq : new = otherNew)
          exact congrArg Key.text (h text other new htext hother)
    | _ => cases heq
  | _ =>
    cases b with
    | text => cases heq
    | _ => exact heq

/-- A name gets a new name, or it is kept and nothing is put in its place. -/
theorem renamed_or_kept (relabel : Renaming) (name : Name) :
    (∃ old new, name = .str old ∧ relabel old = some new) ∨
      relabel.name name = name ∧ Unbound relabel.substitution.scope name := by
  cases name with
  | str old =>
    cases hnew : relabel old with
    | some new => exact .inl ⟨old, new, rfl, hnew⟩
    | none =>
      refine .inr ⟨by rw [Renaming.name, hnew]; rfl, fun key hk => ?_⟩
      cases hk
      simp [Substitution.scope, substitution, hnew]
  | float =>
    refine .inr ⟨rfl, fun key hk => ?_⟩
    rw [Json.key?] at hk
    split at hk
    · cases hk
      rfl
    · cases hk
      rfl
  | arr | obj => exact .inr ⟨rfl, fun key hk => (by cases hk)⟩
  | _ => exact .inr ⟨rfl, fun key hk => by cases hk; rfl⟩

theorem substitution_proper (relabel : Renaming) : relabel.substitution.Proper := by
  have hnamed (key : Key) (t : TypeExpr) (h : relabel.substitution key = some t) :
      ∃ new, t = .reference (.str new) [] := by
    cases key with
    | text =>
      obtain ⟨new, -, rfl⟩ := Option.map_eq_some_iff.1 h
      exact ⟨new, rfl⟩
    | _ => cases h
  refine ⟨fun key t h => ?_, fun key t h => ?_⟩
  · obtain ⟨new, rfl⟩ := hnamed key t h
    trivial
  · obtain ⟨new, rfl⟩ := hnamed key t h
    exact ⟨new, rfl⟩

theorem substitution_none : Renaming.none.substitution = Substitution.none := by
  funext key
  cases key <;> rfl

theorem name_none (name : Name) : Renaming.none.name name = name := by
  cases name <;> rfl

theorem key_none (key : Key) : Renaming.none.key key = key := by
  cases key <;> rfl

end Renaming

namespace TypeExpr

theorem In.trans {inner middle t : TypeExpr} (h : inner.In middle) (hmiddle : middle.In t) :
    inner.In t := by
  rcases hmiddle with rfl | hmiddle
  · exact h
  · exact h.within hmiddle

theorem unwrap_in (t : TypeExpr) : t.unwrap.In t := by
  fun_induction unwrap t with
  | case1 t ih => exact ih.within (.part (mem_singleton.2 rfl))
  | case2 => exact .inl rfl

/-- The names in a type can be renamed: the ones that get new names have no arguments, and the
others are none of the new names. -/
structure Renamable (relabel : Renaming) (type : TypeExpr) : Prop where
  plain : ∀ old arguments, (reference (.str old) arguments).In type →
    (relabel old).isSome → arguments = []
  kept : ∀ name arguments, (reference name arguments).In type →
    ∀ key, name.key? = some key → relabel.Keeps key

variable {relabel : Renaming}

theorem Renamable.inner {t part : TypeExpr} (h : t.Renamable relabel)
    (hpart : part.In t) : part.Renamable relabel :=
  ⟨fun old args hin => h.plain old args (hin.trans hpart),
    fun name args hin => h.kept name args (hin.trans hpart)⟩

theorem renamable_none (t : TypeExpr) : t.Renamable .none :=
  ⟨fun _ _ _ h => (by cases h), fun _ _ _ _ _ _ _ _ _ h => (by cases h)⟩

/-- A named type keeps its arguments when it is renamed. -/
theorem Renamable.reference {name : Name} (h : (reference name args).Renamable relabel) :
    (TypeExpr.reference name args).instantiate relabel.substitution =
      .reference (relabel.name name) (args.map (TypeExpr.instantiate relabel.substitution)) := by
  rcases relabel.renamed_or_kept name with ⟨old, new, rfl, hnew⟩ | ⟨hn, hunbound⟩
  · cases h.plain old args (.inl rfl) (by simp [hnew])
    have hk : Json.key? (.str old) = some (.text old) := rfl
    rw [instantiate_replaced hk (by rw [Renaming.substitution, hnew]; rfl), Renaming.name, hnew]
    rfl
  · rw [instantiate_reference hunbound, hn]

/-- A type can be shown if it can be with parameters renamed. -/
theorem Renamable.keeps_text (h : t.Renamable relabel) :
    (t.instantiate relabel.substitution).KeepsText t := by
  induction t using parts_induction with
  | h t ih =>
    have hsettled (hsettled : t.Settled relabel.substitution.scope) :
        (t.instantiate relabel.substitution).KeepsText t := by
      obtain ⟨hjoins, hshows⟩ := shows_text_instantiate hsettled
      refine keeps_text_of_parts (fun part hpart => ⟨part.instantiate relabel.substitution, ?_,
        ih part hpart (h.inner (.inr (.part hpart)))⟩) hjoins.2 hshows.1
      rw [parts_instantiate hsettled]
      exact mem_map_of_mem hpart
    cases t with
    | reference name args =>
      rcases relabel.renamed_or_kept name with ⟨old, new, rfl, hnew⟩ | ⟨-, hunbound⟩
      · cases h.plain old args (.inl rfl) (by simp [hnew])
        exact ⟨fun _ => ⟨_, rfl⟩, fun _ => ⟨_, rfl⟩⟩
      · exact hsettled fun _ _ heq => by cases heq; exact hunbound
    | _ => exact hsettled fun _ _ heq => by cases heq

/-- A type can be shown exactly when it can be with parameters renamed. -/
theorem Renamable.text_agrees (h : t.Renamable relabel) :
    Concurs Eq (fun _ _ => True) t.text (t.instantiate relabel.substitution).text := by
  have hkept : t.HasText → (t.instantiate relabel.substitution).HasText :=
    (TypeExpr.keeps_text relabel.substitution_proper t).1
  have ht := t.text_shown
  have hother := (t.instantiate relabel.substitution).text_shown
  generalize t.text = a at ht ⊢
  generalize (t.instantiate relabel.substitution).text = b at hother ⊢
  cases ht with
  | ok hshown =>
    cases hother with
    | ok => exact .ok trivial
    | fault hnone => exact (hnone (hkept hshown)).elim
  | fault hnone =>
    cases hother with
    | ok hshown => exact (hnone (h.keeps_text.1 hshown)).elim
    | fault => exact .error rfl

end TypeExpr

/-- A name that means nothing outside of the declaration that it is a parameter of. -/
structure Program.Unclaimed (program : Program) (name : Name) : Prop where
  undeclared : ∀ declaration ∈ program.unit.declarations, declaration.name ≠ name
  unknown : Builtin.ofName? name = none
  present : program.settings.isMaybeName name ≠ .ok true

/-- A renaming that keeps names apart, and whose names mean nothing else. -/
structure Renaming.Proper (program : Program) (relabel : Renaming) : Prop where
  injective : relabel.IsInjective
  old : ∀ old new, relabel old = some new → program.Unclaimed (.str old)
  new : ∀ old new, relabel old = some new → program.Unclaimed (.str new)

theorem Renaming.none_proper (p : Program) : Renaming.none.Proper p where
  injective _ _ _ h := by cases h
  old _ _ h := by cases h
  new _ _ h := by cases h

section Environments

variable (program : Program) (renamed : Declaration → Prop)

/-- The parameters from a place on have defaults, which mention no parameters but those before
them. -/
def Declaration.DefaultsFrom (declaration : Declaration) (place : Nat) : Prop :=
  ∀ before parameter after, declaration.parameters = before ++ parameter :: after →
    place ≤ before.length → ∃ type, parameter.default = some type ∧
      ∀ other ∈ declaration.parameters, ∀ arguments,
        (TypeExpr.reference other.name arguments).In type →
          ∃ earlier ∈ before, earlier.name = other.name

theorem Declaration.DefaultsFrom.mono {decl : Declaration} {place later : Nat}
    (h : decl.DefaultsFrom place) (hlater : place ≤ later) : decl.DefaultsFrom later :=
  fun before param after hparams hplace =>
    h before param after hparams (hlater.trans hplace)

/-- With arguments, references to the declaration leave out only parameters that have defaults. -/
def Program.Supplies (declaration : Declaration) (type : TypeExpr) : Prop :=
  ∀ name arguments, (TypeExpr.reference name arguments).In type → arguments ≠ [] →
    program.find name = .ok (some declaration) → declaration.DefaultsFrom arguments.length

/-- A type that can be renamed in an environment: names that get new names are bound there, and the
declarations whose parameters are renamed have all arguments. -/
structure Program.Fits (relabel : Renaming) (environment : Environment) (type : TypeExpr) :
    Prop where
  renamable : type.Renamable relabel
  bound : ∀ old arguments, (TypeExpr.reference (.str old) arguments).In type →
    (relabel old).isSome → (environment.binding? (.text old)).isSome
  supplied : ∀ declaration, renamed declaration → program.Supplies declaration type

/-- Two environments, the second of which has new names: what a name is bound to in the first one,
its new name is bound to in the second one, with parameters renamed. -/
inductive Mirrors : Renaming → Environment → Environment → Prop where
  | intro {relabel : Renaming} {first second : Environment}
      (other : Key → Binding Environment) (via : Key → Renaming)
      (hdepth : second.depth = first.depth)
      (hunbound : ∀ key, relabel.Keeps key → first.binding? key = none →
        second.binding? (relabel.key key) = none)
      (hbound : ∀ key binding, relabel.Keeps key → first.binding? key = some binding →
        second.binding? (relabel.key key) = some (other key) ∧ (via key).Proper program ∧
          program.Fits renamed (via key) binding.environment binding.type ∧
          (other key).type = binding.type.instantiate (via key).substitution)
      (hmirrors : ∀ key binding, relabel.Keeps key → first.binding? key = some binding →
        Mirrors (via key) binding.environment (other key).environment) :
      Mirrors relabel first second

/-- A type in an environment, and the type with new names in the environment that has them. -/
structure MirroredBy (relabel : Renaming) (first second : TypeExpr × Environment) : Prop where
  proper : relabel.Proper program
  fits : program.Fits renamed relabel first.2 first.1
  type : second.1 = first.1.instantiate relabel.substitution
  environments : Mirrors program renamed relabel first.2 second.2

/-- A type in an environment is another one but for the names of parameters. -/
def Mirrored (first second : TypeExpr × Environment) : Prop :=
  ∃ relabel, MirroredBy program renamed relabel first second

end Environments

section Mirrors

variable {p : Program} {renamed : Declaration → Prop} {relabel : Renaming}
  {first second : Environment} {piece other : TypeExpr}

theorem Program.Fits.inner (h : p.Fits renamed relabel first t) (hpart : piece.In t) :
    p.Fits renamed relabel first piece :=
  ⟨h.renamable.inner hpart, fun old args hin => h.bound old args (hin.trans hpart),
    fun decl hdecl name args hin =>
      h.supplied decl hdecl name args (hin.trans hpart)⟩

theorem Mirrors.depth_eq (h : Mirrors p renamed relabel first second) :
    second.depth = first.depth := by
  cases h with
  | intro other via hdepth => exact hdepth

/-- A name and its new name are bound in neither environment or to types that are the same but for
the names of parameters. -/
theorem Mirrors.kept (h : Mirrors p renamed relabel first second) {key : Key}
    (hk : relabel.Keeps key) :
    Environment.BoundAlike (Mirrored p renamed) first second key (relabel.key key) := by
  cases h with
  | intro other via hdepth hunbound hbound hmirrors =>
    unfold Environment.BoundAlike
    cases hb : first.binding? key with
    | none =>
      rw [hunbound key hk hb]
      exact .none
    | some b =>
      obtain ⟨hother, hproper, hfits, ht⟩ := hbound key b hk hb
      rw [hother]
      exact .some ⟨via key, hproper, hfits, ht, hmirrors key b hk hb⟩

/-- Environments mirror each other when their bindings do. -/
theorem mirrors_of_bindings (hdepth : second.depth = first.depth)
    (hkept : ∀ key, relabel.Keeps key →
      Environment.BoundAlike (Mirrored p renamed) first second key (relabel.key key)) :
    Mirrors p renamed relabel first second := by
  obtain ⟨other, via, hunbound, hbound⟩ := bindings_chosen hkept
  refine .intro other via hdepth hunbound ?_ ?_
  · intro key b hk hb
    obtain ⟨hsecond, hmirrored⟩ := hbound key b hk hb
    exact ⟨hsecond, hmirrored.proper, hmirrored.fits, hmirrored.type⟩
  · intro key b hk hb
    exact (hbound key b hk hb).2.environments

section Mirrored

variable (h : MirroredBy p renamed relabel (t, first) (other, second))

include h

theorem MirroredBy.inner (hpart : piece.In t) :
    MirroredBy p renamed relabel (piece, first) (piece.instantiate relabel.substitution, second) :=
  ⟨h.proper, h.fits.inner hpart, rfl, h.environments⟩

/-- The parts of a type mirror the parts of the type with new names. -/
theorem MirroredBy.part (hpart : piece ∈ t.parts) :
    MirroredBy p renamed relabel (piece, first) (piece.instantiate relabel.substitution, second) :=
  h.inner (.inr (.part hpart))

theorem MirroredBy.unwrap :
    MirroredBy p renamed relabel (t.unwrap, first) (other.unwrap, second) := by
  have ht : other = t.instantiate relabel.substitution := h.type
  rw [ht, TypeExpr.unwrap_instantiate relabel.substitution_proper]
  exact h.inner t.unwrap_in

theorem MirroredBy.text_agrees : Concurs Eq (fun _ _ => True) t.text other.text := by
  have ht : other = t.instantiate relabel.substitution := h.type
  rw [ht]
  exact h.fits.renamable.text_agrees

end Mirrored

/-- A named type is the same named type under its new name. -/
theorem MirroredBy.reference {name : Name}
    (h : MirroredBy p renamed relabel (.reference name args, first) (other, second)) :
    other = .reference (relabel.name name) (args.map (TypeExpr.instantiate relabel.substitution)) :=
  h.type.trans h.fits.renamable.reference

/-- A type is not a name that gets a new one. -/
def TypeExpr.IsKept (relabel : Renaming) (type : TypeExpr) : Prop :=
  ∀ name arguments, type = .reference name arguments → relabel.name name = name

/-- A name that is not bound, or that has arguments, is kept. -/
theorem Program.Fits.name_eq {name : Name} (h : p.Fits renamed relabel first (.reference name args))
    (hn : args = [] → ∀ key, name.key? = some key → first.binding? key = none) :
    relabel.name name = name := by
  rcases relabel.renamed_or_kept name with ⟨old, new, rfl, hnew⟩ | ⟨hkept, -⟩
  · have hsome : (relabel old).isSome := by simp [hnew]
    have hbound := h.bound old args (.inl rfl) hsome
    rw [hn (h.renamable.plain old args (.inl rfl) hsome) (.text old) rfl] at hbound
    cases hbound
  · exact hkept

/-- Types that mirror each other lead to types that do so, the first of which is kept. -/
theorem resolve_mirrored (h : MirroredBy p renamed relabel (t, first) (other, second)) :
    Concurs Eq (fun found reached =>
        ∃ via, MirroredBy p renamed via found reached ∧ found.1.IsKept via)
      (first.resolve t) (second.resolve other) := by
  obtain ⟨hproper, hfits, ht, hmirrors⟩ := h
  dsimp only at hfits ht hmirrors
  -- The induction follows the bindings, which lead to environments that mirror each other again.
  induction hmirrors generalizing t other with
  | @intro relabel first second otherBinding via hdepth hunbound hbound hmirrors ih =>
    have hmirrored : MirroredBy p renamed relabel (t, first) (other, second) :=
      ⟨hproper, hfits, ht, .intro otherBinding via hdepth hunbound hbound hmirrors⟩
    by_cases hn : ∃ name, t = .reference name []
    · obtain ⟨name, rfl⟩ := hn
      obtain rfl : other = .reference (relabel.name name) [] := hmirrored.reference
      rw [first.resolve_name, second.resolve_name]
      refine concurs_bind (relabel.key_name name) fun key newKey ⟨hk, hnewKey⟩ => ?_
      subst hnewKey
      have hkeeps : relabel.Keeps key := hfits.renamable.kept name [] (.inl rfl) key hk
      cases hb : first.binding? key with
      | none =>
        rw [hunbound key hkeeps hb]
        refine .ok ⟨relabel, hmirrored, fun found args heq => ?_⟩
        cases heq
        refine hfits.name_eq fun _ other hother => ?_
        cases hk.symm.trans hother
        exact hb
      | some b =>
        obtain ⟨hother, hbindingProper, hbindingFits, hbindingType⟩ := hbound key b hkeeps hb
        rw [hother]
        refine ih key b hkeeps hb hbindingProper (hbindingFits.inner b.type.unwrap_in) ?_
        rw [hbindingType, TypeExpr.unwrap_instantiate (via key).substitution_proper]
    · have hne : ∀ name, t ≠ .reference name [] := fun name heq => hn ⟨name, heq⟩
      have hkept : t.IsKept relabel := by
        intro name args heq
        subst heq
        exact hfits.name_eq fun hnone => (hne name (by rw [hnone])).elim
      have hotherNe : ∀ name, other ≠ .reference name [] := by
        intro name heq
        cases t with
        | reference found args =>
          cases args with
          | nil => exact hne found rfl
          | cons => cases hmirrored.reference.symm.trans heq
        | _ => cases ht.symm.trans heq
      rw [Environment.resolve_of_ne hne, Environment.resolve_of_ne hotherNe]
      exact .ok ⟨relabel, hmirrored, hkept⟩

/-- One more parameter is bound, under its name and under its new name. -/
theorem mirrors_bind (hproper : relabel.Proper p) (h : Mirrors p renamed relabel first second)
    {name : Name} (hn : ∀ key, name.key? = some key → relabel.Keeps key)
    {read otherRead : Environment} (hmirrored : Mirrored p renamed (t, read) (other, otherRead)) :
    Concurs Eq (fun bound otherBound => Mirrors p renamed relabel bound otherBound ∧
        ∀ key, name.key? = some key ∨ (first.binding? key).isSome → (bound.binding? key).isSome)
      (first.bind name t read) (second.bind (relabel.name name) other otherRead) := by
  refine concurs_bind (relabel.key_name name) fun key newKey ⟨hk, hnewKey⟩ => .ok ?_
  subst hnewKey
  have hnew : (relabel.name name).key? = some (relabel.key key) := by
    rw [Renaming.key?_name, hk, Option.map_some]
  have hfind := @Environment.find_put_binding key ⟨name, t, read⟩ hk first.bindings
  refine ⟨mirrors_of_bindings h.depth_eq fun found hf => ?_, fun found hf => ?_⟩
  · rw [Environment.BoundAlike, Environment.binding?, Environment.binding?]
    obtain ⟨spelled, ha⟩ := hfind found
    obtain ⟨otherSpelled, hsecond⟩ := @Environment.find_put_binding (relabel.key key)
      ⟨relabel.name name, other, otherRead⟩ hnew second.bindings (relabel.key found)
    by_cases heq : found = key
    · rw [if_pos heq] at ha
      rw [if_pos (congrArg relabel.key heq)] at hsecond
      rw [Environment.bindings, Environment.bindings, ha, hsecond]
      exact .some hmirrored
    · -- Different names stay different, so the new binding hides no other one.
      have hne : relabel.key found ≠ relabel.key key := fun hkeys =>
        heq (Renaming.key_injective hproper.injective hf (hn key hk) hkeys)
      rw [if_neg heq] at ha
      rw [if_neg hne] at hsecond
      rw [Environment.bindings, Environment.bindings, ha, hsecond]
      exact h.kept hf
  · obtain ⟨spelled, ha⟩ := hfind found
    have hbound : (Environment.mk first.depth (Environment.putBinding key ⟨name, t, read⟩
        first.bindings)).binding? found = _ := ha
    rw [hbound]
    by_cases heq : found = key
    · rw [if_pos heq]
      rfl
    · rw [if_neg heq]
      rcases hf with hf | hf
      · exact (heq (Option.some.inj (hf.symm.trans hk))).elim
      · exact hf

theorem mirrors_enter (h : second.depth = first.depth) :
    Mirrors p renamed relabel first.enter second.enter :=
  mirrors_of_bindings (congrArg (· + 1) h) fun _ _ => .none

theorem mirrors_empty : Mirrors p renamed relabel .empty .empty :=
  mirrors_of_bindings rfl fun _ _ => .none

/-- Environments mirror each other without a name that is kept. -/
theorem mirrors_without (h : Mirrors p renamed .none first second) {name : Name} {key : Key}
    (hk : name.key? = some key) :
    Mirrors p renamed .none (first.without name) (second.without name) := by
  refine mirrors_of_bindings h.depth_eq fun found hf => ?_
  have hkept := h.kept hf
  rw [Renaming.key_none] at hkept ⊢
  rw [Environment.BoundAlike, first.binding_without hk, second.binding_without hk]
  by_cases heq : found = key
  · rw [if_pos heq, if_pos heq]
    exact .none
  · rw [if_neg heq, if_neg heq]
    exact hkept

end Mirrors

section Declarations

variable (relabel : Renaming)

/-- The parameter under its new name, with parameters renamed in its default. -/
def GenericParameter.rename (parameter : GenericParameter) : GenericParameter :=
  { parameter with
    name := relabel.name parameter.name
    default := parameter.default.map (TypeExpr.instantiate relabel.substitution) }

/-- The declaration with its parameters renamed, in its body and in the defaults. -/
def Declaration.rename : Declaration → Declaration
  | .interface declared => .interface { declared with
      parameters := declared.parameters.map (GenericParameter.rename relabel)
      members := TypeExpr.instantiateMembers relabel.substitution declared.members
      index := TypeExpr.instantiateIndex relabel.substitution declared.index }
  | .typeAlias declared => .typeAlias { declared with
      parameters := declared.parameters.map (GenericParameter.rename relabel)
      type := declared.type.instantiate relabel.substitution }
  | .enumeration declared => .enumeration declared

theorem Declaration.rename_name (decl : Declaration) : (decl.rename relabel).name = decl.name := by
  cases decl <;> rfl

theorem Declaration.rename_parameters (decl : Declaration) :
    (decl.rename relabel).parameters = decl.parameters.map (GenericParameter.rename relabel) := by
  cases decl <;> rfl

theorem Declaration.rename_none (decl : Declaration) : decl.rename .none = decl := by
  have hparams (params : List GenericParameter) :
      params.map (GenericParameter.rename .none) = params := by
    refine (map_congr_left fun param _ => ?_).trans (map_id' params)
    have hdefault : param.default.map (TypeExpr.instantiate Substitution.none) = param.default := by
      cases param.default with
      | none => rfl
      | some => rw [Option.map_some, TypeExpr.instantiate_none]
    rw [GenericParameter.rename, Renaming.name_none, Renaming.substitution_none, hdefault]
  cases decl with
  | interface d =>
    obtain ⟨hms, hidx⟩ := TypeExpr.object.inj
      (TypeExpr.instantiate_none (.object d.members d.index))
    rw [Declaration.rename, hparams, Renaming.substitution_none, hms, hidx]
  | typeAlias =>
    rw [Declaration.rename, hparams, Renaming.substitution_none, TypeExpr.instantiate_none]
  | enumeration => rfl

end Declarations

namespace Program

section Hygiene

variable (program : Program)

/-- New names for parameters of a declaration, different from one another, from the names of the
other parameters and from all names that mean something in the program. -/
structure RenamesParameters (declaration : Declaration) (relabel : Renaming) : Prop where
  proper : relabel.Proper program
  parameters : ∀ old, (relabel old).isSome →
    ∃ parameter ∈ declaration.parameters, parameter.name = .str old
  kept : ∀ parameter ∈ declaration.parameters, ∀ key, parameter.name.key? = some key →
    relabel.Keeps key

/-- The parameters of a declaration can be renamed: the new names mean nothing else in the
declaration either, and a parameter with a new name has no arguments of its own. -/
structure CanRename (declaration : Declaration) (relabel : Renaming) : Prop
    extends program.RenamesParameters declaration relabel where
  types : ∀ type ∈ declaration.types, type.Renamable relabel

theorem can_rename_none (decl : Declaration) : program.CanRename decl .none where
  proper := Renaming.none_proper program
  parameters _ h := by cases h
  kept _ _ _ _ _ _ _ _ h := by cases h
  types t _ := t.renamable_none

variable (renamed : Declaration → Prop)

/-- A declaration, and what it becomes when its parameters are renamed. Only those of some
declarations get new names. -/
structure Becomes (relabel : Renaming) (declaration other : Declaration) : Prop where
  renames : program.CanRename declaration relabel
  supplied : ∀ type ∈ declaration.types, ∀ target, renamed target → program.Supplies target type
  other_eq : other = declaration.rename relabel
  chosen : relabel = .none ∨ renamed declaration

/-- A source unit is the one of the program with parameters renamed in some declarations, none of
which is reserved. -/
structure RenamesTo (unit : SourceUnit) : Prop where
  declarations : List.Forall₂ (fun declaration other =>
    ∃ relabel, program.Becomes renamed relabel declaration other)
    program.unit.declarations unit.declarations
  general : ∀ declaration, renamed declaration →
    ∀ declared, program.reserved? (some declaration) ≠ .ok (some declared)

end Hygiene

section Entering

variable {p : Program} {renamed : Declaration → Prop} {relabel : Renaming}
  {decl other : Declaration} {a b : Environment}

/-- The parameters that get new names are bound in an environment. -/
def Covers (relabel : Renaming) (parameters : List GenericParameter) (environment : Environment) :
    Prop :=
  ∀ old, (relabel old).isSome → ∀ parameter ∈ parameters, parameter.name = .str old →
    (environment.binding? (.text old)).isSome

theorem Covers.add {params : List GenericParameter} (h : Covers relabel params a)
    {param : GenericParameter}
    (hbound : ∀ key, param.name.key? = some key ∨ (a.binding? key).isSome →
      (b.binding? key).isSome) :
    Covers relabel (params ++ [param]) b := by
  intro old hold found hf hn
  rcases mem_append.1 hf with hf | hf
  · exact hbound _ (.inr (h old hold found hf hn))
  · cases mem_singleton.1 hf
    exact hbound _ (.inl (by rw [hn]; rfl))

/-- A default fits where the parameters before it are bound. -/
theorem Becomes.default_fits (h : p.Becomes renamed relabel decl other)
    {before after : List GenericParameter} {param : GenericParameter}
    (hparams : decl.parameters = before ++ param :: after)
    (ht : param.default = some t) (hcovers : Covers relabel before a)
    (hdefaults : relabel = .none ∨ decl.DefaultsFrom before.length) :
    p.Fits renamed relabel a t := by
  have hmem : t ∈ decl.types := by
    refine mem_append_right _ (mem_filterMap.2 ⟨param, ?_, ht⟩)
    rw [hparams]
    exact mem_append_right _ mem_cons_self
  refine ⟨h.renames.types t hmem, fun old args hin hold => ?_, h.supplied t hmem⟩
  rcases hdefaults with rfl | hdefaults
  · cases hold
  · obtain ⟨found, hf, hmentions⟩ := hdefaults before param after hparams le_rfl
    cases hf.symm.trans ht
    obtain ⟨mentioned, hmentioned, hn⟩ := h.renames.parameters old hold
    rw [← hn] at hin
    obtain ⟨earlier, hearlier, hsame⟩ := hmentions mentioned hmentioned args hin
    exact hcovers old hold earlier hearlier (hsame.trans hn)

/-- The types of a body fit where the parameters are bound. -/
theorem Becomes.body_fits (h : p.Becomes renamed relabel decl other)
    (hcovers : Covers relabel decl.parameters a)
    (ht : t ∈ decl.bodyTypes) : p.Fits renamed relabel a t := by
  have hmem : t ∈ decl.types := mem_append_left _ ht
  refine ⟨h.renames.types t hmem, fun old args hin hold => ?_, h.supplied t hmem⟩
  obtain ⟨param, hparam, hn⟩ := h.renames.parameters old hold
  exact hcovers old hold param hparam hn

/-- A declaration is entered in environments that mirror each other and bind its parameters. -/
theorem mirrors_bind_types (hbecomes : p.Becomes renamed relabel decl other)
    {via : Renaming} {caller otherCaller : Environment} (hproper : via.Proper p)
    (hcaller : Mirrors p renamed via caller otherCaller)
    {before params : List GenericParameter}
    (hargs : ∀ arg ∈ args, p.Fits renamed via caller arg)
    (hparams : decl.parameters = before ++ params)
    (h : Mirrors p renamed relabel a b) (hcovers : Covers relabel before a)
    (hsupplied : relabel = .none ∨ decl.DefaultsFrom (before.length + args.length)) :
    Concurs Eq (fun bound otherBound => Mirrors p renamed relabel bound otherBound ∧
        Covers relabel decl.parameters bound)
      (bindTypes caller params args a)
      (bindTypes otherCaller (params.map (GenericParameter.rename relabel))
        (args.map (TypeExpr.instantiate via.substitution)) b) := by
  fun_induction bindTypes caller params args a generalizing before b with
  | case1 =>
    refine .ok ⟨h, ?_⟩
    rw [hparams, append_nil]
    exact hcovers
  | case2 param rest arg others a ih =>
    have hkept := hbecomes.renames.kept param (by simp [hparams])
    have hmirrored : Mirrored p renamed (arg, caller)
        (arg.instantiate via.substitution, otherCaller) :=
      ⟨via, hproper, hargs arg mem_cons_self, rfl, hcaller⟩
    refine concurs_bind (mirrors_bind hbecomes.renames.proper h hkept hmirrored)
      fun bound otherBound hbound => ?_
    refine ih bound (forall_mem_cons.1 hargs).2
      (by simp [hparams]) hbound.1 (hcovers.add hbound.2) ?_
    exact hsupplied.imp_right fun hdefaults => hdefaults.mono (by simp; omega)
  | case3 name limit t rest a ih =>
    have hkept := hbecomes.renames.kept ⟨name, limit, some t⟩ (by simp [hparams])
    have hfits := hbecomes.default_fits hparams rfl hcovers hsupplied
    refine concurs_bind (mirrors_bind hbecomes.renames.proper h hkept
      ⟨relabel, hbecomes.renames.proper, hfits, rfl, h⟩) fun bound otherBound hbound => ?_
    refine ih bound hargs (by simp [hparams]) hbound.1 (hcovers.add hbound.2) ?_
    exact hsupplied.imp_right fun hdefaults => hdefaults.mono (by simp)
  | case4 name limit rest a ih =>
    -- A parameter is left out only where no parameter gets a new name.
    have hnone : relabel = .none := by
      rcases hsupplied with hnone | hdefaults
      · exact hnone
      · obtain ⟨t, ht, -⟩ := hdefaults before ⟨name, limit, none⟩ rest hparams le_rfl
        cases ht
    refine @ih b (before ++ [⟨name, limit, none⟩]) hargs (by simp [hparams]) h
      (fun old hold => ?_) (.inl hnone)
    rw [hnone] at hold
    cases hold

end Entering

section Finding

variable {p : Program} {renamed : Declaration → Prop} {unit : SourceUnit}

theorem Becomes.name {relabel : Renaming} {decl other : Declaration}
    (h : p.Becomes renamed relabel decl other) : other.name = decl.name := by
  rw [h.other_eq, Declaration.rename_name]

/-- The declarations of a key are the same but for the names of parameters. -/
theorem RenamesTo.declaration (h : p.RenamesTo renamed unit) (key : Key) :
    Option.Rel (fun decl other =>
        ∃ relabel, p.Becomes renamed relabel decl other)
      (p.declaration? key) ((p.withUnit unit).declaration? key) :=
  find_related h.declarations fun hbecomes => by rw [hbecomes.choose_spec.name]

theorem Unclaimed.declaration {text : String} (h : p.Unclaimed (.str text)) :
    p.declaration? (.text text) = none := by
  refine find?_eq_none.2 fun decl hdecl hk => ?_
  refine h.undeclared decl hdecl ?_
  exact eq_text_of_key (of_decide_eq_true hk)

/-- A name that is not declared is so under new names. -/
theorem RenamesTo.undeclared (h : p.RenamesTo renamed unit) {text : String}
    (htext : p.Unclaimed (.str text)) : (p.withUnit unit).declaration? (.text text) = none := by
  have hrel := h.declaration (.text text)
  rw [htext.declaration] at hrel
  generalize (p.withUnit unit).declaration? (.text text) = found at hrel
  cases hrel
  rfl

/-- A name and its new name are declared alike. -/
theorem RenamesTo.find (h : p.RenamesTo renamed unit) {relabel : Renaming}
    (hproper : relabel.Proper p) (name : Name) :
    Concurs Eq (Option.Rel fun decl other =>
        ∃ relabel, p.Becomes renamed relabel decl other)
      (p.find name) ((p.withUnit unit).find (relabel.name name)) := by
  rcases relabel.renamed_or_kept name with ⟨old, new, rfl, hnew⟩ | ⟨hkept, -⟩
  · -- Neither the name nor its new name is declared.
    refine .ok ?_
    rw [(hproper.old old new hnew).declaration, hnew]
    dsimp only [Option.getD_some]
    rw [h.undeclared (hproper.new old new hnew)]
    exact .none
  · rw [hkept]
    exact concurs_bind (concurs_refl _) fun key _ heq => heq ▸ .ok (h.declaration key)

/-- Declarations of one name whose schemas correspond are compiled alike. -/
theorem compiled_concurs {decl other : Declaration}
    (hn : other.name = decl.name)
    (h : Corresponds Eq (p.declarationSchema decl) ((p.withUnit unit).declarationSchema other)) :
    Concurs Failure.SameClass (fun compiled other : Compiled =>
        other.schema = compiled.schema ∧ other.dependencies = compiled.dependencies)
      (p.compileDeclaration decl).result ((p.withUnit unit).compileDeclaration other).result := by
  unfold compileDeclaration
  dsimp only
  rw [hn, used_names_of_marks h.marks]
  refine concurs_bind h.results fun s _ hs => ?_
  refine concurs_bind (concurs_same _) fun name _ _ => ?_
  refine concurs_bind (concurs_same _) fun dependencies _ hdependencies => ?_
  exact .ok ⟨hs.symm, hdependencies.symm⟩

end Finding

end Program

end Schemata
