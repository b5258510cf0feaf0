import Schemata.Proofs.Comparison
import Schemata.Proofs.Exactness

/-!
# Computations that correspond

`Corresponds` compares two computations that do the same step by step, maybe on different data: both
give values that are related, or both fail in the same way. The one does not have to come out well
for the other one to be told. `Concurs` says the same of plain results. There is a rule for each way
to put computations together.
-/

namespace Schemata

/-- The same failure, where the texts may differ that show what an indexed access ends on. -/
inductive Failure.SameClass : Failure → Failure → Prop where
  | refl (failure : Failure) : SameClass failure failure
  | access (root other : Json) :
      SameClass (.compile (.indexedAccess root)) (.compile (.indexedAccess other))

/-- Two results: values that are related, or errors that are. -/
inductive Concurs {ε α β : Type} (errors : ε → ε → Prop) (values : α → β → Prop) :
    Except ε α → Except ε β → Prop where
  | ok {value other} (h : values value other) : Concurs errors values (.ok value) (.ok other)
  | error {error other} (h : errors error other) :
      Concurs errors values (.error error) (.error other)

/-- Two computations that give related values or fail in the same way, and that tell the same of the
schema. -/
structure Corresponds {α β : Type} (related : α → β → Prop) (first : Compilation α)
    (second : Compilation β) : Prop where
  results : Concurs Failure.SameClass related first.result second.result
  marks : marks second.trace = marks first.trace

section Concurs

variable {ε α β γ δ : Type} {errors : ε → ε → Prop} {values : α → β → Prop}
  {results : γ → δ → Prop}

theorem concurs_refl (result : Except ε α) : Concurs Eq Eq result result := by
  cases result with
  | ok => exact .ok rfl
  | error error => exact .error rfl

theorem concurs_same (result : Except Failure α) : Concurs Failure.SameClass Eq result result := by
  cases result with
  | ok => exact .ok rfl
  | error failure => exact .error (.refl failure)

theorem Concurs.imp {others : α → β → Prop} {a : Except ε α} {b : Except ε β}
    (h : Concurs errors values a b)
    (himp : ∀ v other, a = .ok v → b = .ok other → values v other → others v other) :
    Concurs errors others a b := by
  cases h with
  | ok hvalues => exact .ok (himp _ _ rfl rfl hvalues)
  | error herrors => exact .error herrors

/-- What is found agrees in another way if it does so where something is found. -/
theorem Concurs.found {others : α → β → Prop} {a : Except ε (Option α)} {b : Except ε (Option β)}
    (h : Concurs errors (Option.Rel values) a b)
    (himp : ∀ {v other}, a = .ok (some v) → values v other → others v other) :
    Concurs errors (Option.Rel others) a b :=
  h.imp fun _ _ hf _ hrel => rel_imp hrel fun _ hv _ _ => himp (hf.trans (congrArg _ hv))

/-- Results that agree are continued by results that agree. -/
theorem concurs_bind {a : Except ε α} {b : Except ε β} {next : α → Except ε γ}
    {otherNext : β → Except ε δ} (ha : Concurs errors values a b)
    (hnext : ∀ v other, values v other → Concurs errors results (next v) (otherNext other)) :
    Concurs errors results (a >>= next) (b >>= otherNext) := by
  cases ha with
  | ok hvalues => exact hnext _ _ hvalues
  | error herrors => exact .error herrors

end Concurs

/-- The comparison of results that are related values or the same fault. -/
def sameFaults : ResultComparison where
  agrees := Concurs Eq
  forgives := False
  agrees_ok := .ok
  agrees_error _ := .error rfl
  agrees_any _ _ h := h.elim
  agrees_bind := concurs_bind

section Corresponds

variable {α β γ δ : Type} {related : α → β → Prop} {result : γ → δ → Prop}

theorem corresponds_pure {v : α} {other : β} (h : related v other) :
    Corresponds related (pure v) (pure other) := ⟨.ok h, rfl⟩

theorem corresponds_refl (comp : Compilation α) : Corresponds Eq comp comp := ⟨concurs_same _, rfl⟩

theorem corresponds_fail {failure other : Failure} (h : failure.SameClass other) :
    Corresponds related (Traced.fail failure) (Traced.fail other) := ⟨.error h, rfl⟩

/-- Both computations fail for the same reason. -/
theorem corresponds_same_fail (failure : Failure) :
    Corresponds related (Traced.fail failure) (Traced.fail failure) :=
  corresponds_fail (.refl failure)

/-- Computations correspond when their steps do. -/
theorem corresponds_bind {a : Compilation α} {b : Compilation β}
    {next : α → Compilation γ} {otherNext : β → Compilation δ}
    (ha : Corresponds related a b)
    (hnext : ∀ v other, a.result = .ok v → b.result = .ok other →
      related v other → Corresponds result (next v) (otherNext other)) :
    Corresponds result (a >>= next) (b >>= otherNext) := by
  obtain ⟨trace, found⟩ := a
  obtain ⟨otherTrace, otherFound⟩ := b
  obtain ⟨hresults, hmarks⟩ := ha
  dsimp only at hresults hmarks hnext
  cases hresults with
  | ok hrel =>
    have hlast := hnext _ _ rfl rfl hrel
    refine ⟨hlast.results, ?_⟩
    rw [Traced.bind_ok, Traced.bind_ok, marks_append, marks_append, hmarks, hlast.marks]
  | error hfailures => exact ⟨.error hfailures, hmarks⟩

theorem corresponds_lift {a : Except Fault α} {b : Except Fault β}
    (h : Concurs Eq related a b) : Corresponds related (liftM a) (liftM b) := by
  cases h with
  | ok hvalues => exact corresponds_pure hvalues
  | error herrors =>
    cases herrors
    exact corresponds_same_fail _

theorem corresponds_warn (warning other : Warning) :
    Corresponds Eq (Compilation.warn warning) (Compilation.warn other) := ⟨.ok rfl, rfl⟩

theorem corresponds_note (notice other : Notice) :
    Corresponds Eq (Compilation.note notice) (Compilation.note other) := ⟨.ok rfl, rfl⟩

end Corresponds

end Schemata
