import Schemata.Failure

/-!
# Traced results

A `Traced` computation gives a result or a failure, and beside it the trace of what happened on the
way. The trace is kept when the computation fails. Computations are values, so that what a piece of
work does can be stated without the state it starts in.
-/

namespace Schemata

/-- A result or a failure, with a trace of entries of type `ω`. -/
structure Traced (ω α : Type) where
  trace : List ω
  result : Except Failure α

namespace Traced

variable {ω α β : Type}

/-- A result with an empty trace. -/
def pure (value : α) : Traced ω α := ⟨[], .ok value⟩

/-- One computation after another; after a failure there is no other. -/
def bind (first : Traced ω α) (next : α → Traced ω β) : Traced ω β :=
  match first.result with
  | .ok value =>
    let second := next value
    ⟨first.trace ++ second.trace, second.result⟩
  | .error failure => ⟨first.trace, .error failure⟩

instance : Monad (Traced ω) where
  pure := Traced.pure
  bind := Traced.bind

/-- A failure with an empty trace. -/
def fail (failure : Failure) : Traced ω α := ⟨[], .error failure⟩

/-- One entry in the trace. -/
def emit (entry : ω) : Traced ω Unit := ⟨[entry], .ok ()⟩

/-- A result that leaves no trace. -/
def ofExcept (result : Except Failure α) : Traced ω α := ⟨[], result⟩

instance : MonadLift (Except Failure) (Traced ω) := ⟨ofExcept⟩

instance : MonadLift (Except Fault) (Traced ω) := ⟨fun result => ofExcept (Failure.lift result)⟩

/-- The computation with the entries of its trace changed, some of them into nothing. -/
def mapTrace {ω' : Type} (change : ω → Option ω') (computation : Traced ω α) : Traced ω' α :=
  ⟨computation.trace.filterMap change, computation.result⟩

@[simp]
theorem pure_eq (value : α) : (Pure.pure value : Traced ω α) = ⟨[], .ok value⟩ := rfl

@[simp]
theorem bind_ok (trace : List ω) (value : α) (next : α → Traced ω β) :
    ((⟨trace, .ok value⟩ : Traced ω α) >>= next) =
      ⟨trace ++ (next value).trace, (next value).result⟩ := rfl

@[simp]
theorem bind_error (trace : List ω) (failure : Failure) (next : α → Traced ω β) :
    ((⟨trace, .error failure⟩ : Traced ω α) >>= next) = ⟨trace, .error failure⟩ := rfl

/-- A computation succeeds with a value exactly when its parts do, one after the other. -/
theorem bind_ok_iff {first : Traced ω α} {next : α → Traced ω β} {value : β} :
    (first >>= next).result = .ok value ↔
      ∃ middle, first.result = .ok middle ∧ (next middle).result = .ok value := by
  obtain ⟨trace, result⟩ := first
  cases result <;> simp

/-- The trace of two computations that both take place is one trace after the other. -/
theorem bind_trace_of_ok {first : Traced ω α} {next : α → Traced ω β} {middle : α}
    (h : first.result = .ok middle) :
    (first >>= next).trace = first.trace ++ (next middle).trace := by
  obtain ⟨trace, result⟩ := first
  cases h
  simp

instance : LawfulMonad (Traced ω) :=
  LawfulMonad.mk' _
    (by
      intro α x
      obtain ⟨trace, result⟩ := x
      cases result <;> simp [Functor.map, Traced.bind, Function.comp, Traced.pure])
    (by intro α β value next; simp)
    (by
      intro α β γ x f g
      obtain ⟨trace, result⟩ := x
      cases result with
      | error failure => rfl
      | ok value =>
        generalize h : f value = y
        obtain ⟨trace', result'⟩ := y
        cases result' <;> simp [h])

end Traced

end Schemata
