import Schemata.Proofs.Correspondence

/-!
# Computations that correspond but for faults

The text of a type joins the texts of its parts, which comes to a fault where a name is no text; a
part in parentheses is always shown as a text. So types that are written differently may differ in
whether they can be shown, unless they are well-typed. `Accords` compares two computations as
`Corresponds` does, but where it is excused one of them may end on such a fault; `Conforms` says the
same of plain results.
-/

namespace Schemata

/-- Results that agree; where it is excused, one of them may be a value of the wrong kind. -/
def Conforms {α β : Type} (excused : Prop) (related : α → β → Prop) (first : Except Fault α)
    (second : Except Fault β) : Prop :=
  Concurs Eq related first second ∨
    excused ∧ (first = .error .wrongKind ∨ second = .error .wrongKind)

/-- A computation that ends on a value of the wrong kind. -/
def Faulty {α : Type} (computation : Compilation α) : Prop :=
  computation.result = .error (.fault .wrongKind)

/-- Computations that correspond; where it is excused, one of them may end on a value of the wrong
kind. -/
def Accords {α β : Type} (excused : Prop) (related : α → β → Prop) (first : Compilation α)
    (second : Compilation β) : Prop :=
  Corresponds related first second ∨ excused ∧ (Faulty first ∨ Faulty second)

section Conforms

variable {excused : Prop} {α β γ δ : Type} {related : α → β → Prop} {result : γ → δ → Prop}

theorem conforms_ok {v : α} {other : β} (h : related v other) :
    Conforms excused related (.ok v) (.ok other) := .inl (.ok h)

theorem conforms_refl (v : Except Fault α) : Conforms excused Eq v v := .inl (concurs_refl v)

/-- Results that agree but for faults are continued by results that do so. -/
theorem conforms_bind {a : Except Fault α} {b : Except Fault β}
    {next : α → Except Fault γ} {otherNext : β → Except Fault δ}
    (ha : Conforms excused related a b)
    (hnext : ∀ v other, a = .ok v → b = .ok other → related v other →
      Conforms excused result (next v) (otherNext other)) :
    Conforms excused result (a >>= next) (b >>= otherNext) := by
  rcases ha with ha | ⟨hexc, rfl | rfl⟩
  · cases ha with
    | ok hrel => exact hnext _ _ rfl rfl hrel
    | error heq => exact .inl (.error heq)
  · exact .inr ⟨hexc, .inl rfl⟩
  · exact .inr ⟨hexc, .inr rfl⟩

theorem Conforms.imp {stronger : α → β → Prop} {a : Except Fault α} {b : Except Fault β}
    (h : Conforms excused related a b)
    (himp : ∀ v other, a = .ok v → b = .ok other → related v other →
      stronger v other) : Conforms excused stronger a b := by
  rcases h with hconcurs | hfault
  · exact .inl (hconcurs.imp himp)
  · exact .inr hfault

theorem conforms_symm {α : Type} {related : α → α → Prop} {a b : Except Fault α}
    (hrel : ∀ v other, related v other → related other v)
    (h : Conforms excused related a b) : Conforms excused related b a := by
  rcases h with hconcurs | ⟨hexc, ha | hsecond⟩
  · cases hconcurs with
    | ok h => exact conforms_ok (hrel _ _ h)
    | error heq => exact .inl (.error heq.symm)
  · exact .inr ⟨hexc, .inr ha⟩
  · exact .inr ⟨hexc, .inl hsecond⟩

theorem Conforms.concurs {a : Except Fault α} {b : Except Fault β}
    (h : Conforms False related a b) : Concurs Eq related a b := h.resolve_right fun hexc => hexc.1

end Conforms

section Accords

variable {excused : Prop} {α β γ δ : Type} {related : α → β → Prop} {result : γ → δ → Prop}
  {a : Compilation α}

theorem Faulty.bind (h : Faulty a) (next : α → Compilation γ) : Faulty (a >>= next) := by
  obtain ⟨trace, found⟩ := a
  cases h
  rfl

theorem accords_pure {v : α} {other : β} (h : related v other) :
    Accords excused related (pure v) (pure other) := .inl (corresponds_pure h)

theorem accords_refl (comp : Compilation α) : Accords excused Eq comp comp :=
  .inl (corresponds_refl comp)

theorem accords_same_fail (failure : Failure) :
    Accords excused related (Traced.fail failure) (Traced.fail failure) :=
  .inl (corresponds_same_fail failure)

/-- Computations accord when their steps do. -/
theorem accords_bind {b : Compilation β} {next : α → Compilation γ} {otherNext : β → Compilation δ}
    (ha : Accords excused related a b)
    (hnext : ∀ v other, a.result = .ok v → b.result = .ok other →
      related v other → Accords excused result (next v) (otherNext other)) :
    Accords excused result (a >>= next) (b >>= otherNext) := by
  obtain ⟨trace, found⟩ := a
  obtain ⟨otherTrace, otherFound⟩ := b
  rcases ha with ⟨hresults, hmarks⟩ | ⟨hexc, hfaulty | hfaulty⟩
  · dsimp only at hresults hmarks hnext
    cases hresults with
    | ok hrel =>
      rcases hnext _ _ rfl rfl hrel with hlast | ⟨hexc, hfaulty⟩
      · refine .inl ⟨hlast.results, ?_⟩
        rw [Traced.bind_ok, Traced.bind_ok, marks_append, marks_append, hmarks, hlast.marks]
      · exact .inr ⟨hexc, hfaulty⟩
    | error hfailures => exact .inl ⟨.error hfailures, hmarks⟩
  · exact .inr ⟨hexc, .inl (hfaulty.bind next)⟩
  · exact .inr ⟨hexc, .inr (hfaulty.bind otherNext)⟩

theorem accords_lift {a : Except Fault α} {b : Except Fault β} (h : Conforms excused related a b) :
    Accords excused related (liftM a) (liftM b) := by
  rcases h with hconcurs | ⟨hexc, rfl | rfl⟩
  · exact .inl (corresponds_lift hconcurs)
  · exact .inr ⟨hexc, .inl rfl⟩
  · exact .inr ⟨hexc, .inr rfl⟩

/-- The values of computations that accord without excuse are related. -/
theorem Accords.values_related {b : Compilation β} {v : α} {other : β}
    (h : Accords False related a b) (hv : a.result = .ok v)
    (hother : b.result = .ok other) : related v other := by
  have hresults := (h.resolve_right fun hexc => hexc.1).results
  rw [hv, hother] at hresults
  cases hresults with
  | ok hrel => exact hrel

end Accords

section Text

namespace TypeExpr

/-- Types that are well-typed unless it is excused. -/
def Shown (excused : Prop) (type other : TypeExpr) : Prop :=
  ¬excused → type.WellTyped ∧ other.WellTyped

variable {excused : Prop} {t other : TypeExpr}

/-- Well-typed types can be shown, and others too but for values that are no texts. -/
theorem Shown.text_conforms (h : Shown excused t other) :
    Conforms excused (fun _ _ => True) t.text other.text := by
  by_cases hexc : excused
  · have ht := t.text_shown
    have hother := other.text_shown
    generalize t.text = a at ht ⊢
    generalize other.text = b at hother ⊢
    cases ht with
    | fault => exact .inr ⟨hexc, .inl rfl⟩
    | ok _ =>
      cases hother with
      | fault => exact .inr ⟨hexc, .inr rfl⟩
      | ok => exact conforms_ok trivial
  · obtain ⟨ht, hother⟩ := h hexc
    obtain ⟨text, htext⟩ := ht.text_ok
    obtain ⟨otherText, hotherText⟩ := hother.text_ok
    rw [htext, hotherText]
    exact conforms_ok trivial

end TypeExpr

end Text

end Schemata
