import Schemata.Proofs.Recasting

/-!
# Compilation at another depth

`Environment.raised` puts an environment, with all that is bound in it, inside of some more
instantiations. No lookup reads the depth, which counts against the limit only and is shown in the
log: raising is a recasting that leaves types as they are. `interface_kept_above` says that an
interface that is not stopped at some depth is compiled alike at the top: to the same schema or
failure, with the same events but for what is logged.
-/

namespace Schemata

namespace Environment

mutual

/-- The environment inside of some more instantiations. -/
def raised (levels : Nat) : Environment → Environment
  | .mk depth bindings => .mk (depth + levels) (raisedBindings levels bindings)

/-- The bindings inside of some more instantiations. -/
def raisedBindings (levels : Nat) : List (Binding Environment) → List (Binding Environment)
  | [] => []
  | ⟨name, type, environment⟩ :: rest =>
    ⟨name, type, environment.raised levels⟩ :: raisedBindings levels rest

end

theorem depth_raised (levels : Nat) (env : Environment) :
    (env.raised levels).depth = env.depth + levels := by
  obtain ⟨depth, bindings⟩ := env
  rfl

/-- Environments inside of some more instantiations. -/
def raisedMapping (levels : Nat) : Mapping where
  type := id
  environment := raised levels
  levels := levels
  bindings := by
    rintro ⟨depth, bindings⟩
    change raisedBindings levels bindings = _
    induction bindings with
    | nil => rfl
    | cons binding rest ih =>
      rw [raisedBindings, ih]
      rfl
  depth := depth_raised levels

end Environment

/-- The events that are not only logged. -/
def heard (events : List Event) : List Event :=
  events.filter fun event => !event matches .notice _

theorem heard_append (a b : List Event) :
    heard (a ++ b) = heard a ++ heard b := List.filter_append ..

/-- The second computation does what the first one does, with values that are put in place, unless
the limit stops the first one. What is only logged may differ. -/
def KeptAbove {α β : Type} (place : α → β) (first : Compilation β) (second : Compilation α) :
    Prop :=
  first.Unstopped →
    first.result = second.result.map place ∧ heard first.trace = heard second.trace

section KeptAbove

variable {α β γ δ : Type} {place : α → β} {result : γ → δ}

theorem kept_above_of_eq {a : Compilation β} {b : Compilation α}
    (h : a = place <$> b) : KeptAbove place a b := by
  intro _
  rw [h, map_eq_pure_bind]
  obtain ⟨trace, v⟩ := b
  cases v with
  | error => exact ⟨rfl, rfl⟩
  | ok =>
    rw [Traced.bind_ok, Traced.pure_eq, List.append_nil]
    exact ⟨rfl, rfl⟩

theorem kept_above_refl (comp : Compilation α) : KeptAbove id comp comp :=
  kept_above_of_eq (id_map comp).symm

/-- One computation after another is kept if both are. -/
theorem kept_above_bind {a : Compilation β} {b : Compilation α}
    {next : β → Compilation δ} {other : α → Compilation γ} (ha : KeptAbove place a b)
    (hnext : ∀ v, b.result = .ok v → KeptAbove result (next (place v)) (other v)) :
    KeptAbove result (a >>= next) (b >>= other) := by
  intro h
  obtain ⟨hres, hheard⟩ := ha h.of_bind
  obtain ⟨firstTrace, firstResult⟩ := a
  obtain ⟨secondTrace, secondResult⟩ := b
  cases secondResult with
  | error =>
    cases hres
    exact ⟨rfl, hheard⟩
  | ok v =>
    cases hres
    obtain ⟨hlast, hr⟩ := hnext v rfl (h.after rfl)
    refine ⟨hlast, ?_⟩
    rw [Traced.bind_ok, Traced.bind_ok, heard_append, heard_append, hr]
    exact congrArg (· ++ _) hheard

theorem kept_above_of_keeps {a b : Compilation α}
    (h : Keeps True (fun event => !event matches .notice _) Eq b a) : KeptAbove id a b := by
  intro hunstopped
  obtain ⟨hresults, htold⟩ := h fun _ => hunstopped
  refine ⟨?_, htold⟩
  generalize a.result = result at hresults
  generalize b.result = other at hresults
  cases hresults with
  | ok heq => exact congrArg Except.ok heq.symm
  | error heq => exact congrArg Except.error heq.symm

end KeptAbove

namespace Program

variable {p : Program}

/-- A computation that is not stopped has a nesting left, unless no depth can be compared with the
limit. -/
theorem left_of_unstopped {name : Name} {env : Environment}
    (h : (p.checkDepth name env).Unstopped) :
    p.settings.limit = .incomparable ∨ p.nestingsLeft env.depth ≠ 0 := by
  by_cases hleft : p.nestingsLeft env.depth = 0
  · rw [checkDepth, if_pos hleft, tooDeep] at h
    cases hlimit : p.settings.limit with
    | incomparable => exact .inl rfl
    | _ =>
      rw [hlimit] at h
      exact (h _ rfl ⟨_, _, rfl⟩).elim
  · exact .inr hleft

/-- Where one more body may be inside of an environment, it may be so nearer to the top. -/
theorem check_depth_above {told : Event → Bool} (levels : Nat) (name : Name) (env : Environment) :
    Schemata.Keeps True told Eq (p.checkDepth name env)
      (p.checkDepth name (env.raised levels)) := by
  intro h
  rcases left_of_unstopped (h trivial) with hlimit | hleft
  · -- A limit that no depth can be compared with is the same at all depths.
    have hnone (depth : Nat) : p.nestingsLeft depth = 0 := by
      rw [nestingsLeft, hlimit]
    rw [checkDepth, checkDepth, if_pos (hnone _), if_pos (hnone _)]
    exact ⟨concurs_refl _, rfl⟩
  · have habove : p.nestingsLeft env.depth ≠ 0 := by
      rw [Environment.depth_raised] at hleft
      unfold nestingsLeft at hleft ⊢
      split <;> simp_all <;> omega
    rw [checkDepth, checkDepth, if_neg hleft, if_neg habove]
    exact ⟨.ok rfl, rfl⟩

variable (program) in
/-- The program inside of some more instantiations. What is only logged may differ. -/
def raising (levels : Nat) : Recasting program (program.version program.unit) where
  toMapping := Environment.raisedMapping levels
  names _ := True
  tags := Eq
  limited := True
  told event := !event matches .notice _
  kind := TypeExpr.same_kind_refl
  reference name arguments := congrArg (TypeExpr.reference name) arguments.map_id.symm
  text _ := rfl
  tags_eq := @version_unit_tags program
  shown := .inr fun _ => rfl
  checked := check_depth_above levels
  closed _ _ declaration _ := declaration.stays_in_all
  found name _ := found_refl (program.find name)

/-- An interface without bound parameters that is not stopped at some depth is compiled alike at the
top. -/
theorem interface_kept_above (off : Option Context) (depth : Nat) (d : Interface) (ctx : Context) :
    KeptAbove id
      (p.interfacePlan off (.mk depth []) d ctx >>= fun plan =>
        plan.run p.compile)
      (p.interfacePlan off .empty d ctx >>= fun plan =>
        plan.run p.compile) := by
  have hempty : Environment.empty.raised depth = .mk depth [] :=
    (Environment.raisedMapping depth).empty_eq
  have hplans : (p.raising depth).likeness.compares (p.raising depth).likeness.Plans
      (p.interfacePlan off .empty d ctx)
      (p.interfacePlan off (Environment.empty.raised depth) d ctx) :=
    (p.raising depth).likeness.interface_plan
      (Recasting.interfaces_of_recast (.refl (.interface d))
        (Declaration.interface d).stays_in_all Environment.empty.stays_in_all) ctx
  rw [hempty] at hplans
  refine kept_above_of_keeps (keeps_bind hplans fun plan other _ _ hplan => ?_)
  exact (p.raising depth).likeness.run_of_plans
    (hplan.jobs.imp fun _ _ => (p.raising depth).compile) hplan.assemble

end Program

end Schemata
