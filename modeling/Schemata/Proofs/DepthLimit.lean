import Schemata.Proofs.Recasting

/-!
# The limit on the depth of instantiations

A compilation reads the limit only to stop an instantiation that is nested too deep. A computation
is `Unstopped` when it does not end that way. Under a lower limit nothing changes, unless it stops
the compilation: this is a recasting that leaves types as they are, `lowering`. So under a higher
limit every outcome that is not due to the limit stays as it is, `raised_limit_keeps_outcomes`.
-/

namespace Schemata

namespace Program

/-- The program with another limit on the depth of instantiations. -/
def withLimit (program : Program) (limit : Json) : Program :=
  { program with settings := { program.settings with depthLimit := limit } }

section Lowering

variable {p program : Program} {limit : Json} {low high : Int}

/-- Where one more body may be inside of an environment, it may be so under a higher limit. -/
theorem check_depth_kept {told : Event → Bool} (hlow : p.settings.limit = .atMost low)
    (hhigh : (p.withLimit limit).settings.limit = .atMost high) (hle : low ≤ high)
    (name : Name) (env : Environment) :
    Schemata.Keeps True told Eq ((p.withLimit limit).checkDepth name env)
      (p.checkDepth name env) := by
  intro h
  have hleft : p.nestingsLeft env.depth ≠ 0 := by
    intro hnone
    have hstopped : p.checkDepth name env =
        Traced.fail (.compile (.genericDepth name p.settings.depthLimit)) := by
      rw [checkDepth, if_pos hnone, tooDeep, hlow]
    rw [hstopped] at h
    exact h trivial _ rfl ⟨_, _, rfl⟩
  have hraised : (p.withLimit limit).nestingsLeft env.depth ≠ 0 := by
    simp only [nestingsLeft, hlow] at hleft
    simp only [nestingsLeft, hhigh]
    omega
  rw [checkDepth, checkDepth, if_neg hleft, if_neg hraised]
  exact ⟨.ok rfl, rfl⟩

/-- The program under a lower limit. -/
def lowering (hlow : program.settings.limit = .atMost low)
    (hhigh : (program.withLimit limit).settings.limit = .atMost high) (hle : low ≤ high) :
    Recasting (program.withLimit limit) (program.version program.unit) :=
  .same (fun _ => True) True (fun h => h ▸ rfl) (check_depth_kept hlow hhigh hle)
    (fun _ _ declaration _ => declaration.stays_in_all)
    fun name _ => found_refl ((program.withLimit limit).find name)

end Lowering

/-- Raising the limit on the depth of instantiations changes no outcome that is not due to the
limit. A type in an environment and a declaration are compiled with the same result, which is a
schema or a failure with all its data, and with the same events on the way. -/
theorem raised_limit_keeps_outcomes (program : Program) {limit : Json} {low high : Int}
    (hlow : program.settings.limit = .atMost low)
    (hhigh : (program.withLimit limit).settings.limit = .atMost high) (hle : low ≤ high) :
    (∀ type environment tags, (program.schemaOf type environment tags).Unstopped →
      (program.withLimit limit).schemaOf type environment tags =
        program.schemaOf type environment tags) ∧
    ∀ declaration, (program.compileDeclaration declaration).Unstopped →
      (program.withLimit limit).compileDeclaration declaration =
        program.compileDeclaration declaration := by
  refine ⟨fun type environment tags h => ?_, fun declaration h => ?_⟩
  · cases type with
    | none => rfl
    | some type =>
      rw [schema_of_some] at h ⊢
      have hjobs : (lowering hlow hhigh hle).likeness.Jobs
          ⟨type, environment, { tags := program.tags tags }⟩ _ :=
        ⟨⟨rfl, rfl, type.stays_in_all, environment.stays_in_all⟩, rfl⟩
      exact (((lowering hlow hhigh hle).compile hjobs).eq fun _ => h).symm
  · have hschema : (program.declarationSchema declaration).Unstopped := by
      intro failure hfailure
      refine h failure ?_
      simp only [compileDeclaration, hfailure]
      rfl
    have hkept : program.declarationSchema declaration =
        (program.withLimit limit).declarationSchema declaration :=
      ((lowering hlow hhigh hle).declaration_schema rfl (.refl declaration)
        declaration.stays_in_all).eq fun _ => hschema
    unfold compileDeclaration
    rw [hkept]
    rfl

/-- The type `Outer<string>` is stopped at a depth of one, and compiled alike at depths of two and
of seven. -/
theorem outer_box_kept_at_depth_seven :
    let outer : TypeExpr := .reference (.str "Outer") [.keyword .string]
    ¬((boxes 1).schemaOf (some outer) .empty []).Unstopped ∧
      ((boxes 2).schemaOf (some outer) .empty []).Unstopped ∧
      (boxes 7).schemaOf (some outer) .empty [] = (boxes 2).schemaOf (some outer) .empty [] := by
  intro outer
  have hunstopped : ((boxes 2).schemaOf (some outer) .empty []).Unstopped := by
    intro failure hfailure
    cases hfailure
  refine ⟨fun h => h _ rfl ⟨.str "Plain", .int 1, rfl⟩, hunstopped, ?_⟩
  have hkept := (@raised_limit_keeps_outcomes (boxes 2) (.int 7) 2 7 rfl rfl (by decide)).1
  exact hkept (some outer) .empty [] hunstopped

end Program

end Schemata
