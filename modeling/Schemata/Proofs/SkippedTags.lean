import Schemata.Proofs.Untagged

/-!
# Skipping tags

A program that skips tags compiles everything as if there were none: for such a program, taking all
tags off is a recasting, `untagging`. `skipped_tags_are_absent` says so of all types and
declarations.
-/

namespace Schemata

namespace Program

section Untagging

variable {program : Program} (flag : Json)

theorem find_untagged (name : Name) :
    Concurs Eq (Option.Rel (Declaration.Recast TypeExpr.untagged fun _ after => after = []))
      (program.find name) ((program.untagged flag).find name) := by
  unfold find
  cases name.key with
  | error => exact .error rfl
  | ok key =>
    have hf : (program.untagged flag).declaration? key =
        (program.declaration? key).map Declaration.untagged := by
      unfold declaration?
      refine (List.find?_map ..).trans ?_
      simp only [Function.comp_def, Declaration.name_untagged]
    refine .ok ?_
    rw [hf]
    exact rel_map fun decl _ => decl.recast_untagged

variable (hskip : program.settings.skipAnnotations.truthy = true)

include hskip

/-- A program that skips tags sees none, as one without tags does. -/
theorem tags_untagged (tags : Tags) : (program.untagged flag).tags [] = program.tags tags := by
  rw [Program.tags, Program.tags, if_pos hskip]
  split <;> rfl

/-- Where tags are skipped, all tags may be taken off. -/
def untagging :
    Recasting program ⟨program.unit.untagged, flag, program.settings.depthLimit⟩ where
  toMapping := Environment.untaggedMapping
  names _ := True
  tags _ after := after = []
  limited := False
  told _ := true
  kind := TypeExpr.same_kind_untagged
  reference := TypeExpr.untagged_reference
  text := TypeExpr.text_untagged
  tags_eq h := h ▸ tags_untagged flag hskip _
  shown := .inl rfl
  checked name outer := by
    obtain ⟨depth, bindings⟩ := outer
    exact keeps_refl _
  closed _ _ declaration _ := declaration.stays_in_all
  found name _ := find_untagged flag name

end Untagging

/-- Skipping tags is like having none. A program that skips tags compiles each type, with any tags
and in any environment, and each declaration to the same outcome as the program from which all tags
are erased: the same schema or the same error, with the same dependencies, warnings and uses of the
helper on the way. This is so whatever the other program does with tags, so also if it follows
them. -/
theorem skipped_tags_are_absent (program : Program) (flag : Json)
    (hskip : program.settings.skipAnnotations.truthy = true) :
    (∀ type environment tags,
      (program.untagged flag).schemaOf (type.map TypeExpr.untagged) environment.untagged [] =
        program.schemaOf type environment tags) ∧
    ∀ declaration, (program.untagged flag).compileDeclaration declaration.untagged =
      program.compileDeclaration declaration := by
  refine ⟨fun type environment tags => ?_, fun declaration => ?_⟩
  · have htags := tags_untagged flag hskip tags
    cases type with
    | none =>
      rw [Option.map_none, schemaOf, schemaOf, htags]
      rfl
    | some type =>
      rw [Option.map_some, schema_of_some, schema_of_some, htags]
      have hjobs : (untagging flag hskip).likeness.Jobs
          ⟨type, environment, { tags := program.tags tags }⟩
          ⟨type.untagged, environment.untagged, { tags := program.tags tags }⟩ :=
        ⟨⟨rfl, rfl, type.stays_in_all, environment.stays_in_all⟩, rfl⟩
      exact ((untagging flag hskip).compile hjobs).eq False.elim
  · have hschema : (program.untagged flag).declarationSchema declaration.untagged =
        program.declarationSchema declaration :=
      ((untagging flag hskip).declaration_schema rfl declaration.recast_untagged
        declaration.stays_in_all).eq False.elim
    unfold compileDeclaration
    rw [hschema, declaration.name_untagged]
    cases declaration <;> rfl

/-- The interface `interface Chip { code: string }` with the tag `strict`. -/
def strictChip : Declaration :=
  .interface {
    name := .str "Chip", tags := [("strict", "")], exported := true, parameters := []
    heritage := []
    members := [{ name := "code", type := some (.keyword .string), optional := false,
                  readonly := false, tags := [("minLength", "15")] }]
    index := none }

/-- The program of the interface, with tags that are skipped or followed. -/
def strictChips (skip : Bool) : Program where
  unit := ⟨.null, [strictChip], []⟩
  settings := { Settings.default with skipAnnotations := .bool skip }

/-- The chip compiles to a strict object when tags are followed, and not so when they are skipped.
It then compiles as it does without tags in a program that follows them. -/
theorem strict_chip_skipped :
    (∃ schema, ((strictChips false).declarationSchema strictChip).result =
      .ok (.modified schema "strict" [] false)) ∧
    ((strictChips true).declarationSchema strictChip).result =
      .ok (.call "object" [.object [("code", .call "string" [])]]) ∧
    ((strictChips true).untagged (.bool false)).compileDeclaration strictChip.untagged =
      (strictChips true).compileDeclaration strictChip :=
  ⟨⟨_, rfl⟩, rfl, (skipped_tags_are_absent (strictChips true) (.bool false) rfl).2 strictChip⟩

end Program

end Schemata
