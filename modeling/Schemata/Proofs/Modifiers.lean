import Schemata.Compiler

/-!
# The modifiers of a context

`Context.modifiers` is walked through once for what it computes and once for how. What it computes
are constraints, then flags with a description between them, and a default, `modifiers_inversion`;
so all modifiers are calls with plain data, `modifiers_plain`. How it computes is by reading tags
and the formats of the settings, so that whatever is kept by these steps holds of it,
`modifiers_keep`.
-/

namespace Schemata

open List
open Traced (bind_ok_iff)

variable {name : String} {found : List Modifier} {formats : Json} {mod : Modifier}

namespace Refinement

variable {text : String} {ctx : Context}

/-- The modifiers of bounds, formats and patterns. -/
inductive IsConstraint : Modifier → Prop where
  | bound {name number message} (h : name ∈ ["min", "max"]) :
      IsConstraint ⟨name, .value number :: messageArgument message, false⟩
  | regex {pattern} {messages : List Json} :
      IsConstraint ⟨"regex", .regex pattern :: messages.map .value, false⟩
  | format {name known message} (h : (name, known) ∈ builtinFormats) :
      IsConstraint (builtinFormat known message)

/-- An argument that is a value, a pattern or an object of values. -/
inductive IsDatum : Schema → Prop where
  | value (value : Json) : IsDatum (.value value)
  | regex (pattern : Json) : IsDatum (.regex pattern)
  | options {entries} (h : ∀ entry ∈ entries, ∃ value, entry.2 = .value value) :
      IsDatum (.object entries)

theorem constraint_of_tagged {tags : Tags} {name : String}
    {mods : String → Compilation (List Modifier)} {found : List Modifier}
    (hmods : ∀ text found, (mods text).result = .ok found → ∀ mod ∈ found, IsConstraint mod)
    (h : (tagged tags name mods).result = .ok found) :
    ∀ mod ∈ found, IsConstraint mod := by
  unfold tagged at h
  split at h
  · exact hmods _ found h
  · cases h
    exact fun _ h => by cases h

theorem constraint_of_bound {tag : String} (hn : name ∈ ["min", "max"])
    (h : (bound name tag text).result = .ok found) : ∀ mod ∈ found, IsConstraint mod := by
  unfold bound at h
  dsimp only at h
  split at h
  · cases h
    exact forall_mem_singleton.2 (.bound hn)
  · obtain ⟨done, -, h⟩ := bind_ok_iff.1 h
    cases h
    exact fun _ h => by cases h

theorem constraint_of_format (h : (format formats text).result = .ok found) :
    ∀ mod ∈ found, IsConstraint mod := by
  unfold format at h
  generalize Text.firstWord text = word at h
  obtain ⟨name, message⟩ := word
  obtain ⟨custom, -, h⟩ := bind_ok_iff.1 h
  cases custom with
  | some =>
    cases h
    refine forall_mem_singleton.2 ?_
    split
    · exact @IsConstraint.regex _ [_]
    · exact @IsConstraint.regex _ []
  | none =>
    dsimp only at h
    split at h
    · rename_i known hknown
      cases h
      exact forall_mem_singleton.2 (.format (mem_of_find?_eq_some hknown))
    · obtain ⟨done, -, h⟩ := bind_ok_iff.1 h
      cases h
      exact fun _ h => by cases h

/-- The modifiers that a context calls for: constraints first, then the flags and the description,
and the default last. -/
theorem modifiers_inversion (h : (ctx.modifiers formats).result = .ok found) :
    ∃ constraints, (∀ mod ∈ constraints, IsConstraint mod) ∧
      found = constraints ++ (flagged ctx.allOptional "partial" ++
        flagged ctx.allRequired "required") ++
        (flagged ctx.optional "optional" ++
          valued ctx.tags "description" "describe" (fun text => .value (.str text)) ++
          flagged ctx.nullable "nullable" ++
          valued ctx.tags "default" "default" (fun text => .value (defaultValue text))) := by
  unfold Context.modifiers at h
  obtain ⟨minimum, hminimum, h⟩ := bind_ok_iff.1 h
  obtain ⟨maximum, hmaximum, h⟩ := bind_ok_iff.1 h
  obtain ⟨minLength, hminLength, h⟩ := bind_ok_iff.1 h
  obtain ⟨maxLength, hmaxLength, h⟩ := bind_ok_iff.1 h
  obtain ⟨formatted, hformatted, h⟩ := bind_ok_iff.1 h
  cases h
  refine ⟨minimum ++ maximum ++ minLength ++ maxLength ++ formatted ++
    valued ctx.tags "pattern" "regex" (fun text => .regex (.str text)), ?_, ?_⟩
  · have hbound {name tag : String} {found : List Modifier} (hn : name ∈ ["min", "max"])
        (h : (tagged ctx.tags tag (bound name tag)).result = .ok found) :=
      constraint_of_tagged (fun _ _ => constraint_of_bound hn) h
    simp only [forall_mem_append]
    refine ⟨⟨⟨⟨⟨?_, ?_⟩, ?_⟩, ?_⟩, ?_⟩, ?_⟩
    · exact hbound (by decide) hminimum
    · exact hbound (by decide) hmaximum
    · exact hbound (by decide) hminLength
    · exact hbound (by decide) hmaxLength
    · exact constraint_of_tagged (fun _ _ => constraint_of_format) hformatted
    · refine forall_mem_map.2 fun text _ => ?_
      exact @IsConstraint.regex _ []
  · simp only [append_assoc]

theorem mem_flagged {flag : Bool} :
    mod ∈ flagged flag name ↔ flag = true ∧ mod = ⟨name, [], false⟩ := by
  cases flag <;> simp [flagged]

theorem mem_valued {tags : Tags} {called : String} {arg : String → Schema} :
    mod ∈ valued tags name called arg ↔
      ∃ text, tags.get? name = some text ∧ mod = ⟨called, [arg (Text.trim text)], false⟩ := by
  simp only [valued, mem_map, Option.mem_toList, eq_comm]

/-- A call with plain data, which is not the call for the rest of a tuple. -/
structure IsPlain (modifier : Modifier) : Prop where
  raw : modifier.raw = false
  name : modifier.name ≠ "rest"
  arguments : ∀ argument ∈ modifier.arguments, IsDatum argument

theorem plain_flag (h : name ≠ "rest") : IsPlain ⟨name, [], false⟩ := ⟨rfl, h, forall_mem_nil _⟩

theorem IsConstraint.is_plain (h : IsConstraint mod) : IsPlain mod := by
  have hmessage (message : Option String) : ∀ arg ∈ messageArgument message, IsDatum arg :=
    forall_mem_map.2 fun _ _ => .value _
  cases h with
  | bound hn =>
    refine ⟨rfl, ?_, forall_mem_cons.2 ⟨.value _, hmessage _⟩⟩
    rintro rfl
    simp at hn
  | regex =>
    exact ⟨rfl, by simp, forall_mem_cons.2 ⟨.regex _, forall_mem_map.2 fun _ _ => .value _⟩⟩
  | @format name known message hknown =>
    have hnames : ∀ known ∈ builtinFormats, known.2.modifier ≠ "rest" := by decide
    unfold builtinFormat
    split
    · exact ⟨rfl, hnames _ hknown, hmessage message⟩
    · refine ⟨rfl, hnames _ hknown, forall_mem_singleton.2 (.options ?_)⟩
      exact forall_mem_append.2 ⟨forall_mem_map.2 fun _ _ => ⟨_, rfl⟩,
        forall_mem_map.2 fun _ _ => ⟨_, rfl⟩⟩

/-- The modifiers that a context calls for are calls with plain data. -/
theorem modifiers_plain (h : (ctx.modifiers formats).result = .ok found) :
    ∀ mod ∈ found, IsPlain mod := by
  obtain ⟨constraints, hconstraints, rfl⟩ := modifiers_inversion h
  simp only [mem_append, mem_flagged, mem_valued]
  rintro mod
    ((hmem | ⟨-, rfl⟩ | ⟨-, rfl⟩) | (((⟨-, rfl⟩ | ⟨text, -, rfl⟩) | ⟨-, rfl⟩) | ⟨text, -, rfl⟩))
  · exact (hconstraints mod hmem).is_plain
  all_goals first
    | exact plain_flag (by decide)
    | exact ⟨rfl, by simp, forall_mem_singleton.2 (.value _)⟩

/-- What is kept by steps that read tags and formats holds of the modifiers of a context. -/
theorem modifiers_keep (holds : {α : Type} → Compilation α → Prop)
    (hpure : ∀ {α : Type} (v : α), holds (pure v))
    (hnote : ∀ notice, holds (Compilation.note notice))
    (hbind : ∀ {α β : Type} {a : Compilation α} {next : α → Compilation β}, holds a →
      (∀ v, a.result = .ok v → holds (next v)) → holds (a >>= next))
    {formats : Json}
    (hformats : ∀ name, holds (liftM (customFormat? formats name) : Compilation _))
    (ctx : Context) : holds (ctx.modifiers formats) := by
  have htagged {mods : String → Compilation (List Modifier)} (name : String)
      (h : ∀ text, holds (mods text)) : holds (tagged ctx.tags name mods) := by
    unfold tagged
    split
    · exact h _
    · exact hpure _
  have hbound (mod tag text : String) : holds (bound mod tag text) := by
    unfold bound
    dsimp only
    split
    · exact hpure _
    · exact hbind (hnote _) fun _ _ => hpure _
  have hformat (text : String) : holds (format formats text) := by
    unfold format
    refine hbind (hformats _) fun found _ => ?_
    cases found with
    | some => exact hpure _
    | none =>
      dsimp only
      split
      · exact hpure _
      · exact hbind (hnote _) fun _ _ => hpure _
  unfold Context.modifiers
  refine hbind (htagged _ (hbound _ _)) fun _ _ => ?_
  refine hbind (htagged _ (hbound _ _)) fun _ _ => ?_
  refine hbind (htagged _ (hbound _ _)) fun _ _ => ?_
  refine hbind (htagged _ (hbound _ _)) fun _ _ => ?_
  exact hbind (htagged _ hformat) fun _ _ => hpure _

end Refinement

end Schemata
