import Schemata.Proofs.ModuleContents
import Schemata.Proofs.PropertyNames

/-!
# Legal names of constants

The name of a schema starts like the first letter or digit of the name of its type: underscores and
dollar signs before it are dropped, so that a name such as `_1` gives a text that is no identifier.
`schema_name_is_word` says that there is no other exception, and `constants_legally_named` that this
decides for every constant that a module defines or refers to whether it has a legal name.
-/

namespace Schemata

open List

namespace Identifier

/-- Whether the first letter or digit of a text, if it has any, is a letter. -/
def leadsWithLetter (text : String) : Bool :=
  (text.toList.find? Char.isAlphanum).all Char.isAlpha

/-- A text of letters and digits is a word when it starts with a letter. -/
theorem is_word_of_alphanum {text : String} (h : ∀ c ∈ text.toList, c.isAlphanum = true) :
    isWord text = text.toList.head?.any Char.isAlpha := by
  unfold isWord
  cases hchars : text.toList with
  | nil => rfl
  | cons c rest =>
    rw [hchars] at h
    obtain ⟨hc, hrest⟩ := forall_mem_cons.1 h
    have hmark : c ≠ '_' := ne_of_apply_ne Char.isAlphanum (by rw [hc]; decide)
    have hdollar : c ≠ '$' := ne_of_apply_ne Char.isAlphanum (by rw [hc]; decide)
    have hstart : isStart c = c.isAlpha := by simp [isStart, hmark, hdollar]
    have hall : rest.all isPart = true := by
      refine all_eq_true.2 fun d hd => ?_
      rw [isPart, hrest d hd, Bool.true_or, Bool.true_or]
    show (isStart c && rest.all isPart) = c.isAlpha
    rw [hstart, hall, Bool.and_true]

/-- The name of a schema is an identifier, unless the first letter or digit of the name that it is
made of is a digit. -/
theorem schema_name_is_word (text : String) : isWord (schemaName text) = leadsWithLetter text := by
  have hlower (cs : List Char) :
      (lowered cs).head?.any Char.isAlpha = cs.head?.any Char.isAlpha := by
    cases cs with
    | nil => rfl
    | cons c => exact Char.isAlpha_toLower_eq_isAlpha c
  rw [schemaName, is_word_of_alphanum fun _ => alphanum_of_mem_camelCase, ← hlower,
    lowered_camelCase, letters, hlower, head?_filter, String.toList_append, find?_append,
    leadsWithLetter]
  -- Without a letter or digit, the name starts with that of `Schema`.
  cases text.toList.find? Char.isAlphanum <;> rfl

end Identifier

open Identifier (isWord schemaName leadsWithLetter)

/-- The name of a constant can stand in a definition. -/
def IsLegal (name : Name) : Prop :=
  ∃ text, name = .str text ∧ isWord text = true

/-- Under the usual naming, a constant is made of a name in the source, and legal when this leads
with a letter. -/
def IsMadeOf (constant source : Name) : Prop :=
  constant = .str (schemaName source.display) ∧
    (IsLegal constant ↔ leadsWithLetter source.display = true)

namespace Program

variable {p program : Program}

theorem made_of_usual_name (hnaming : p.settings.schemaName = some Settings.defaultSchemaName)
    {name found : Name} (h : p.settings.nameOf name = .ok found) : IsMadeOf found name := by
  obtain rfl := usual_name hnaming h
  exact ⟨rfl, by simp [IsLegal, Identifier.schema_name_is_word]⟩

/-- Legal names: under the usual naming, the name of a schema is an identifier exactly when the
first letter or digit of the name that it is made of, if it has any, is a letter. So this decides
for all constants that a module defines, which are made of names that are declared or imported, and
for all that they refer to, which are made of names that are mentioned, whether they are legal. -/
theorem constants_legally_named {current : List String} {outputPath : Json}
    {generation : Generation} (h : (program.generate current outputPath).result = .ok generation)
    (hnaming : program.settings.schemaName = some Settings.defaultSchemaName) :
    (∀ name, isWord (schemaName name) = true ↔ leadsWithLetter name = true) ∧
    ∃ (imported ordered : List Compiled) (cycles : List (List Key)) (module : ModuleText),
      program.placeholders generation.compiled = .ok imported ∧
      orderCompiled generation.compiled = .ok (ordered, cycles) ∧
      generation.code = module.text ∧
      List.Forall₂ (IsDefinitionOf module.z) (imported ++ ordered) module.definitions ∧
      ∀ constant ∈ imported ++ ordered,
        constant.name.display ∈ program.sourceNames ∧
        IsMadeOf constant.schemaName constant.name ∧
        ∀ used, Schema.Occurs (.reference used) constant.schema →
          ∃ declaration ∈ program.unit.declarations, ∃ name,
            program.NamedIn declaration name ∧ IsMadeOf used name := by
  obtain ⟨declarations, hselected, hcompiled⟩ := selected_of_generate h
  obtain ⟨-, ordered, cycles, module, -, hordered, hmodule, hcode⟩ := generate_inversion h
  obtain ⟨imported, himported, hdefinitions⟩ := module_definitions hmodule
  refine ⟨fun name => by rw [Identifier.schema_name_is_word], imported, ordered, cycles, module,
    himported, hordered, hcode, hdefinitions, fun constant hconstant => ?_⟩
  obtain ⟨hname, hsource⟩ := named_of_constant hselected hcompiled himported hordered hconstant
  refine ⟨hsource, made_of_usual_name hnaming hname, fun used hused => ?_⟩
  rcases List.mem_append.1 hconstant with hplaceholder | hdeclared
  · exact (placeholder_plain himported constant hplaceholder used hused).elim
  · obtain ⟨declaration, hdeclaration, hresult⟩ :=
      compiled_of_each hcompiled constant ((ordered_subperm hordered).subset hdeclared)
    obtain ⟨name, hnamed, hname⟩ := named_of_reference hresult hused
    exact ⟨declaration, (selected_sublist hselected).subset hdeclaration, name, hnamed,
      made_of_usual_name hnaming hname⟩

/-- The alias `$v2` has a legal constant, which refers to one that is made of the name `Role`. -/
theorem account_constants_legal :
    ∃ generation ordered constant,
      ((accounts "$v2").generate [] .null).result = .ok generation ∧
      orderCompiled generation.compiled = .ok (ordered, []) ∧
      constant ∈ ordered ∧ constant.schemaName = .str "v2Schema" ∧ IsLegal constant.schemaName ∧
      ∃ declaration ∈ (accounts "$v2").unit.declarations, ∃ name,
        (accounts "$v2").NamedIn declaration name ∧ IsMadeOf (.str "roleSchema") name := by
  obtain ⟨-, imported, ordered, cycles, module, himported, hordered, -, -, hconstants⟩ :=
    constants_legally_named (rfl : ((accounts "$v2").generate [] .null).result = .ok _) rfl
  cases himported
  cases hordered
  obtain ⟨-, hmade, hreferences⟩ := hconstants _
    (List.mem_append_right _ (List.mem_cons_of_mem _ List.mem_cons_self))
  exact ⟨_, _, _, rfl, rfl, List.mem_cons_of_mem _ List.mem_cons_self, rfl, hmade.2.2 (by decide),
    hreferences _ .here⟩

/-- The alias `_1` has a name that is an identifier, and a constant that is not. -/
theorem digit_leads_constant :
    isWord "_1" = true ∧ schemaName "_1" = "1Schema" ∧ isWord "1Schema" = false ∧
      ∃ generation, ((accounts "_1").generate [] .null).result = .ok generation ∧
        generation.compiled.map Compiled.schemaName = [.str "userIdSchema", .str "1Schema"] :=
  ⟨by decide, by decide, by decide, _, rfl, rfl⟩

end Program

end Schemata
