import Schemata.Proofs.Mentions
import Schemata.Proofs.Retention
import Schemata.Proofs.Spelling

/-!
# What a module holds

A module imports enumerations and defines constants. `enum_imports_selected` says that the
enumerations that are imported are exactly those that the settings select, so that a symbol of an
enumeration is imported exactly when the enumeration is selected. `constants_defined_once` says when
no constant is defined twice under the usual naming: when no two of the names that are defined sound
the same.
-/

namespace Schemata

open List
open Traced (bind_ok_iff lift_ok_iff)

variable {constant : Compiled} {declarations : List Declaration} {rejections : List Rejection}

section Lists

variable {α β γ : Type}

/-- Lists that are related place by place have the same images when what is related has. -/
theorem map_eq_of_forall₂ {related : α → β → Prop} {left : α → γ} {right : β → γ} {values : List α}
    {found : List β} (h : Forall₂ related values found)
    (hsame : ∀ v result, related v result → left v = right result) :
    values.map left = found.map right := by
  rw [← forall₂_eq_eq_eq, forall₂_map_left_iff, forall₂_map_right_iff]
  exact h.imp hsame

theorem subperm_map {part whole : List α} (image : α → β) (h : part.Subperm whole) :
    (part.map image).Subperm (whole.map image) := by
  obtain ⟨moved, hperm, hsub⟩ := h
  exact ⟨moved.map image, hperm.map image, hsub.map image⟩

/-- What is different in a list is different in any part of it. -/
theorem nodup_map_of_subperm {part whole : List α} {image : α → β} (h : part.Subperm whole)
    (hnodup : (whole.map image).Nodup) : (part.map image).Nodup := by
  obtain ⟨moved, hperm, hsub⟩ := subperm_map image h
  exact hperm.nodup_iff.1 (hsub.nodup hnodup)

end Lists

/-- A line that imports names from a file, if there are any. -/
def importLine (names : List Name) (path : String) : String :=
  if names = [] then ""
  else "import \x7b " ++ ", ".intercalate (names.map Json.display) ++ " \x7d from \"" ++ path ++
    "\";\n"

/-- A module starts with its imports: that of the validators, and that of the enumerations. -/
theorem ModuleText.text_imports (module : ModuleText) :
    ∃ rest, module.text = "// Generated by types-to-zod\n" ++
      ("import \x7b " ++ module.z ++ " \x7d from \"zod\";\n") ++
      importLine module.enumImports module.typesPath ++ rest := by
  have hassoc (a b c d e : String) : a ++ (b ++ c) ++ d ++ e = a ++ b ++ c ++ (d ++ e) := by
    simp only [String.append_assoc]
  have himports : module.imports = ("import \x7b " ++ module.z ++ " \x7d from \"zod\";\n") ++
      importLine module.enumImports module.typesPath := by
    rewrite [imports, importLine]
    by_cases hnone : module.enumImports = []
    · rw [if_pos hnone, if_pos (List.isEmpty_iff.2 hnone)]
    · rw [if_neg hnone, if_neg fun h => hnone (List.isEmpty_iff.1 h)]
  have htext : module.text = "// Generated by types-to-zod\n" ++ module.imports ++
      module.helper ++ String.join (module.definitions.map definition) := rfl
  rewrite [htext, himports]
  exact ⟨_, hassoc _ _ _ _ _⟩

/-- A symbol is the name of an enumeration or one of its members. -/
def IsSymbolOf (enumeration symbol : Name) : Prop :=
  symbol = enumeration ∨ ∃ member : String, symbol = .str (enumeration.display ++ "." ++ member)

section Order

variable {compiled ordered : List Compiled} {cycles : List (List Key)}

/-- The order holds nothing but what it was given, and nothing more often. -/
theorem ordered_subperm (h : orderCompiled compiled = .ok (ordered, cycles)) :
    ordered.Subperm compiled := by
  obtain ⟨keyed, hkeyed, h⟩ := bind_eq_ok_iff.1 h
  cases h
  obtain ⟨rfl, -⟩ := keyed_of_mapM hkeyed
  obtain ⟨lost, hperm, -⟩ := Order.order_split Keyed.key Keyed.uses keyed
  have hmapped := hperm.map Keyed.compiled
  rw [map_append] at hmapped
  exact (sublist_append_left _ _).subperm.trans hmapped.subperm

/-- What uses nothing is taken in the first round, so that nothing overtakes it. -/
theorem mem_ordered_of_independent (h : orderCompiled compiled = .ok (ordered, cycles))
    (hc : constant ∈ compiled) (huses : constant.dependencies = []) : constant ∈ ordered := by
  obtain ⟨keyed, hkeyed, h⟩ := bind_eq_ok_iff.1 h
  cases h
  obtain ⟨rfl, hright⟩ := keyed_of_mapM hkeyed
  obtain ⟨x, hx, rfl⟩ := mem_map.1 hc
  obtain ⟨lost, hperm, hlost, -⟩ := Order.order_split Keyed.key Keyed.uses keyed
  have hnone : x.uses = [] := by
    have hkeys := (hright x hx).uses
    rw [huses] at hkeys
    exact map_eq_nil_iff.1 hkeys.symm
  have hnext : Order.isNext Keyed.key Keyed.uses keyed
      (Order.takenAfter Keyed.key Keyed.uses keyed 0) x = true := by
    simp [Order.isNext, Order.isReady, Order.takenAfter, hnone]
  rcases mem_append.1 (hperm.mem_iff.2 hx) with hkept | hmem
  · exact mem_map_of_mem hkept
  · exact (Order.not_overtaken_of_next hx hnext (hlost x hmem)).elim

end Order

namespace Program

variable {p program : Program}

/-- The settings ask for the declarations of a name: they list it, or list nothing. -/
def Selects (program : Program) (name : Name) : Prop :=
  ∃ filter names, program.settings.nameFilter = some filter ∧ filter.elements = .ok names ∧
    (names = [] ∨ ∃ listed ∈ names, listed.key?.isSome ∧ listed.key? = name.key?)

section Selection

/-- The declarations that are asked for are those of the names that are. -/
theorem mem_selected_iff (h : p.selected = .ok declarations) (decl : Declaration) :
    decl ∈ declarations ↔ decl ∈ p.unit.declarations ∧ p.Selects decl.name := by
  obtain ⟨filter, hfilter, h⟩ := bind_eq_ok_iff.1 h
  obtain ⟨names, hnames, h⟩ := bind_eq_ok_iff.1 h
  obtain ⟨keys, hkeys, h⟩ := bind_eq_ok_iff.1 h
  cases h
  have hgiven : p.settings.nameFilter = some filter := by
    revert hfilter
    cases p.settings.nameFilter with
    | none => exact fun h => by cases h
    | some => exact fun h => by cases h; rfl
  have hmap := keys_of_mapM hkeys
  have hempty : keys.isEmpty = true ↔ names = [] := by
    rw [List.isEmpty_iff, ← map_eq_nil_iff (f := some), ← hmap, map_eq_nil_iff]
  have hlisted (name : Name) : name.key?.any (· ∈ keys) = true ↔
      ∃ listed ∈ names, listed.key?.isSome ∧ listed.key? = name.key? := by
    have hmem (key : Key) : key ∈ keys ↔ ∃ listed ∈ names, listed.key? = some key := by
      rw [← mem_map, hmap]
      simp
    cases name.key? with
    | none =>
      simp only [Option.any_none, Bool.false_eq_true, false_iff, not_exists, not_and]
      intro listed _ hsome hnone
      rw [hnone] at hsome
      cases hsome
    | some =>
      simp only [Option.any_some, decide_eq_true_eq, hmem]
      refine exists_congr fun listed => and_congr_right fun _ => ?_
      exact ⟨fun hk => ⟨by rw [hk]; rfl, hk⟩, And.right⟩
  rw [mem_filter, Bool.or_eq_true, hempty, hlisted]
  refine and_congr_right fun _ => ⟨fun hcases => ⟨filter, names, hgiven, hnames, hcases⟩, ?_⟩
  rintro ⟨filter', names', hgiven', hnames', hcases⟩
  cases hgiven.symm.trans hgiven'
  cases hnames.symm.trans hnames'
  exact hcases

theorem selected_sublist (h : p.selected = .ok declarations) :
    declarations.Sublist p.unit.declarations := by
  obtain ⟨filter, -, h⟩ := bind_eq_ok_iff.1 h
  obtain ⟨names, -, h⟩ := bind_eq_ok_iff.1 h
  obtain ⟨keys, -, h⟩ := bind_eq_ok_iff.1 h
  cases h
  exact filter_sublist

/-- What is generated is compiled from the declarations that are asked for. -/
theorem selected_of_generate {current : List String} {outputPath : Json} {generation : Generation}
    (h : (p.generate current outputPath).result = .ok generation) :
    ∃ declarations, p.selected = .ok declarations ∧
      (p.compileEach declarations).result = .ok (generation.compiled, generation.rejections) := by
  obtain ⟨⟨compiled, rejections⟩, hcomp, h⟩ := bind_ok_iff.1 h
  obtain ⟨declarations, hselected, hcomp⟩ := bind_ok_iff.1 hcomp
  obtain ⟨⟨ordered, cycles⟩, -, h⟩ := bind_ok_iff.1 h
  obtain ⟨reported, -, h⟩ := bind_ok_iff.1 h
  obtain ⟨module, -, h⟩ := bind_ok_iff.1 h
  obtain ⟨done, -, h⟩ := bind_ok_iff.1 h
  cases h
  exact ⟨declarations, lift_ok_iff.1 hselected, hcomp⟩

/-- What is compiled keeps the name of the declaration, and whether it is an enumeration. -/
theorem compiled_keeps {decl : Declaration}
    (h : (p.compileDeclaration decl).result = .ok constant) :
    constant.name = decl.name ∧ (constant.isEnum = true ↔ ∃ d, decl = .enumeration d) := by
  obtain ⟨s, -, h⟩ := bind_eq_ok_iff.1 h
  obtain ⟨schemaName, -, h⟩ := bind_eq_ok_iff.1 h
  obtain ⟨dependencies, -, h⟩ := bind_eq_ok_iff.1 h
  cases h
  refine ⟨rfl, ?_⟩
  cases decl <;> simp

/-- An enumeration is never left out, and uses nothing. -/
theorem enumeration_compiled (d : Enumeration) :
    (∀ error, (p.compileDeclaration (.enumeration d)).result ≠ .error (.compile error)) ∧
      ∀ constant, (p.compileDeclaration (.enumeration d)).result = .ok constant →
        constant.dependencies = [] := by
  constructor
  · intro error h
    change (do
      let name ← liftM (p.settings.nameOf d.name)
      pure (⟨_, name, [], _, true, [], false⟩ : Compiled) : Except Failure Compiled) = _ at h
    cases hn : p.settings.nameOf d.name with
    | error | ok =>
      rw [hn] at h
      cases h
  · intro constant h
    obtain ⟨-, -, hdistinct, -, -⟩ := compiled_of_result h
    exact (Except.ok.inj hdistinct).symm

end Selection

section Enumerations

variable {current : List String} {outputPath : Json} {compiled ordered : List Compiled}
  {module : ModuleText}

/-- The enumerations that are imported are those that the settings ask for. -/
theorem mem_enum_imports_iff {cycles : List (List Key)} (hselected : p.selected = .ok declarations)
    (hcomp : (p.compileEach declarations).result = .ok (compiled, rejections))
    (hordered : orderCompiled compiled = .ok (ordered, cycles))
    (hmodule : p.moduleText current outputPath compiled ordered = .ok module) (name : Name) :
    name ∈ module.enumImports ↔
      (∃ d, .enumeration d ∈ p.unit.declarations ∧ d.name = name) ∧ p.Selects name := by
  obtain ⟨-, -, henums, -⟩ := module_inversion hmodule
  rw [henums, mem_map]
  constructor
  · rintro ⟨constant, hc, rfl⟩
    obtain ⟨hmem, henum⟩ := mem_filter.1 hc
    obtain ⟨decl, hdecl, hres⟩ :=
      compiled_of_each hcomp constant ((ordered_subperm hordered).subset hmem)
    obtain ⟨hn, hkind⟩ := compiled_keeps hres
    obtain ⟨d, rfl⟩ := hkind.1 henum
    obtain ⟨hunit, hselects⟩ := (mem_selected_iff hselected _).1 hdecl
    rw [hn]
    exact ⟨⟨d, hunit, rfl⟩, hselects⟩
  · rintro ⟨⟨d, hunit, rfl⟩, hselects⟩
    have hdecl := (mem_selected_iff hselected (.enumeration d)).2 ⟨hunit, hselects⟩
    obtain ⟨hkept, hindependent⟩ := @enumeration_compiled p d
    obtain ⟨-, -, -, hleft⟩ := each_inversion hcomp
    rcases hleft _ hdecl with ⟨constant, hc, hres⟩ | ⟨error, herror⟩
    · obtain ⟨hn, hkind⟩ := compiled_keeps hres
      refine ⟨constant, mem_filter.2 ⟨?_, hkind.2 ⟨d, rfl⟩⟩, hn⟩
      exact mem_ordered_of_independent hordered hc (hindependent constant hres)
    · exact (hkept error herror).elim

/-- The enumerations of a module: the code that is generated is the text of a module, in which the
second import names exactly the enumerations that the settings ask for. So a symbol that occurs in
one of its constants is imported, if its enumeration is declared, exactly when the settings ask for
the enumeration too. -/
theorem enum_imports_selected {current : List String} {outputPath : Json} {generation : Generation}
    (h : (program.generate current outputPath).result = .ok generation) :
    ∃ (imported ordered : List Compiled) (cycles : List (List Key)) (module : ModuleText)
        (rest : String),
      orderCompiled generation.compiled = .ok (ordered, cycles) ∧
      List.Forall₂ (IsDefinitionOf module.z) (imported ++ ordered) module.definitions ∧
      generation.code = "// Generated by types-to-zod\n" ++
        ("import \x7b " ++ module.z ++ " \x7d from \"zod\";\n") ++
        importLine module.enumImports module.typesPath ++ rest ∧
      (∀ name, name ∈ module.enumImports ↔
        (∃ declared, .enumeration declared ∈ program.unit.declarations ∧ declared.name = name) ∧
          program.Selects name) ∧
      ∀ constant ∈ imported ++ ordered, ∀ symbol, Schema.Occurs (.symbol symbol) constant.schema →
        ∀ declared, .enumeration declared ∈ program.unit.declarations →
          IsSymbolOf declared.name symbol →
          (declared.name ∈ module.enumImports ↔ program.Selects declared.name) := by
  obtain ⟨declarations, hselected, hcompiled⟩ := selected_of_generate h
  obtain ⟨-, ordered, cycles, module, -, hordered, hmodule, hcode⟩ := generate_inversion h
  obtain ⟨imported, -, hdefinitions⟩ := module_definitions hmodule
  obtain ⟨rest, htext⟩ := module.text_imports
  have hnames := mem_enum_imports_iff hselected hcompiled hordered hmodule
  refine ⟨imported, ordered, cycles, module, rest, hordered, hdefinitions, hcode.trans htext,
    hnames, ?_⟩
  intro constant _ symbol _ declared hdeclared _
  exact (hnames declared.name).trans (and_iff_right ⟨declared, hdeclared, rfl⟩)

/-- The enumeration `enum Color { Red }` and the alias `type Paint = Color.Red`, of which the
settings ask for some. -/
def paints (filter : List Json) : Program where
  unit := ⟨.null, [
      .enumeration ⟨.str "Color", [], true, [⟨.str "Red", .str "red"⟩]⟩,
      .typeAlias ⟨.str "Paint", [], true, [], .enumMember (.str "Color") (.str "Red")⟩], []⟩
  settings := { Settings.default with nameFilter := some (.arr filter) }

/-- When the settings ask for nothing in particular, the color of the paint is imported. -/
theorem color_of_paint_imported :
    ∃ generation constant module rest,
      ((paints []).generate [] .null).result = .ok generation ∧
      constant ∈ generation.compiled ∧
      Schema.Occurs (.symbol (.str "Color.Red")) constant.schema ∧
      generation.code = "// Generated by types-to-zod\n" ++
        ("import \x7b " ++ ModuleText.z module ++ " \x7d from \"zod\";\n") ++
        importLine module.enumImports module.typesPath ++ rest ∧
      .str "Color" ∈ module.enumImports := by
  obtain ⟨imported, ordered, cycles, module, rest, hordered, -, hcode, -, hsymbols⟩ :=
    enum_imports_selected (rfl : ((paints []).generate [] .null).result = .ok _)
  cases hordered
  have hoccurs : Schema.Occurs (.symbol (.str "Color.Red"))
      (.call "literal" [.symbol (.str "Color.Red")]) := .inside .here List.mem_cons_self
  refine ⟨_, _, module, rest, rfl, List.mem_cons_of_mem _ List.mem_cons_self, hoccurs, hcode, ?_⟩
  refine (hsymbols _ (List.mem_append_right _ (List.mem_cons_of_mem _ List.mem_cons_self)) _
    hoccurs _ List.mem_cons_self (.inr ⟨"Red", rfl⟩)).2 ?_
  exact ⟨_, _, rfl, rfl, .inl rfl⟩

/-- When the settings ask for the paint only, its color is not imported. -/
theorem color_of_selected_paint_missing :
    ∃ generation ordered cycles module,
      ((paints [.str "Paint"]).generate [] .null).result = .ok generation ∧
      orderCompiled generation.compiled = .ok (ordered, cycles) ∧
      (paints [.str "Paint"]).moduleText [] .null generation.compiled ordered = .ok module ∧
      generation.code = module.text ∧
      (∃ constant ∈ ordered, Schema.Occurs (.symbol (.str "Color.Red")) constant.schema) ∧
      IsSymbolOf (.str "Color") (.str "Color.Red") ∧
      (∃ declared, .enumeration declared ∈ (paints [.str "Paint"]).unit.declarations ∧
        declared.name = .str "Color") ∧
      .str "Color" ∉ module.enumImports := by
  refine ⟨_, _, _, _, rfl, rfl, rfl, rfl, ?_, .inr ⟨"Red", rfl⟩, ⟨_, List.mem_cons_self, rfl⟩, ?_⟩
  · exact ⟨_, List.mem_cons_self, .inside .here List.mem_cons_self⟩
  · exact List.not_mem_nil

end Enumerations

/-- The names that a program declares or imports. -/
def sourceNames (program : Program) : List String :=
  program.unit.declarations.map (fun declaration => declaration.name.display) ++
    program.unit.imports

section Names

variable {compiled imported : List Compiled}

/-- Placeholders stand for imported names, each for one of its own, and are named like schemas. -/
theorem placeholder_names (h : p.placeholders compiled = .ok imported) :
    (imported.map Compiled.name).Sublist (p.unit.imports.map Json.str) ∧
      ∀ constant ∈ imported, p.settings.nameOf constant.name = .ok constant.schemaName := by
  obtain ⟨used, -, h⟩ := bind_eq_ok_iff.1 h
  obtain ⟨all, hall, h⟩ := bind_eq_ok_iff.1 h
  have hplaceholder {name : Name} {constant : Compiled} (hc : p.placeholder name = .ok constant) :
      constant.name = name ∧ p.settings.nameOf constant.name = .ok constant.schemaName := by
    obtain ⟨schemaName, hn, hc⟩ := bind_eq_ok_iff.1 hc
    cases hc
    exact ⟨rfl, hn⟩
  have hnames : p.unit.imports.map Json.str = all.map Compiled.name :=
    map_eq_of_forall₂ (mapM_eq_ok_iff.1 hall) fun _ _ hc => (hplaceholder hc).1.symm
  have hsub := filterM_sublist h
  refine ⟨hnames ▸ hsub.map Compiled.name, fun constant hc => ?_⟩
  obtain ⟨name, -, hn⟩ := exists_of_mapM hall constant (hsub.subset hc)
  exact (hplaceholder hn).2

/-- What is compiled is named like its schema, and each comes of a declaration of its own. -/
theorem compiled_names (h : (p.compileEach declarations).result = .ok (compiled, rejections)) :
    (compiled.map Compiled.name).Sublist (declarations.map Declaration.name) ∧
      ∀ constant ∈ compiled, p.settings.nameOf constant.name = .ok constant.schemaName := by
  obtain ⟨kept, hsub, hkept, -⟩ := each_inversion h
  constructor
  · rw [← map_eq_of_forall₂ hkept fun _ _ hres => (compiled_keeps hres).1.symm]
    exact hsub.map Declaration.name
  · intro constant hc
    obtain ⟨decl, -, hres⟩ := compiled_of_each h constant hc
    rw [(compiled_keeps hres).1]
    exact (compiled_of_result hres).2.1

/-- A constant of a module is named like its schema, and comes of a name that is declared or
imported. -/
theorem named_of_constant {ordered : List Compiled} {cycles : List (List Key)}
    (hselected : p.selected = .ok declarations)
    (hcomp : (p.compileEach declarations).result = .ok (compiled, rejections))
    (himported : p.placeholders compiled = .ok imported)
    (hordered : orderCompiled compiled = .ok (ordered, cycles))
    (hc : constant ∈ imported ++ ordered) :
    p.settings.nameOf constant.name = .ok constant.schemaName ∧
      constant.name.display ∈ p.sourceNames := by
  rcases mem_append.1 hc with hc | hc
  · obtain ⟨hsub, hnames⟩ := placeholder_names himported
    obtain ⟨text, htext, heq⟩ := mem_map.1 (hsub.subset (mem_map_of_mem hc))
    exact ⟨hnames constant hc, mem_append_right _ (heq ▸ htext)⟩
  · obtain ⟨hsub, hnames⟩ := compiled_names hcomp
    have hmem := (ordered_subperm hordered).subset hc
    obtain ⟨decl, hdecl, heq⟩ := mem_map.1 (hsub.subset (mem_map_of_mem hmem))
    refine ⟨hnames constant hmem, mem_append_left _ (mem_map.2 ⟨decl, ?_, by rw [heq]⟩)⟩
    exact (selected_sublist hselected).subset hdecl

/-- The definitions of constants have the names of their schemas. -/
theorem definition_names {z : String} {constants : List Compiled} {definitions : List Definition}
    (h : Forall₂ (IsDefinitionOf z) constants definitions) :
    definitions.map Definition.name = constants.map Compiled.schemaName :=
  (map_eq_of_forall₂ h fun _ _ hdefinition => hdefinition.1.symm).symm

/-- Under the usual naming, the name of a schema is spelled like the name of its type. -/
theorem usual_name (hnaming : p.settings.schemaName = some Settings.defaultSchemaName)
    {name found : Name} (h : p.settings.nameOf name = .ok found) :
    found = .str (Identifier.schemaName name.display) := by
  rw [Settings.nameOf, hnaming] at h
  exact (Except.ok.inj h).symm

/-- Under the usual naming, two schemas have the same name when the names of their types sound the
same. -/
theorem nodup_schema_names_iff (hnaming : p.settings.schemaName = some Settings.defaultSchemaName)
    {constants : List Compiled}
    (hnames : ∀ constant ∈ constants, p.settings.nameOf constant.name = .ok constant.schemaName) :
    (constants.map Compiled.schemaName).Nodup ↔
      (constants.map fun constant => Identifier.spoken constant.name.display).Nodup := by
  rw [List.Nodup, List.Nodup, pairwise_map, pairwise_map]
  refine List.Pairwise.iff_of_mem fun {a b} ha hsecond => not_congr ?_
  rw [usual_name hnaming (hnames a ha), usual_name hnaming (hnames b hsecond), Json.str.injEq,
    Identifier.schema_name_eq_iff]

/-- No constant is defined twice: under the usual naming, the constants of a module have different
names exactly when the names that they are defined for sound different. This is the case when all
names that are declared or imported do. -/
theorem constants_defined_once {current : List String} {outputPath : Json}
    {generation : Generation} (h : (program.generate current outputPath).result = .ok generation)
    (hnaming : program.settings.schemaName = some Settings.defaultSchemaName) :
    ∃ (imported ordered : List Compiled) (cycles : List (List Key)) (module : ModuleText),
      program.placeholders generation.compiled = .ok imported ∧
      orderCompiled generation.compiled = .ok (ordered, cycles) ∧
      generation.code = module.text ∧
      List.Forall₂ (IsDefinitionOf module.z) (imported ++ ordered) module.definitions ∧
      ((module.definitions.map Definition.name).Nodup ↔
        ((imported ++ ordered).map fun constant =>
          Identifier.spoken constant.name.display).Nodup) ∧
      ((program.sourceNames.map Identifier.spoken).Nodup →
        (module.definitions.map Definition.name).Nodup) := by
  obtain ⟨declarations, hselected, hcompiled⟩ := selected_of_generate h
  obtain ⟨-, ordered, cycles, module, -, hordered, hmodule, hcode⟩ := generate_inversion h
  obtain ⟨imported, himported, hdefinitions⟩ := module_definitions hmodule
  obtain ⟨himports, himportedNames⟩ := placeholder_names himported
  obtain ⟨hdeclared, hcompiledNames⟩ := compiled_names hcompiled
  have hsubperm := ordered_subperm hordered
  have hnames : ∀ constant ∈ imported ++ ordered,
      program.settings.nameOf constant.name = .ok constant.schemaName :=
    List.forall_mem_append.2 ⟨himportedNames,
      fun constant hconstant => hcompiledNames constant (hsubperm.subset hconstant)⟩
  have hexact := nodup_schema_names_iff hnaming hnames
  rw [← definition_names hdefinitions] at hexact
  refine ⟨imported, ordered, cycles, module, himported, hordered, hcode, hdefinitions, hexact, ?_⟩
  intro hdifferent
  refine hexact.2 ?_
  -- The names that are defined are some of those that are declared or imported.
  have hsource : ((imported ++ ordered).map Compiled.name).Subperm
      (program.unit.declarations.map Declaration.name ++ program.unit.imports.map Json.str) := by
    rw [List.map_append]
    refine List.Subperm.trans ?_ List.perm_append_comm.subperm
    refine himports.subperm.append ((subperm_map Compiled.name hsubperm).trans ?_)
    exact (hdeclared.trans ((selected_sublist hselected).map Declaration.name)).subperm
  have hall : (program.unit.declarations.map Declaration.name ++
      program.unit.imports.map Json.str).map (fun name => Identifier.spoken name.display) =
        program.sourceNames.map Identifier.spoken := by
    rw [sourceNames, List.map_append, List.map_append, List.map_map, List.map_map, List.map_map]
    rfl
  have hnodup := nodup_map_of_subperm hsource (hall ▸ hdifferent)
  rwa [List.map_map] at hnodup

/-- The aliases `type UserId = string` and `type other = Role`, with an imported `Role`. -/
def accounts (other : String) : Program where
  unit :=
    { path := .null
      declarations := [
        .typeAlias ⟨.str "UserId", [], true, [], .keyword .string⟩,
        .typeAlias ⟨.str other, [], true, [], .reference (.str "Role") []⟩]
      imports := ["Role"] }
  settings := Settings.default

/-- A name with an abbreviation and a number stays apart from the others. -/
theorem account_constants_defined_once :
    ∃ generation module, ((accounts "HTTPUser_2").generate [] .null).result = .ok generation ∧
      ((accounts "HTTPUser_2").sourceNames.map Identifier.spoken).Nodup ∧
      generation.code = ModuleText.text module ∧
      (module.definitions.map Definition.name).Nodup := by
  obtain ⟨imported, ordered, cycles, module, -, -, hcode, -, -, hdifferent⟩ :=
    constants_defined_once (rfl : ((accounts "HTTPUser_2").generate [] .null).result = .ok _) rfl
  have hsource : ((accounts "HTTPUser_2").sourceNames.map Identifier.spoken).Nodup := by decide
  exact ⟨_, module, rfl, hsource, hcode, hdifferent hsource⟩

/-- Two names that differ in an underscore only have the same constant. -/
theorem user_id_defined_twice :
    ∃ generation ordered module,
      ((accounts "User_Id").generate [] .null).result = .ok generation ∧
      orderCompiled generation.compiled = .ok (ordered, []) ∧
      (accounts "User_Id").moduleText [] .null generation.compiled ordered = .ok module ∧
      generation.code = module.text ∧ (accounts "User_Id").sourceNames.Nodup ∧
      (accounts "User_Id").sourceNames.all Identifier.isIdentifier = true ∧
      module.definitions.map Definition.name =
        [.str "roleSchema", .str "userIdSchema", .str "userIdSchema"] := by
  refine ⟨_, _, _, rfl, rfl, rfl, rfl, ?_, ?_, rfl⟩
  · decide
  · decide

end Names

end Program

end Schemata
