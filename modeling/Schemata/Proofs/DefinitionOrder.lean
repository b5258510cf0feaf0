import Mathlib.Data.List.Forall2
import Schemata.Proofs.Ordering
import Schemata.Proofs.SideChannels

/-!
# Definition before use

A module defines constants: placeholders of imported names first, then the compiled declarations in
order. `Refers` says that the expression of one constant refers to another one.
`definition_before_use` says that a constant stands before those that refer to it, unless both are
in the block at the end of the module from which a cycle of references can be reached.
-/

namespace Schemata

open List
open Traced (bind_ok_iff lift_ok_iff)

variable {compiled : List Compiled} {user : Nat}

section Results

variable {ε α β : Type} {values : List α} {found : List β}

/-- A result that is lifted is the result. -/
theorem lift_eq_ok_iff {result : Except Fault α} {v : α} :
    (liftM result : Except Failure α) = .ok v ↔ result = .ok v := by
  cases result with
  | error => exact ⟨fun h => (nomatch h), fun h => nomatch h⟩
  | ok => exact ⟨fun h => by cases h; rfl, fun h => by cases h; rfl⟩

/-- Steps for all values succeed when each one does. -/
theorem mapM_eq_ok_iff {step : α → Except ε β} :
    values.mapM step = .ok found ↔ Forall₂ (fun v result => step v = .ok result) values found := by
  induction values generalizing found with
  | nil => cases found <;> simp [pure, Except.pure]
  | cons v rest ih =>
    rw [mapM_cons]
    constructor
    · intro h
      obtain ⟨a, ha, h⟩ := bind_eq_ok_iff.1 h
      obtain ⟨others, hothers, h⟩ := bind_eq_ok_iff.1 h
      cases h
      exact .cons ha (ih.1 hothers)
    · intro h
      cases h with
      | cons ha hothers =>
        exact bind_eq_ok_iff.2 ⟨_, ha, bind_eq_ok_iff.2 ⟨_, ih.2 hothers, rfl⟩⟩

/-- Of two lists that are related place by place, every element of the second has a partner. -/
theorem exists_of_forall₂ {related : α → β → Prop}
    (h : Forall₂ related values found) : ∀ result ∈ found, ∃ v ∈ values, related v result := by
  induction h with
  | nil => exact fun _ h => nomatch h
  | cons ha hr ih =>
    intro result hres
    rcases mem_cons.1 hres with rfl | hres
    · exact ⟨_, mem_cons_self, ha⟩
    · obtain ⟨v, hv, hrel⟩ := ih result hres
      exact ⟨v, mem_cons_of_mem _ hv, hrel⟩

/-- What comes of a step for all values comes of one of them. -/
theorem exists_of_mapM {step : α → Except ε β}
    (h : values.mapM step = .ok found) : ∀ result ∈ found, ∃ v ∈ values, step v = .ok result :=
  exists_of_forall₂ (mapM_eq_ok_iff.1 h)

/-- What a filter keeps, with what was kept before, in the reverse order. -/
theorem filter_aux_sublist {keep : α → Except ε Bool} {values kept found : List α}
    (h : List.filterAuxM keep values kept = .ok found) :
    ∃ more : List α, found = more.reverse ++ kept ∧ more.Sublist values := by
  induction values generalizing kept with
  | nil =>
    cases h
    exact ⟨[], rfl, .slnil⟩
  | cons a rest ih =>
    obtain ⟨isKept, -, h⟩ := bind_eq_ok_iff.1 h
    obtain ⟨more, hf, hmore⟩ := ih h
    cases isKept with
    | false => exact ⟨more, hf, hmore.cons a⟩
    | true => exact ⟨a :: more, by simpa using hf, hmore.cons_cons a⟩

/-- What a filter keeps stands in the order of the values. -/
theorem filterM_sublist {keep : α → Except ε Bool} {values found : List α}
    (h : values.filterM keep = .ok found) : found.Sublist values := by
  obtain ⟨kept, hkept, h⟩ := bind_eq_ok_iff.1 h
  cases h
  obtain ⟨more, rfl, hmore⟩ := filter_aux_sublist hkept
  simpa using hmore

end Results

/-- The expression of the constant at one position refers to the constant at another one. -/
def Refers (constants : List Compiled) (user used : Nat) : Prop :=
  ∃ first second name, constants[user]? = some first ∧ constants[used]? = some second ∧
    Schema.Occurs (.reference name) first.schema ∧ name.key? = second.schemaName.key?

/-- A definition in a module is the one of a constant. -/
def IsDefinitionOf (z : String) (constant : Compiled) (definition : Definition) : Prop :=
  definition.name = constant.schemaName ∧ constant.schema.text z = .ok definition.expression

/-- A constant refers to another one. -/
def RefersToOther (constants : List Compiled) (user used : Nat) : Prop :=
  Refers constants user used ∧ user ≠ used

/-- The keys that a compiled declaration was given are the keys of its names. -/
structure Keyed.Right (keyed : Keyed) : Prop where
  key : keyed.compiled.schemaName.key? = some keyed.key
  uses : keyed.compiled.dependencies.map Json.key? = keyed.uses.map some

section Keys

variable {keyed : Keyed}

/-- The keys of names are the keys of those names. -/
theorem keys_of_mapM {names : List Name} {keys : List Key} (h : names.mapM Json.key = .ok keys) :
    names.map Json.key? = keys.map some := by
  have hkeys := mapM_eq_ok_iff.1 h
  clear h
  induction hkeys with
  | nil => rfl
  | cons ha hr ih => rw [map_cons, map_cons, Program.key?_of_key ha, ih]

theorem keyed_right {compiled : Compiled} (h : Keyed.of compiled = .ok keyed) :
    keyed.compiled = compiled ∧ keyed.Right := by
  obtain ⟨key, hk, h⟩ := bind_eq_ok_iff.1 h
  obtain ⟨uses, huses, h⟩ := bind_eq_ok_iff.1 h
  cases h
  exact ⟨rfl, Program.key?_of_key hk, keys_of_mapM huses⟩

/-- Compiled declarations are given their keys in order. -/
theorem keyed_of_mapM {keyed : List Keyed} (h : compiled.mapM Keyed.of = .ok keyed) :
    keyed.map Keyed.compiled = compiled ∧ ∀ x ∈ keyed, x.Right := by
  have hkeyed := mapM_eq_ok_iff.1 h
  clear h
  induction hkeyed with
  | nil => exact ⟨rfl, fun _ h => nomatch h⟩
  | cons ha _ ih =>
    obtain ⟨hcomp, hright⟩ := keyed_right ha
    refine ⟨by rw [map_cons, hcomp, ih.1], fun x hx => ?_⟩
    rcases mem_cons.1 hx with rfl | hx
    · exact hright
    · exact ih.2 x hx

/-- A key that is used is the key of a dependency. -/
theorem Keyed.Right.mem_uses (h : keyed.Right) {key : Key} :
    key ∈ keyed.uses ↔ ∃ name ∈ keyed.compiled.dependencies, name.key? = some key := by
  have hmem : some key ∈ keyed.uses.map some ↔ key ∈ keyed.uses := by simp
  rw [← hmem, ← h.uses, mem_map]

end Keys

section Positions

variable {imported : List Compiled} {xs ordered left : List Keyed} {used : Nat}

/-- The constants of a module: placeholders, and then definitions in order. -/
def constants (imported : List Compiled) (ordered left : List Keyed) : List Compiled :=
  imported ++ (ordered ++ left).map Keyed.compiled

/-- A constant after the placeholders is the definition at its place. -/
theorem constants_getElem? {position : Nat} (h : imported.length ≤ position) :
    (constants imported ordered left)[position]? =
      (ordered ++ left)[position - imported.length]?.map Keyed.compiled := by
  rw [constants, getElem?_append_right h, getElem?_map]

variable (himported : ∀ placeholder ∈ imported, ∀ name,
    ¬Schema.Occurs (.reference name) placeholder.schema)
  (hright : ∀ item ∈ xs, item.Right)
  (hchannels : ∀ item ∈ xs,
    ∃ helper, SideChannels item.compiled.schema item.compiled.dependencies helper)
  (hnodup : (xs.map Keyed.key).Nodup)
  (hordered : Order.Ordered Keyed.key Keyed.uses (xs.map Keyed.key) [] xs ordered left)

include himported hright hchannels hordered

/-- A constant that refers to another one is a definition, which uses the key of the other one, and
the other one is a placeholder or the definition of that key. -/
theorem refers_cases (h : Refers (constants imported ordered left) user used) :
    imported.length ≤ user ∧ ∃ x, (ordered ++ left)[user - imported.length]? = some x ∧
      (used < imported.length ∨
        ∃ other, (ordered ++ left)[used - imported.length]? = some other ∧
          imported.length ≤ used ∧ other.key ∈ x.uses) := by
  obtain ⟨a, b, name, ha, hsecond, hoccurs, hn⟩ := h
  have huser : imported.length ≤ user := by
    by_contra hlt
    rw [constants, getElem?_append_left (Nat.lt_of_not_le hlt)] at ha
    exact himported a (mem_of_getElem? ha) name hoccurs
  rw [constants_getElem? huser] at ha
  obtain ⟨x, hx, rfl⟩ := Option.map_eq_some_iff.1 ha
  refine ⟨huser, x, hx, ?_⟩
  rcases Nat.lt_or_ge used imported.length with hlt | hge
  · exact .inl hlt
  · rw [constants_getElem? hge] at hsecond
    obtain ⟨other, hother, rfl⟩ := Option.map_eq_some_iff.1 hsecond
    have hmem := hordered.perm.subset (mem_of_getElem? hx)
    have hothers := hordered.perm.subset (mem_of_getElem? hother)
    -- The side channels list the key of the reference among the dependencies.
    obtain ⟨helper, hexact⟩ := hchannels x hmem
    obtain ⟨listed, hlisted, hsame⟩ := hexact.listed name hoccurs
    refine .inr ⟨other, hother, hge, (hright x hmem).mem_uses.2 ⟨listed, hlisted, ?_⟩⟩
    rw [hsame, hn, (hright other hothers).key]

omit himported hright hchannels in
include hnodup in
/-- The definitions at two places have different keys. -/
theorem place_eq {a b : Nat} {x other : Keyed} (ha : (ordered ++ left)[a]? = some x)
    (hsecond : (ordered ++ left)[b]? = some other) (hk : x.key = other.key) : a = b := by
  have hkeys : ((ordered ++ left).map Keyed.key).Nodup :=
    (hordered.perm.map Keyed.key).nodup_iff.2 hnodup
  have hlt : a < ((ordered ++ left).map Keyed.key).length := by
    rw [length_map]
    exact (List.getElem?_eq_some_iff.1 ha).1
  refine (getElem?_inj hlt hkeys).1 ?_
  rw [getElem?_map, getElem?_map, ha, hsecond, Option.map_some, Option.map_some, hk]

include hnodup

/-- Before the definitions that are left over, references to others lead back. -/
theorem refers_back (huser : user < imported.length + ordered.length)
    (h : RefersToOther (constants imported ordered left) user used) : used < user := by
  obtain ⟨hge, x, hx, hcases⟩ := refers_cases himported hright hchannels hordered h.1
  rcases hcases with hplaceholder | ⟨other, hother, hused, hk⟩
  · omega
  · have hplace : ordered[user - imported.length]? = some x := by
      rwa [getElem?_append_left (by omega)] at hx
    rcases hordered.ready _ x hplace other.key hk with htaken | hbefore | hundefined | hself
    · cases htaken
    · -- The key was taken before, at the only place where it is defined.
      obtain ⟨earlier, hmem, hsame⟩ := mem_map.1 hbefore
      obtain ⟨place, hlt, hearlier⟩ := mem_take_iff_getElem.1 hmem
      have hf : (ordered ++ left)[place]? = some earlier := by
        rw [getElem?_append_left (by omega), ← hearlier, getElem?_eq_getElem]
      have heq := place_eq hnodup hordered hf hother hsame
      omega
    · have hdefined := hordered.perm.subset (mem_of_getElem? hother)
      exact (hundefined (mem_map_of_mem hdefined)).elim
    · have heq := place_eq hnodup hordered hother hx hself
      exact (h.2 (by omega)).elim

omit himported hnodup in
/-- Every definition that is left over refers to another one that is. -/
theorem refers_stay (huser : imported.length + ordered.length ≤ user)
    (hlt : user < (constants imported ordered left).length) :
    ∃ used, RefersToOther (constants imported ordered left) user used ∧
      imported.length + ordered.length ≤ used ∧
      used < (constants imported ordered left).length := by
  have hlen : (constants imported ordered left).length =
      imported.length + (ordered.length + left.length) := by
    simp [constants]
  obtain ⟨x, hx⟩ : ∃ x, left[user - imported.length - ordered.length]? = some x :=
    ⟨_, getElem?_eq_getElem (by omega)⟩
  have hplace : (ordered ++ left)[user - imported.length]? = some x := by
    rw [getElem?_append_right (by omega), hx]
  have hmem := hordered.perm.subset (mem_of_getElem? hplace)
  obtain ⟨key, hk, hdefined, -, htaken, hself⟩ := hordered.waits x (mem_of_getElem? hx)
  -- What the item waits for is defined and was not taken, so it is left over too.
  obtain ⟨other, hother, rfl⟩ := mem_map.1 hdefined
  have hleft : other ∈ left := by
    rcases mem_append.1 (hordered.perm.mem_iff.2 hother) with hmem | hmem
    · exact (htaken (mem_map_of_mem hmem)).elim
    · exact hmem
  obtain ⟨place, hplaceLt, hf⟩ := getElem_of_mem hleft
  have hused : (ordered ++ left)[ordered.length + place]? = some other := by
    rw [getElem?_append_right (by omega), Nat.add_sub_cancel_left, getElem?_eq_getElem hplaceLt, hf]
  obtain ⟨name, hn, hsame⟩ := (hright x hmem).mem_uses.1 hk
  obtain ⟨helper, hexact⟩ := hchannels x hmem
  refine ⟨imported.length + (ordered.length + place), ⟨⟨x.compiled, other.compiled, name,
    ?_, ?_, hexact.occurs name hn, ?_⟩, ?_⟩, by omega, by omega⟩
  · rw [constants_getElem? (by omega), hplace, Option.map_some]
  · rw [constants_getElem? (by omega), Nat.add_sub_cancel_left, hused, Option.map_some]
  · rw [hsame, (hright other hother).key]
  · rintro rfl
    rw [Nat.add_sub_cancel_left, hused] at hplace
    exact hself (congrArg Keyed.key (Option.some.inj hplace))

/-- A constant stands before those that refer to it, except in the block at the end. -/
theorem constants_ordered :
    ∃ start, (∀ position < (constants imported ordered left).length, start ≤ position ↔
        Order.ReachesCycle (RefersToOther (constants imported ordered left)) position) ∧
      ∀ user used, Refers (constants imported ordered left) user used →
        used < user ∨ used = user ∨ start ≤ used ∧ start ≤ user := by
  refine ⟨imported.length + ordered.length, fun position hposition => ?_, fun user used h => ?_⟩
  · refine Order.final_block_iff ?_ ?_ hposition
    · exact fun user huser used h =>
        refers_back himported hright hchannels hnodup hordered huser h
    · exact fun user huser hlt => refers_stay hright hchannels hordered huser hlt
  · by_cases hsame : user = used
    · exact .inr (.inl hsame.symm)
    · rcases Nat.lt_or_ge user (imported.length + ordered.length) with hlt | hge
      · exact .inl (refers_back himported hright hchannels hnodup hordered hlt ⟨h, hsame⟩)
      · omega

end Positions

namespace Program

variable {p program : Program}

section Generation

variable {current : List String} {outputPath : Json}

/-- Declarations are compiled in order; those that are left out could not be compiled. -/
theorem each_inversion {declarations : List Declaration} {rejections : List Rejection}
    (h : (p.compileEach declarations).result = .ok (compiled, rejections)) :
    ∃ kept : List Declaration, kept.Sublist declarations ∧
      Forall₂ (fun decl constant =>
        (p.compileDeclaration decl).result = .ok constant) kept compiled ∧
      ∀ decl ∈ declarations,
        (∃ constant ∈ compiled, (p.compileDeclaration decl).result = .ok constant) ∨
          ∃ error, (p.compileDeclaration decl).result = .error (.compile error) := by
  induction declarations generalizing compiled rejections with
  | nil =>
    cases h
    exact ⟨[], .slnil, .nil, by simp⟩
  | cons a rest ih =>
    unfold compileEach at h
    dsimp only at h
    split at h
    · rename_i error herror
      obtain ⟨done, -, h⟩ := bind_ok_iff.1 h
      obtain ⟨⟨others, rejected⟩, hothers, h⟩ := bind_ok_iff.1 h
      cases h
      obtain ⟨kept, hsub, hcomp, hleft⟩ := ih hothers
      refine ⟨kept, hsub.cons a, hcomp, fun decl hdecl => ?_⟩
      rcases mem_cons.1 hdecl with rfl | hr
      · exact .inr ⟨error, herror⟩
      · exact hleft decl hr
    · obtain ⟨constant, hc, h⟩ := bind_ok_iff.1 h
      obtain ⟨⟨others, rejected⟩, hothers, h⟩ := bind_ok_iff.1 h
      cases h
      obtain ⟨kept, hsub, hcomp, hleft⟩ := ih hothers
      refine ⟨a :: kept, hsub.cons_cons a, .cons hc hcomp, ?_⟩
      intro decl hdecl
      rcases mem_cons.1 hdecl with rfl | hr
      · exact .inl ⟨constant, mem_cons_self, hc⟩
      · exact (hleft decl hr).imp_left fun ⟨found, hf, hres⟩ => ⟨found, mem_cons_of_mem _ hf, hres⟩

/-- Every compiled declaration comes of a declaration. -/
theorem compiled_of_each {declarations : List Declaration} {rejections : List Rejection}
    (h : (p.compileEach declarations).result = .ok (compiled, rejections)) :
    ∀ constant ∈ compiled, ∃ decl ∈ declarations,
      (p.compileDeclaration decl).result = .ok constant := by
  obtain ⟨kept, hsub, hkept, -⟩ := each_inversion h
  intro constant hc
  obtain ⟨decl, hdecl, hres⟩ := exists_of_forall₂ hkept constant hc
  exact ⟨decl, hsub.subset hdecl, hres⟩

/-- A placeholder refers to nothing. -/
theorem placeholder_plain {imported : List Compiled} (h : p.placeholders compiled = .ok imported) :
    ∀ placeholder ∈ imported, ∀ name, ¬Schema.Occurs (.reference name) placeholder.schema := by
  obtain ⟨used, -, h⟩ := bind_eq_ok_iff.1 h
  obtain ⟨all, hall, h⟩ := bind_eq_ok_iff.1 h
  intro placeholder hplaceholder name hoccurs
  obtain ⟨source, -, hsource⟩ := exists_of_mapM hall placeholder
    ((filterM_sublist h).subset hplaceholder)
  obtain ⟨schemaName, -, hsource⟩ := bind_eq_ok_iff.1 hsource
  cases hsource
  have hbears : (Schema.call "any" []).Bears (.reference name) := hoccurs
  simp at hbears

/-- The definition of a constant has its name and the text of its schema. -/
theorem is_definition_of {z : String} {exported : Bool} {constant : Compiled}
    {definition : Definition} (h : Program.definition z exported constant = .ok definition) :
    IsDefinitionOf z constant definition := by
  obtain ⟨expression, hexpression, h⟩ := bind_eq_ok_iff.1 h
  cases h
  exact ⟨rfl, hexpression⟩

/-- A module imports the enumerations among its declarations, and defines its placeholders and then
its declarations, in order. -/
theorem module_inversion {ordered : List Compiled} {module : ModuleText}
    (h : p.moduleText current outputPath compiled ordered = .ok module) :
    ∃ imported, p.placeholders compiled = .ok imported ∧
      module.enumImports = (ordered.filter Compiled.isEnum).map Compiled.name ∧
      Forall₂ (IsDefinitionOf module.z) (imported ++ ordered) module.definitions := by
  obtain ⟨imported, himported, h⟩ := bind_eq_ok_iff.1 h
  refine ⟨imported, lift_eq_ok_iff.1 himported, ?_⟩
  -- Where enumerations are imported from makes no difference to what is imported and defined.
  dsimp only at h
  split at h
  all_goals
    obtain ⟨typesPath, -, h⟩ := bind_eq_ok_iff.1 h
    obtain ⟨helperChain, -, h⟩ := bind_eq_ok_iff.1 h
    obtain ⟨placeholders, hplaceholders, h⟩ := bind_eq_ok_iff.1 h
    obtain ⟨ss, hschemas, h⟩ := bind_eq_ok_iff.1 h
    cases h
    refine ⟨rfl, rel_append ?_ ?_⟩
    · exact (mapM_eq_ok_iff.1 hplaceholders).imp fun constant definition => is_definition_of
    · refine (mapM_eq_ok_iff.1 hschemas).imp fun constant definition hdefinition => ?_
      obtain ⟨exported, -, hdefinition⟩ := bind_eq_ok_iff.1 hdefinition
      exact is_definition_of hdefinition

theorem module_definitions {ordered : List Compiled} {module : ModuleText}
    (h : p.moduleText current outputPath compiled ordered = .ok module) :
    ∃ imported, p.placeholders compiled = .ok imported ∧
      Forall₂ (IsDefinitionOf module.z) (imported ++ ordered) module.definitions := by
  obtain ⟨imported, himported, -, hdefinitions⟩ := module_inversion h
  exact ⟨imported, himported, hdefinitions⟩

/-- The constants of a module that is generated, and where they come from. -/
theorem generate_inversion {generation : Generation}
    (h : (p.generate current outputPath).result = .ok generation) :
    ∃ declarations ordered cycles module,
      (p.compileEach declarations).result = .ok (generation.compiled, generation.rejections) ∧
      orderCompiled generation.compiled = .ok (ordered, cycles) ∧
      p.moduleText current outputPath generation.compiled ordered = .ok module ∧
      generation.code = module.text := by
  obtain ⟨⟨compiled, rejections⟩, hcomp, h⟩ := bind_ok_iff.1 h
  obtain ⟨declarations, -, hcomp⟩ := bind_ok_iff.1 hcomp
  obtain ⟨⟨ordered, cycles⟩, hordered, h⟩ := bind_ok_iff.1 h
  obtain ⟨reported, -, h⟩ := bind_ok_iff.1 h
  obtain ⟨module, hmodule, h⟩ := bind_ok_iff.1 h
  obtain ⟨done, -, h⟩ := bind_ok_iff.1 h
  cases h
  exact ⟨declarations, ordered, cycles, module, hcomp, lift_ok_iff.1 hordered, hmodule, rfl⟩

/-- Definition before use: the code that is generated is the text of a module that defines the
placeholders of imported names and then the compiled declarations. When the compiled declarations
have different names, there is a block at the end of the module that holds just the constants from
which a cycle of references to others can be reached, and a constant that another one refers to
stands before it, is itself, or stands with it in this block. -/
theorem definition_before_use {current : List String} {outputPath : Json} {generation : Generation}
    (h : (program.generate current outputPath).result = .ok generation) :
    ∃ (imported ordered : List Compiled) (cycles : List (List Key)) (module : ModuleText),
      program.placeholders generation.compiled = .ok imported ∧
      orderCompiled generation.compiled = .ok (ordered, cycles) ∧
      generation.code = module.text ∧
      List.Forall₂ (IsDefinitionOf module.z) (imported ++ ordered) module.definitions ∧
      ((generation.compiled.map fun constant => constant.schemaName.key?).Nodup →
        ∃ start, (∀ position < (imported ++ ordered).length, start ≤ position ↔
            Order.ReachesCycle (RefersToOther (imported ++ ordered)) position) ∧
          ∀ i j, Refers (imported ++ ordered) j i → i < j ∨ i = j ∨ start ≤ i ∧ start ≤ j) := by
  obtain ⟨declarations, ordered, cycles, module, hcompiled, hordered, hmodule, hcode⟩ :=
    generate_inversion h
  obtain ⟨imported, himported, hdefinitions⟩ := module_definitions hmodule
  refine ⟨imported, ordered, cycles, module, himported, hordered, hcode, hdefinitions, ?_⟩
  intro hnodup
  obtain ⟨items, hitems, hordered⟩ := bind_eq_ok_iff.1 hordered
  cases hordered
  obtain ⟨hmap, hright⟩ := keyed_of_mapM hitems
  have hkeys : (items.map Keyed.key).Nodup := by
    rw [← hmap, List.map_map] at hnodup
    have hsome : items.map ((fun constant => constant.schemaName.key?) ∘ Keyed.compiled) =
        (items.map Keyed.key).map some := by
      rw [List.map_map]
      exact List.map_congr_left fun item hitem => (hright item hitem).key
    rw [hsome] at hnodup
    exact hnodup.of_map some
  have hchannels (item : Keyed) (hitem : item ∈ items) :
      ∃ helper, SideChannels item.compiled.schema item.compiled.dependencies helper := by
    have hmem : item.compiled ∈ generation.compiled := hmap ▸ List.mem_map_of_mem hitem
    obtain ⟨declaration, -, hdeclaration⟩ := compiled_of_each hcompiled _ hmem
    exact ⟨_, side_channels_of_declaration hdeclaration⟩
  obtain ⟨start, hblock, hbefore⟩ :=
    constants_ordered (placeholder_plain himported) hright hchannels
    hkeys (Order.rounds_ordered (Nat.le_refl _) hkeys fun _ _ => List.not_mem_nil)
  exact ⟨start, hblock, fun i j => hbefore j i⟩

/-- The aliases `type Dogs = Dog[]` and `type Dog = string`, with the names of types for schemas. -/
def dogs : Program where
  unit := ⟨.null, [
      .typeAlias ⟨.str "Dogs", [], true, [], .array (.reference (.str "Dog") [])⟩,
      .typeAlias ⟨.str "Dog", [], true, [], .keyword .string⟩], []⟩
  settings := { Settings.default with schemaName := some id }

/-- The schema of one dog is defined before the schema of many. -/
theorem dog_before_dogs :
    ∃ generation ordered, (dogs.generate [] .null).result = .ok generation ∧
      orderCompiled generation.compiled = .ok (ordered, []) ∧
      ordered.map Compiled.schemaName = [.str "Dog", .str "Dogs"] ∧
      ∃ start, ∀ i j, Refers ordered j i → i < j ∨ i = j ∨ start ≤ i ∧ start ≤ j := by
  refine ⟨_, _, rfl, rfl, rfl, ?_⟩
  obtain ⟨imported, ordered, cycles, module, himported, hordered, -, -, hblock⟩ :=
    definition_before_use (rfl : (dogs.generate [] .null).result = .ok _)
  cases himported
  cases hordered
  obtain ⟨start, -, hstart⟩ := hblock (by decide)
  exact ⟨start, hstart⟩

end Generation

end Program

end Schemata
