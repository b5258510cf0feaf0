import Schemata.Proofs.Lookup
import Schemata.Proofs.Stepwise

/-!
# Outcomes of compilation

A computation `Settles` when it gives a value or is rejected with an allowed error, and uses only
schemas whose names are texts. In a well-typed program what a plan does by itself settles:
refinement by tags, unions, projections, inherited properties, indexed accesses and templates.
-/

namespace Schemata

open List
open Traced (bind_ok_iff lift_ok lift_ok_iff)

variable {index type : TypeExpr} {env : Environment} {fields : List (String × Json)} {name : Name}
  {arms : List TypeExpr} {spans : List (TemplateSpan TypeExpr)}

/-- The failure is a rejection with an allowed error. -/
def Failure.IsAllowed (allowed : CompileError → Prop) (failure : Failure) : Prop :=
  ∃ error, failure = .compile error ∧ allowed error

/-- A value that is there is handed on. -/
theorem lift_ok_bind {α β : Type} (v : α) (next : α → Except Failure β) :
    ((liftM (Except.ok v : Except Fault α) : Except Failure α) >>= next) = next v := rfl

/-- The computation gives a value or is rejected with an allowed error, and the names of the schemas
that it uses are texts. -/
structure Traced.Settles {α : Type} (allowed : CompileError → Prop) (computation : Compilation α) :
    Prop where
  failure : ∀ failure, computation.result = .error failure → failure.IsAllowed allowed
  names : ∀ name, .dependency name ∈ computation.trace → name.IsText

section Settles

variable {α β : Type} {allowed : CompileError → Prop}

theorem settles_pure (v : α) : (Pure.pure v : Compilation α).Settles allowed :=
  ⟨fun _ h => (nomatch h), fun _ h => nomatch h⟩

/-- A value that is there settles. -/
theorem settles_lift {v : Except Fault α} (h : ∃ found, v = .ok found) :
    (liftM v : Compilation α).Settles allowed := by
  obtain ⟨found, rfl⟩ := h
  exact settles_pure found

/-- One computation after another settles if both do. -/
theorem settles_bind {a : Compilation α} {next : α → Compilation β} (ha : a.Settles allowed)
    (hnext : ∀ v, a.result = .ok v → (next v).Settles allowed) : (a >>= next).Settles allowed := by
  obtain ⟨trace, result⟩ := a
  cases result with
  | error failure =>
    refine ⟨fun other hother => ?_, fun _ h => ha.names _ h⟩
    cases Except.error.inj hother
    exact ha.failure failure rfl
  | ok v =>
    have hsecond := hnext v rfl
    refine ⟨hsecond.failure, fun name hn => ?_⟩
    rcases mem_append.1 hn with h | h
    · exact ha.names name h
    · exact hsecond.names name h

/-- A value that is there is handed on. -/
theorem settles_lift_bind {v : Except Fault α} {next : α → Compilation β}
    (h : ∃ found, v = .ok found) (hnext : ∀ found, v = .ok found →
      (next found).Settles allowed) : ((liftM v : Compilation α) >>= next).Settles allowed :=
  settles_bind (settles_lift h) fun found hf =>
    hnext found (lift_ok_iff.1 hf)

theorem settles_reject {error : CompileError} (h : allowed error) :
    (Compilation.reject error : Compilation α).Settles allowed :=
  ⟨fun _ hfailure => ⟨error, (Except.error.inj hfailure).symm, h⟩, fun _ h => nomatch h⟩

/-- A result that is a value or a rejection settles. -/
theorem settles_result {result : Except Failure α}
    (h : ∀ failure, result = .error failure → failure.IsAllowed allowed) :
    (liftM result : Compilation α).Settles allowed := ⟨h, fun _ hn => nomatch hn⟩

theorem settles_warn (warning : Warning) : (Compilation.warn warning).Settles allowed :=
  ⟨fun _ h => (nomatch h), fun _ h => nomatch mem_singleton.1 h⟩

theorem settles_note (notice : Notice) : (Compilation.note notice).Settles allowed :=
  ⟨fun _ h => (nomatch h), fun _ h => nomatch mem_singleton.1 h⟩

theorem settles_helper : (Traced.emit .helper : Compilation Unit).Settles allowed :=
  ⟨fun _ h => (nomatch h), fun _ h => nomatch mem_singleton.1 h⟩

/-- What settles one after the other settles. -/
def settling (allowed : CompileError → Prop) : Sequential where
  holds := Traced.Settles allowed
  holds_pure := settles_pure
  holds_bind := settles_bind

end Settles

variable {allowed : CompileError → Prop}

namespace Refinement

variable {key : String}

/-- A field that is there is one of the fields. -/
theorem mem_of_field {v : Json} (h : Json.field? key fields = some v) : (key, v) ∈ fields := by
  induction fields with
  | nil => cases h
  | cons field rest ih =>
    obtain ⟨name, other⟩ := field
    simp only [Json.field?] at h
    split at h
    · rename_i heq
      cases h
      exact heq ▸ mem_cons_self
    · exact mem_cons_of_mem _ (ih h)

/-- A key that an object holds has a field. -/
theorem field_of_any (h : fields.any (fun field => field.1 = key) = true) :
    ∃ v, Json.field? key fields = some v := by
  induction fields with
  | nil => cases h
  | cons field rest ih =>
    obtain ⟨name, other⟩ := field
    by_cases heq : name = key
    · exact ⟨other, by simp [Json.field?, heq]⟩
    · simp only [Json.field?, heq, if_false]
      exact ih (by simpa [heq] using h)

/-- Custom formats that are patterns or objects can be used. -/
theorem custom_format_ok (name : String)
    (h : ∀ field ∈ fields, field.2.IsText ∨ ∃ inner, field.2 = .obj inner) :
    ∃ format, customFormat? (.obj fields) name = .ok format := by
  by_cases hholds : fields.any (fun field => field.1 = name) = true
  · obtain ⟨v, hv⟩ := field_of_any hholds
    simp only [customFormat?, Json.holds, hholds, Json.get?, hv, bind, Except.bind, if_true]
    rcases h _ (mem_of_field hv) with ⟨text, htext⟩ | ⟨inner, hi⟩
    · cases htext
      exact ⟨_, rfl⟩
    · cases hi
      exact ⟨_, rfl⟩
  · refine ⟨none, ?_⟩
    simp only [customFormat?, Json.holds, hholds, bind, Except.bind, pure, Except.pure]
    rfl

/-- The modifiers that a context calls for can be found. -/
theorem modifiers_settles (ctx : Context)
    (h : ∀ field ∈ fields, field.2.IsText ∨ ∃ inner, field.2 = .obj inner) :
    (ctx.modifiers (.obj fields)).Settles allowed := by
  exact modifiers_keep (Traced.Settles allowed ·) settles_pure settles_note settles_bind
    (fun name => settles_lift (custom_format_ok name h)) ctx

end Refinement

namespace Program

variable {p : Program}

section Leaves

variable (hprogram : p.WellTyped)

include hprogram

theorem modifiers_settles (ctx : Context) : (p.modifiers ctx).Settles allowed := by
  obtain ⟨fields, hfields, h⟩ := hprogram.settings.formats
  unfold modifiers
  rw [hfields]
  exact settles_lift_bind ⟨_, rfl⟩ fun found hf => by
    cases hf
    exact Refinement.modifiers_settles ctx h

/-- A schema can be given the modifiers that a context calls for. -/
theorem finish_settles (ctx : Context) (s : Schema) : (p.finish ctx s).Settles allowed :=
  settles_bind (modifiers_settles hprogram ctx) fun _ _ => settles_pure _

/-- A type without a schema can be reported. -/
theorem unsupported_settles {t : Option TypeExpr} (ctx : Context)
    (ht : ∀ found ∈ t, found.WellTyped) : (p.unsupported t ctx).Settles allowed := by
  have htext := (TypeExpr.option_text_shows fun found _ => found.text_shown).exists_iff.2
    fun found hf => (ht found hf).has_text
  refine settles_lift_bind htext fun _ _ => ?_
  exact settles_bind (settles_warn _) fun _ _ => finish_settles hprogram ctx _

/-- The schema of a declared name can be used, and its name is a text. -/
theorem reference_settles (hn : name.IsText) : (p.reference name).Settles allowed := by
  obtain ⟨naming, hnaming, htext⟩ := hprogram.settings.naming
  obtain ⟨text, rfl⟩ := hn
  have hs : p.settings.nameOf (.str text) = .ok (naming (.str text)) := by
    simp [Settings.nameOf, hnaming]
  unfold reference
  rw [hs, lift_ok, pure_bind]
  refine settles_bind ⟨fun _ h => (nomatch h), fun name hn => ?_⟩ fun _ _ => settles_pure _
  cases mem_singleton.1 hn
  exact htext text

/-- Whether a text is the name of a type that may be absent can be told. -/
theorem is_maybe_name_ok (hn : name.IsText) :
    ∃ isMaybe, p.settings.isMaybeName name = .ok isMaybe := by
  obtain ⟨maybe, hmaybe⟩ := hprogram.settings.maybe
  obtain ⟨key, hk⟩ := hn.key_ok
  simp [Settings.isMaybeName, hmaybe, hk, bind, Except.bind, pure, Except.pure]

end Leaves

/-- A well-typed type has a well-typed substitute. -/
theorem substitute_ok (henv : env.WellTyped) (ht : type.WellTyped) :
    ∃ found, env.substitute type = .ok found ∧ found.WellTyped := by
  obtain ⟨found, inner, hf, htyped, -⟩ := henv.resolve_ok ht
  exact ⟨found, by simp [Environment.substitute, hf, bind, Except.bind, pure, Except.pure], htyped⟩

/-- Whether arms can be told apart by a field can be told. -/
theorem discriminated_settles (henv : env.WellTyped)
    (field : String) (arms : List TypeExpr) (harms : ∀ arm ∈ arms, arm.WellTyped) :
    (discriminated env field arms).Settles allowed := by
  induction arms with
  | nil => exact settles_pure true
  | cons arm rest ih =>
    obtain ⟨found, hf, htyped⟩ := substitute_ok henv (harms arm mem_cons_self)
    have hr := ih (forall_mem_cons.1 harms).2
    obtain ⟨text, htext⟩ := htyped.unwrap.text_ok
    unfold discriminated
    rw [hf, lift_ok, pure_bind]
    dsimp only
    split
    · exact hr
    · split
      · exact hr
      · refine settles_lift_bind ⟨_, htext⟩ fun _ _ => ?_
        exact settles_bind (settles_warn _) fun _ _ => settles_pure false
    · refine settles_lift_bind ⟨_, htext⟩ fun _ _ => ?_
      exact settles_bind (settles_warn _) fun _ _ => settles_pure false

/-- The schema of a union can be made. -/
theorem union_settles (hp : p.WellTyped) (henv : env.WellTyped)
    (harms : ∀ arm ∈ arms, arm.WellTyped) (ss : List Schema) (ctx : Context) :
    (p.unionSchema env arms ss ctx).Settles allowed := by
  unfold unionSchema
  refine settles_bind (modifiers_settles hp ctx) fun mods _ => ?_
  dsimp only
  split
  · refine settles_bind (discriminated_settles henv _ arms harms) fun told _ => ?_
    cases told <;> exact settles_pure _
  · exact settles_pure _

section Projections

variable (hprojection : ∀ projection kind, allowed (.unsupportedProjection projection kind))
  {read : Option Environment} {proj : String} {failure : Failure} {keys : Option TypeExpr}

/-- A well-typed type can be followed where there is an environment. -/
theorem resolve?_ok (hread : ∀ found ∈ read, found.WellTyped) (ht : type.WellTyped) :
    ∃ found inner, Environment.resolve? read type = .ok (found, inner) ∧
      found.WellTyped ∧ ∀ read ∈ inner, read.WellTyped := by
  cases read with
  | none => exact ⟨type, none, rfl, ht, hread⟩
  | some =>
    obtain ⟨found, inner, hf, htyped, hi⟩ := (hread _ rfl).resolve_ok ht
    refine ⟨found, some inner, ?_, htyped, fun _ h => Option.mem_some.1 h ▸ hi⟩
    simp [Environment.resolve?, hf, bind, Except.bind, pure, Except.pure]

include hprojection

/-- Keys are found or the projection is rejected. -/
theorem literal_keys_allowed (hread : ∀ found ∈ read, found.WellTyped)
    (harms : ∀ arm ∈ arms, arm.WellTyped) (h : literalKeys proj read arms = .error failure) :
    failure.IsAllowed allowed := by
  induction arms generalizing failure with
  | nil => cases h
  | cons arm rest ih =>
    obtain ⟨found, inner, hf, -, -⟩ := resolve?_ok hread (harms arm mem_cons_self).unwrap
    unfold literalKeys at h
    rw [hf, lift_ok_bind] at h
    dsimp only at h
    split at h
    · cases hr : literalKeys proj read rest with
      | error other =>
        rw [hr] at h
        cases h
        exact ih (forall_mem_cons.1 harms).2 hr
      | ok =>
        rw [hr] at h
        cases h
    · cases h
      exact ⟨_, rfl, hprojection _ _⟩

/-- The keys of a projection are found or the projection is rejected. -/
theorem projection_keys_allowed (hread : ∀ found ∈ read, found.WellTyped)
    (hkeys : ∀ type ∈ keys, type.WellTyped) (h : projectionKeys proj keys read = .error failure) :
    failure.IsAllowed allowed := by
  cases keys with
  | none =>
    cases h
    exact ⟨_, rfl, hprojection _ _⟩
  | some type =>
    obtain ⟨found, inner, hf, htyped, hi⟩ := resolve?_ok hread (hkeys type rfl).unwrap
    unfold projectionKeys at h
    dsimp only at h
    rw [hf, lift_ok_bind] at h
    dsimp only at h
    split at h
    · exact literal_keys_allowed hprojection hi (fun arm harm => htyped.part harm) h
    · refine literal_keys_allowed hprojection hi (fun arm harm => ?_) h
      exact mem_singleton.1 harm ▸ htyped

/-- A projection is made or rejected. -/
theorem project_settles (target : Schema) (proj : String) (hread : ∀ found ∈ read, found.WellTyped)
    (hkeys : ∀ type ∈ keys, type.WellTyped) :
    (liftM (project target proj keys read) : Compilation Schema).Settles allowed := by
  refine settles_result fun failure h => ?_
  rcases bind_eq_error_iff.1 h with hnames | ⟨names, -, h⟩
  · exact projection_keys_allowed hprojection hread hkeys hnames
  · cases h

end Projections

section Inheritance

variable (hprogram : p.WellTyped)

include hprogram

/-- An extended interface is taken over, unless a projection of it is rejected. -/
theorem inherited_settles {c : Heritage} (hn : c.name.IsText)
    (hkeys : ∀ keys ∈ c.keys, keys.WellTyped)
    (hproj : c.projection ≠ none → ∀ proj kind, allowed (.unsupportedProjection proj kind)) :
    (p.inherited c).Settles allowed := by
  unfold inherited
  refine settles_bind (reference_settles hprogram hn) fun s _ => ?_
  cases hsome : c.projection with
  | none => exact settles_pure _
  | some =>
    have hallowed := hproj (by simp [hsome])
    exact project_settles hallowed s _ (fun _ h => nomatch h) hkeys

theorem extend_settles {heritage : List Heritage}
    (h : ∀ c ∈ heritage, c.name.IsText ∧ ∀ keys ∈ c.keys, keys.WellTyped)
    (hproj : ∀ c ∈ heritage, c.projection ≠ none →
      ∀ proj kind, allowed (.unsupportedProjection proj kind))
    (chain : Schema) : (p.extend chain heritage).Settles allowed := by
  induction heritage generalizing chain with
  | nil => exact settles_pure chain
  | cons c rest ih =>
    obtain ⟨hn, hkeys⟩ := h c mem_cons_self
    have hc := hproj c mem_cons_self
    refine settles_bind (inherited_settles hprogram hn hkeys hc) fun s _ => ?_
    exact ih (forall_mem_cons.1 h).2 (forall_mem_cons.1 hproj).2 _

/-- The properties of extended interfaces are taken over or a projection of them is rejected. There
is always a schema, since there is an extended interface. -/
theorem extension_chain_settles {c : Heritage} {rest : List Heritage}
    (h : ∀ other ∈ c :: rest, other.name.IsText ∧ ∀ keys ∈ other.keys, keys.WellTyped)
    (hproj : ∀ other ∈ c :: rest, other.projection ≠ none →
      ∀ proj kind, allowed (.unsupportedProjection proj kind))
    (es : List (String × Schema)) {next : Option Schema → Compilation Schema}
    (hnext : ∀ s, (next (some s)).Settles allowed) :
    (p.extensionChain (c :: rest) (some (.object es)) >>= next).Settles allowed := by
  obtain ⟨hn, hkeys⟩ := h c mem_cons_self
  have hc := hproj c mem_cons_self
  unfold extensionChain inheritedChain
  simp only [bind_assoc, pure_bind, Schema.base]
  refine settles_bind (inherited_settles hprogram hn hkeys hc) fun s _ => ?_
  have hchain := extend_settles hprogram (forall_mem_cons.1 h).2 (forall_mem_cons.1 hproj).2 s
  refine settles_bind hchain fun chain _ => ?_
  cases es <;> exact hnext _

end Inheritance

section Templates

variable {harvested : List (Values × Json)}

/-- The literal arms of a union can be found. -/
theorem harvest_union_ok (henv : env.WellTyped) (harms : ∀ arm ∈ arms, arm.WellTyped) :
    ∃ values, harvestUnion env arms = .ok values := by
  induction arms with
  | nil => exact ⟨_, rfl⟩
  | cons arm rest ih =>
    obtain ⟨found, hf, -⟩ := substitute_ok henv (harms arm mem_cons_self)
    obtain ⟨values, hvalues⟩ := ih (forall_mem_cons.1 harms).2
    simp only [harvestUnion, hf, hvalues, bind, Except.bind, pure, Except.pure]
    split <;> exact ⟨_, rfl⟩

theorem harvest_members_settles (enumName : Name) (ms : List Enumerator) :
    (harvestMembers enumName ms).Settles allowed := by
  induction ms with
  | nil => exact settles_pure _
  | cons m rest ih =>
    unfold harvestMembers
    split
    · refine settles_bind (settles_warn _) fun _ _ => ?_
      exact settles_bind ih fun _ _ => settles_pure _
    · exact settles_bind ih fun _ _ => settles_pure _

/-- Whether a text is declared can be told. -/
theorem find_ok (hn : name.IsText) : ∃ found, p.find name = .ok found := by
  obtain ⟨key, hk⟩ := hn.key_ok
  exact ⟨_, p.find_of_key hk⟩

/-- The types in the declaration of a name are well-typed. -/
theorem found_well_typed (hp : p.WellTyped) {decl : Declaration}
    (h : p.find name = .ok (some decl)) : decl.WellTyped :=
  hp.declarations decl (mem_of_find h)

theorem harvest_named_settles (hp : p.WellTyped) (hn : name.IsText) :
    (p.harvestNamed name).Settles allowed := by
  have hunknown : (do
      Compilation.warn (.unknownSpan name)
      return (none : Option Values)).Settles allowed :=
    settles_bind (settles_warn _) fun _ _ => settles_pure _
  unfold harvestNamed
  refine settles_lift_bind (find_ok hn) fun found hf => ?_
  split
  · rename_i type
    have htyped : type.unwrap.WellTyped :=
      ((found_well_typed hp hf).body _ (mem_singleton.2 rfl)).unwrap
    split
    · rename_i arms hun
      rw [hun] at htyped
      have hempty := Environment.no_bindings_well_typed 0
      refine settles_lift_bind (harvest_union_ok hempty fun arm harm => htyped.part harm) ?_
      exact fun _ _ => settles_pure _
    · exact hunknown
    · exact settles_pure _
    · exact hunknown
  · exact settles_bind (harvest_members_settles _ _) fun _ _ => settles_pure _
  · exact hunknown

theorem harvest_settles (hp : p.WellTyped) (henv : env.WellTyped) {t : TypeExpr}
    (ht : t.WellTyped) : (p.harvest env t).Settles allowed := by
  obtain ⟨found, inner, hf, htyped, hi⟩ := henv.resolve_ok ht
  have hun := htyped.unwrap
  unfold harvest
  rw [hf, lift_ok, pure_bind]
  dsimp only
  split
  · exact settles_pure _
  · rename_i arms harms
    rw [harms] at hun
    refine settles_lift_bind (harvest_union_ok hi fun arm harm => hun.part harm) ?_
    exact fun _ _ => settles_pure _
  · rename_i enumName memberName hm
    rw [hm] at hun
    obtain ⟨key, hk⟩ := hun.own.1.key_ok
    have htext : ∃ text, p.enumeratorText? enumName memberName = .ok text := by
      unfold enumeratorText?
      rw [p.find_of_key hk]
      simp only [bind, Except.bind, pure, Except.pure]
      split <;> exact ⟨_, rfl⟩
    refine settles_lift_bind htext fun text _ => ?_
    cases text with
    | some => exact settles_pure _
    | none => exact settles_bind (settles_warn _) fun _ _ => settles_pure _
  · rename_i name hn
    rw [hn] at hun
    exact harvest_named_settles hp hun.own
  · obtain ⟨text, htext⟩ := hun.text_ok
    refine settles_lift_bind ⟨_, htext⟩ fun _ _ => ?_
    exact settles_bind (settles_warn _) fun _ _ => settles_pure _

theorem harvest_spans_settles (hp : p.WellTyped) (henv : env.WellTyped)
    (hts : ∀ span ∈ spans, span.type.WellTyped) : (p.harvestSpans env spans).Settles allowed := by
  induction spans with
  | nil => exact settles_pure _
  | cons span rest ih =>
    have hspan := hts span mem_cons_self
    refine settles_bind (harvest_settles hp henv hspan) fun _ _ => ?_
    refine settles_bind (ih (forall_mem_cons.1 hts).2) ?_
    exact fun _ _ => settles_pure _

/-- The spans that are harvested keep the texts after them. -/
theorem harvested_texts (h : (p.harvestSpans env spans).result = .ok (some harvested)) :
    harvested.map (·.2) = spans.map TemplateSpan.literal := by
  induction spans generalizing harvested with
  | nil =>
    cases h
    rfl
  | cons span rest ih =>
    unfold harvestSpans at h
    obtain ⟨values, -, h⟩ := bind_ok_iff.1 h
    obtain ⟨others, hothers, h⟩ := bind_ok_iff.1 h
    cases values with
    | none => cases h
    | some =>
      cases others with
      | none => cases h
      | some =>
        cases h
        simp [ih hothers]

/-- Texts can be put together. -/
theorem products_ok (h : ∀ x ∈ harvested, x.2.IsText) :
    ∃ texts, products harvested = .ok texts := by
  induction harvested with
  | nil => exact ⟨[""], rfl⟩
  | cons x rest ih =>
    obtain ⟨values, after⟩ := x
    obtain ⟨texts, htexts⟩ := ih (forall_mem_cons.1 h).2
    obtain ⟨text, htext⟩ := (h _ mem_cons_self).text_ok
    simp [products, htexts, htext, bind, Except.bind, pure, Except.pure]

/-- A template is expanded, or reported. -/
theorem expand_settles (hp : p.WellTyped) (henv : env.WellTyped) {head : Json}
    (ht : (TypeExpr.template head spans).WellTyped) :
    (p.expand env head spans).Settles allowed := by
  obtain ⟨text, htext⟩ := ht.text_ok
  have hts (span : TemplateSpan TypeExpr) (hspan : span ∈ spans) : span.type.WellTyped :=
    ht.part (mem_map.2 ⟨span, hspan, rfl⟩)
  have own := ht.own
  unfold expand
  refine settles_bind (harvest_spans_settles hp henv hts) fun found hf => ?_
  cases found with
  | none => exact settles_pure _
  | some harvested =>
    have hafter (x : Values × Json) (hx : x ∈ harvested) : x.2.IsText := by
      have hmem : x.2 ∈ harvested.map (·.2) := mem_map.2 ⟨x, hx, rfl⟩
      rw [harvested_texts hf] at hmem
      obtain ⟨span, hspan, heq⟩ := mem_map.1 hmem
      exact heq ▸ own.2 span hspan
    dsimp only
    split
    · refine settles_lift_bind ⟨_, htext⟩ fun _ _ => ?_
      exact settles_bind (settles_warn _) fun _ _ => settles_pure _
    · refine settles_lift_bind own.1.text_ok fun _ _ => ?_
      refine settles_lift_bind (products_ok hafter) fun _ _ => ?_
      exact settles_pure _

end Templates

end Program

/-- The types in a chain are well-typed, and its indices can be read. -/
inductive Chain.WellTyped : Chain → Prop where
  | root {type : TypeExpr} (htype : type.WellTyped) : WellTyped (.root type)
  | index {access : TypeExpr} {key object} (haccess : access.WellTyped)
      (hobject : WellTyped object) : WellTyped (.index access (.ok key) object)

/-- A well-typed index can be read. -/
theorem IndexKey.of_type_ok (henv : env.WellTyped) (hidx : index.WellTyped) :
    ∃ key, IndexKey.ofType (some env) index = .ok key := by
  obtain ⟨found, inner, hf, htyped, -⟩ := henv.resolve_ok hidx.unwrap
  obtain ⟨text, htext⟩ := htyped.text_ok
  simp only [IndexKey.ofType, Environment.resolve?, hf, bind, Except.bind, pure, Except.pure]
  split
  · exact ⟨_, rfl⟩
  · exact ⟨_, rfl⟩
  · exact ⟨_, rfl⟩
  · rw [htext]
    exact ⟨_, rfl⟩

/-- The chain of a well-typed type is well-typed. -/
theorem Environment.WellTyped.chain (henv : env.WellTyped)
    (ht : type.WellTyped) : (env.chain type).WellTyped := by
  induction henv generalizing type with
  | intro types environments ih =>
    rename_i env
    -- the inner induction is on the size of the type, for the objects of indices
    induction hsize : sizeOf type using Nat.strongRecOn generalizing type with
    | ind size ihsize =>
      subst hsize
      have hwell : env.WellTyped := .intro types environments
      have hun := ht.unwrap
      have hle := Environment.size_unwrap_le type
      rw [Environment.chain_unwrap]
      cases hf : type.unwrap with
      | indexed base index =>
        rw [hf] at hun hle
        have hbase := hun.part mem_cons_self
        obtain ⟨key, hk⟩ := IndexKey.of_type_ok hwell (hun.part (mem_cons_of_mem _ mem_cons_self))
        have hlt : sizeOf base < sizeOf type := by
          simp at hle
          omega
        have hobj := ihsize _ hlt hbase rfl
        obtain ⟨depth, bindings⟩ := env
        simp only [Environment.chain, Chain.build] at hobj ⊢
        rw [hk]
        exact .index hun hobj
      | reference name args =>
        rw [hf] at hun
        cases args with
        | nil =>
          cases hun with
          | intro own parts =>
            obtain ⟨key, hk⟩ := Json.IsText.key_ok own
            rw [env.chain_reference hk]
            cases hb : env.binding? key with
            | none => exact .root (.intro own parts)
            | some b =>
              have hmem := mem_of_find?_eq_some hb
              exact ih b hmem (types b hmem)
        | cons =>
          obtain ⟨depth, bindings⟩ := env
          exact .root hun
      | paren inner => exact absurd hf (type.unwrap_ne_paren inner)
      | _ =>
        rw [hf] at hun
        obtain ⟨depth, bindings⟩ := env
        exact .root hun

namespace Program

variable {p : Program}

section Search

variable {chain object : Chain}

/-- A search settles, and the type that it finds is well-typed. -/
structure SearchSettles (allowed : CompileError → Prop)
    (search : Compilation (Option TypeExpr)) : Prop where
  settles : search.Settles allowed
  typed : ∀ type, search.result = .ok (some type) → type.WellTyped

variable (hprojection : ∀ projection kind, allowed (.unsupportedProjection projection kind))

include hprojection

theorem hides_settles {c : Heritage} (key : Json) (hkeys : ∀ keys ∈ c.keys, keys.WellTyped) :
    (liftM (hides c key) : Compilation Bool).Settles allowed := by
  have hnone : ∀ found ∈ (none : Option Environment), found.WellTyped := fun _ h => nomatch h
  refine settles_result fun failure h => ?_
  unfold hides at h
  split at h
  · cases h
  · rcases bind_eq_error_iff.1 h with hnames | ⟨names, -, h⟩
    · exact projection_keys_allowed hprojection hnone hkeys hnames
    · cases h

omit hprojection in
theorem search_pure {found : Option TypeExpr} (hf : ∀ type ∈ found, type.WellTyped) :
    SearchSettles allowed (pure found) :=
  ⟨settles_pure _, fun type ht => hf type (Except.ok.inj ht)⟩

omit hprojection in
theorem search_none : SearchSettles allowed (pure none) := search_pure fun _ h => nomatch h

omit hprojection in
theorem search_after {α : Type} {before : Compilation α}
    {search : α → Compilation (Option TypeExpr)} (hbefore : before.Settles allowed)
    (hsearch : ∀ v, SearchSettles allowed (search v)) :
    SearchSettles allowed (before >>= search) := by
  refine ⟨settles_bind hbefore fun v _ => (hsearch v).settles, fun type ht => ?_⟩
  obtain ⟨v, -, ht⟩ := bind_ok_iff.1 ht
  exact (hsearch v).typed type ht

omit hprojection in
/-- A search may go on from what another search found. -/
theorem search_bind {a : Compilation (Option TypeExpr)}
    {next : Option TypeExpr → Compilation (Option TypeExpr)} (ha : SearchSettles allowed a)
    (hnext : ∀ found, (∀ type ∈ found, type.WellTyped) → SearchSettles allowed (next found)) :
    SearchSettles allowed (a >>= next) := by
  have htyped (found : Option TypeExpr) (hf : a.result = .ok found) :
      ∀ type ∈ found, type.WellTyped :=
    fun type ht => ha.typed type (Option.mem_def.1 ht ▸ hf)
  refine ⟨settles_bind ha.settles fun found hf => ?_, fun type ht => ?_⟩
  · exact (hnext found (htyped found hf)).settles
  · obtain ⟨found, hf, ht⟩ := bind_ok_iff.1 ht
    exact (hnext found (htyped found hf)).typed type ht

omit hprojection in
/-- A search that finds nothing may report it. -/
theorem search_missing (key : Json) (name : Name) :
    SearchSettles allowed (do
      Compilation.note (.memberNotFound key name)
      return none) := search_after (settles_note _) fun _ => search_none

/-- The search among extended interfaces settles, if the search from each of them does. -/
theorem search_heritage_settles {heritage : List Heritage} (key : Json)
    {search : Name → Compilation (Option TypeExpr)}
    (hher : ∀ c ∈ heritage, c.name.IsText ∧ ∀ keys ∈ c.keys, keys.WellTyped)
    (hsearch : ∀ name : Name, name.IsText → SearchSettles allowed (search name)) :
    SearchSettles allowed (searchHeritage key search heritage) := by
  induction heritage with
  | nil => exact search_none
  | cons c rest ih =>
    obtain ⟨hn, hkeys⟩ := hher c mem_cons_self
    have hr := ih (forall_mem_cons.1 hher).2
    unfold searchHeritage
    refine search_after (hides_settles hprojection key hkeys) fun hidden => ?_
    split
    · exact hr
    · refine search_bind (hsearch c.name hn) fun found hf => ?_
      cases found with
      | none => exact hr
      | some => exact search_pure hf

omit hprojection in
/-- The type of a member is one of the types of the members. -/
theorem member_type_mem {ms : List (Member TypeExpr)} {key : Json}
    (index : Option (IndexSignature TypeExpr))
    (h : (findMember? ms key).bind Member.type = some type) : type ∈ objectTypes ms index := by
  obtain ⟨m, hm, ht⟩ := Option.bind_eq_some_iff.1 h
  refine mem_append_left _ (mem_filterMap.2 ⟨m, ?_, ht⟩)
  exact mem_of_find?_eq_some hm

/-- The search for a member settles. -/
theorem member_within_settles (hp : p.WellTyped) (key : Json) (steps : Nat)
    (seen : List Key) {container : TypeExpr} (hcontainer : container.WellTyped) :
    SearchSettles allowed (p.memberTypeWithin key steps seen container) := by
  induction steps generalizing seen container with
  | zero => exact search_none
  | succ steps ih =>
    have hun := hcontainer.unwrap
    unfold memberTypeWithin
    split
    · rename_i ms index hobj
      rw [hobj] at hun
      exact search_pure fun type ht => hun.part (member_type_mem index ht)
    · rename_i name args href
      rw [href] at hun
      obtain ⟨nameKey, hk⟩ := Json.IsText.key_ok hun.own
      have hfind := p.find_of_key hk
      rw [hk, lift_ok, pure_bind]
      split
      · exact search_none
      · cases hdecl : p.declaration? nameKey with
        | none => exact search_missing key name
        | some decl =>
          rw [hdecl] at hfind
          have htyped := found_well_typed hp hfind
          cases decl with
          | enumeration => exact search_missing key name
          | typeAlias => exact ih _ (htyped.body _ (mem_singleton.2 rfl))
          | interface d =>
            dsimp only
            cases hm : findMember? d.members key with
            | some =>
              refine search_pure fun type ht => htyped.body _ ?_
              have hf : (findMember? d.members key).bind Member.type = some type := by
                rw [hm]
                exact ht
              exact member_type_mem d.index hf
            | none =>
              -- An extended interface is searched as a reference to its name.
              refine search_bind (search_heritage_settles hprojection key
                (htyped.heritage d rfl) fun other hother =>
                  ih _ (.intro hother fun _ h => nomatch h)) fun found hf => ?_
              cases found with
              | some => exact search_pure hf
              | none => exact search_missing key name
    · exact search_none

/-- The declared type of a member is looked up, and it is well-typed. -/
theorem member_type_settles (hp : p.WellTyped) {container : Option TypeExpr}
    (key : Json) (hcontainer : ∀ type ∈ container, type.WellTyped) :
    SearchSettles allowed (p.memberType container key) := by
  cases container with
  | none => exact search_none
  | some container =>
    exact member_within_settles hprojection hp key _ [] (hcontainer container rfl)

/-- The declared type that a chain denotes is looked up, and it is well-typed. -/
theorem chain_type_settles (hp : p.WellTyped) (hchain : chain.WellTyped) :
    SearchSettles allowed (p.chainType chain) := by
  induction hchain with
  | root ht =>
    rename_i type
    cases type with
    | reference =>
      obtain ⟨key, hk⟩ := Json.IsText.key_ok ht.own
      have hfind := p.find_of_key hk
      unfold chainType
      rw [hfind, lift_ok, pure_bind]
      cases hf : p.declaration? key with
      | none => exact search_none
      | some decl =>
        rw [hf] at hfind
        cases decl with
        | typeAlias =>
          refine search_pure fun type ht => ?_
          cases ht
          exact (found_well_typed hp hfind).body _ (mem_singleton.2 rfl)
        | _ => exact search_none
    | _ => exact search_none
  | index haccess hobj ih =>
    rename_i access key object
    unfold chainType
    rw [lift_ok, pure_bind]
    cases key with
    | property name =>
      cases hobj with
      | root ht =>
        rename_i root
        have hroot (type : TypeExpr) (hf : type ∈ some root) : type.WellTyped :=
          Option.mem_some.1 hf ▸ ht
        dsimp only
        rw [pure_bind]
        exact member_type_settles hprojection hp _ hroot
      | index =>
        refine search_bind ih fun container hcontainer => ?_
        exact member_type_settles hprojection hp _ hcontainer
    | _ => exact search_none

theorem segment_settles (hp : p.WellTyped) {access : TypeExpr} (key : IndexKey)
    (haccess : access.WellTyped) (hobj : object.WellTyped) :
    (p.segment access key object).Settles allowed := by
  obtain ⟨text, htext⟩ := haccess.text_ok
  cases key with
  | property | position => exact settles_pure _
  | unsupported =>
    refine settles_lift_bind ⟨_, htext⟩ fun _ _ => ?_
    exact settles_bind (settles_warn _) fun _ _ => settles_pure _
  | element =>
    obtain ⟨hsettles, htyped⟩ := chain_type_settles hprojection hp hobj
    refine settles_bind hsettles fun type ht => ?_
    have hsegment : ∃ segment, p.elementSegment type = .ok segment := by
      unfold elementSegment
      cases type with
      | none => exact ⟨none, rfl⟩
      | some type =>
        have hun := (htyped type ht).unwrap
        simp only [Option.map_some]
        split
        · exact ⟨_, rfl⟩
        · rename_i name args heq
          rw [Option.some.inj heq] at hun
          obtain ⟨isMaybe, hmaybe⟩ := is_maybe_name_ok hp hun.own
          simp only [hmaybe, bind, Except.bind, pure, Except.pure]
          split
          · exact ⟨_, rfl⟩
          · split <;> exact ⟨_, rfl⟩
        · exact ⟨_, rfl⟩
    refine settles_lift_bind hsegment fun segment _ => ?_
    cases segment with
    | some => exact settles_pure _
    | none =>
      refine settles_lift_bind ⟨_, htext⟩ fun _ _ => ?_
      exact settles_bind (settles_warn _) fun _ _ => settles_pure _

variable (haccess : ∀ root, allowed (.indexedAccess root))

include haccess

omit hprojection in
theorem check_object_settles (hobj : object.WellTyped) : (checkObject object).Settles allowed := by
  cases hobj with
  | root ht =>
    rename_i type
    obtain ⟨text, htext⟩ := ht.text_ok
    cases type with
    | reference => exact settles_pure _
    | _ => exact settles_lift_bind ⟨_, htext⟩ fun _ _ => settles_reject (haccess _)
  | index => exact settles_pure _

/-- An indexed access becomes a path, is reported or is rejected. -/
theorem access_chain_settles (hp : p.WellTyped) (hchain : chain.WellTyped) (later : List String) :
    (p.accessChain chain later).Settles allowed := by
  induction hchain generalizing later with
  | root ht =>
    obtain ⟨text, htext⟩ := ht.text_ok
    exact settles_lift_bind ⟨_, htext⟩ fun _ _ => settles_reject (haccess _)
  | index htyped hobj ih =>
    rename_i access key object
    unfold accessChain
    refine settles_lift_bind ⟨key, rfl⟩ fun key _ => ?_
    refine settles_bind (check_object_settles haccess hobj) fun _ _ => ?_
    refine settles_bind (segment_settles hprojection hp key htyped hobj) fun found _ => ?_
    cases found with
    | none => exact settles_pure _
    | some segment =>
      dsimp only
      split
      · rename_i name args
        cases hobj with
        | root ht =>
          refine settles_bind (reference_settles hp ht.own) fun _ _ => ?_
          exact settles_pure _
      · exact ih _

theorem indexed_access_settles (hp : p.WellTyped) (henv : env.WellTyped)
    {base : TypeExpr} (ht : (TypeExpr.indexed base index).WellTyped) :
    (p.indexedAccess (some env) (.indexed base index)).Settles allowed :=
  access_chain_settles hprojection haccess hp (henv.chain ht) []

end Search

end Program

end Schemata
