import Schemata.Proofs.Termination

/-!
# Well-typed programs

Where the format of documents calls for a name or a text, any value can stand. A program is
well-typed when the values that are looked up or joined are texts and the settings are there.
`TypeExpr.WellTyped.text_ok` says that the text of a well-typed type can be written, and
`Environment.WellTyped.resolve_ok` that a well-typed type can be followed, to another one.
-/

namespace Schemata

open List

variable {name : Name} {env : Environment}

/-- A value that is a text. -/
def Json.IsText (value : Json) : Prop :=
  ∃ text, value = .str text

/-- A text has a key. -/
theorem Json.IsText.key_ok (h : name.IsText) : ∃ key, name.key = .ok key := by
  obtain ⟨text, rfl⟩ := h
  exact ⟨.text text, rfl⟩

/-- A text can be joined with others. -/
theorem Json.IsText.text_ok {v : Json} (h : v.IsText) : ∃ text, v.text = .ok text := by
  obtain ⟨text, rfl⟩ := h
  exact ⟨text, rfl⟩

/-- The names and texts that stand in a type itself, outside of its parts, are texts. -/
def TypeExpr.OwnTexts : TypeExpr → Prop
  | .reference name _ => name.IsText
  | .enumMember enumName memberName => enumName.IsText ∧ memberName.IsText
  | .template head spans => head.IsText ∧ ∀ span ∈ spans, span.literal.IsText
  | .unsupported kind text => kind.IsText ∧ text.IsText
  | _ => True

/-- The names and texts in a type are texts. -/
inductive TypeExpr.WellTyped : TypeExpr → Prop where
  | intro {type : TypeExpr} (own : type.OwnTexts) (parts : ∀ part ∈ type.parts, WellTyped part) :
      WellTyped type

/-- What parameters are bound to is well-typed. -/
inductive Environment.WellTyped : Environment → Prop where
  | intro {environment : Environment}
      (types : ∀ binding ∈ environment.bindings, binding.type.WellTyped)
      (environments : ∀ binding ∈ environment.bindings, WellTyped binding.environment) :
      WellTyped environment

/-- The names and types in a declaration are well-typed. -/
structure Declaration.WellTyped (declaration : Declaration) : Prop where
  name : declaration.name.IsText
  parameters : ∀ parameter ∈ declaration.parameters, parameter.name.IsText
  defaults : ∀ type ∈ declaration.defaults, type.WellTyped
  body : ∀ type ∈ declaration.bodyTypes, type.WellTyped
  heritage : ∀ declared, declaration = .interface declared →
    ∀ clause ∈ declared.heritage, clause.name.IsText ∧ ∀ keys ∈ clause.keys, keys.WellTyped

/-- The settings are there, formats are patterns or objects, and the schema of a text has a text as
its name. -/
structure Settings.WellTyped (settings : Settings) : Prop where
  maybe : ∃ maybe, settings.maybe = some maybe
  naming : ∃ naming, settings.schemaName = some naming ∧ ∀ text, (naming (.str text)).IsText
  formats : ∃ fields, settings.customFormats = some (.obj fields) ∧
    ∀ field ∈ fields, field.2.IsText ∨ ∃ inner, field.2 = .obj inner

/-- The usual settings are well-typed. -/
theorem Settings.default_well_typed : Settings.default.WellTyped where
  maybe := ⟨_, rfl⟩
  naming := ⟨_, rfl, fun _ => ⟨_, rfl⟩⟩
  formats := ⟨_, rfl, fun _ h => nomatch h⟩

/-- The declarations of a source unit are well-typed. -/
def SourceUnit.WellTyped (unit : SourceUnit) : Prop :=
  ∀ declaration ∈ unit.declarations, declaration.WellTyped

/-- The declarations and the settings are well-typed. -/
structure Program.WellTyped (program : Program) : Prop where
  declarations : ∀ declaration ∈ program.unit.declarations, declaration.WellTyped
  settings : program.settings.WellTyped

namespace TypeExpr

/-- The texts of a well-typed type itself are in place. -/
theorem WellTyped.own {t : TypeExpr} (h : t.WellTyped) : t.OwnTexts := by
  cases h with
  | intro own => exact own

/-- The parts of a well-typed type are well-typed. -/
theorem WellTyped.part {part t : TypeExpr} (h : t.WellTyped) (hpart : part ∈ t.parts) :
    part.WellTyped := by
  cases h with
  | intro own parts => exact parts part hpart

/-- A type without parts is well-typed if its own texts are in place. -/
theorem WellTyped.leaf {t : TypeExpr} (hps : t.parts = []) (h : t.OwnTexts) :
    t.WellTyped := .intro h fun part hpart => by simp [hps] at hpart

/-- What is inside of a well-typed type is well-typed. -/
theorem WellTyped.within {inner t : TypeExpr} (h : t.WellTyped) (hi : inner.Within t) :
    inner.WellTyped := by
  induction hi with
  | part hpart => exact h.part hpart
  | deeper hi hpart ih => exact ih (h.part hpart)

/-- A well-typed type in parentheses is well-typed. -/
theorem WellTyped.unwrap {t : TypeExpr} (h : t.WellTyped) : t.unwrap.WellTyped := by
  fun_induction TypeExpr.unwrap t with
  | case1 t ih => exact ih (h.part (mem_singleton.2 rfl))
  | case2 => exact h

/-- The types of members, parameters and values that have none are well-typed. -/
theorem any_well_typed : (TypeExpr.keyword .any).WellTyped := .leaf rfl trivial

section Parts

variable {ms : List (Member TypeExpr)} {sig : IndexSignature TypeExpr} {t : TypeExpr}

theorem mem_parts_member {index : Option (IndexSignature TypeExpr)} {m : Member TypeExpr}
    (h : m ∈ ms) (ht : t ∈ m.type) : t ∈ (object ms index).parts :=
  mem_append_left _ (mem_filterMap.2 ⟨m, h, ht⟩)

theorem mem_parts_key (h : t ∈ sig.keyType) : t ∈ (object ms (some sig)).parts := by
  refine mem_append_right _ (mem_flatMap.2 ⟨sig, mem_singleton.2 rfl, ?_⟩)
  exact mem_append_left _ (Option.mem_toList.2 h)

theorem mem_parts_index (h : t ∈ sig.type) : t ∈ (object ms (some sig)).parts := by
  refine mem_append_right _ (mem_flatMap.2 ⟨sig, mem_singleton.2 rfl, ?_⟩)
  exact mem_append_right _ (Option.mem_toList.2 h)

theorem mem_parts_parameter {params : List (Parameter TypeExpr)} {result : TypeExpr}
    {param : Parameter TypeExpr} (h : param ∈ params) (ht : t ∈ param.type) :
    t ∈ (function params result).parts := mem_append_left _ (mem_filterMap.2 ⟨param, h, ht⟩)

end Parts

section Text

variable {t : TypeExpr}

/-- A result that is there if something holds, and otherwise fails on a value of the wrong kind. -/
inductive Shows {α : Type} (shown : Prop) : Except Fault α → Prop where
  | ok {value} (h : shown) : Shows shown (.ok value)
  | fault (h : ¬shown) : Shows shown (.error .wrongKind)

namespace Shows

variable {α β : Type} {shown also : Prop}

theorem congr {result : Except Fault α} (h : Shows shown result) (hiff : shown ↔ also) :
    Shows also result := by
  cases h with
  | ok h => exact .ok (hiff.1 h)
  | fault h => exact .fault (mt hiff.2 h)

theorem bind {a : Except Fault α} {next : α → Except Fault β} (ha : Shows shown a)
    (hnext : ∀ v, a = .ok v → Shows also (next v)) : Shows (shown ∧ also) (a >>= next) := by
  cases ha with
  | fault h => exact .fault fun hboth => h hboth.1
  | @ok v h => exact (hnext v rfl).congr (and_iff_right h).symm

/-- What is made of a result is there if the result is. -/
theorem made {a : Except Fault α} (h : Shows shown a) (make : α → β) :
    Shows shown (a >>= fun v => .ok (make v)) :=
  (h.bind fun _ _ => .ok trivial).congr (and_iff_left trivial)

theorem exists_iff {result : Except Fault α} (h : Shows shown result) :
    (∃ v, result = .ok v) ↔ shown := by
  cases h with
  | ok h => exact ⟨fun _ => h, fun _ => ⟨_, rfl⟩⟩
  | fault h => exact ⟨fun ⟨_, heq⟩ => (by cases heq), fun hshown => (h hshown).elim⟩

end Shows

/-- The type can be shown. -/
def HasText (type : TypeExpr) : Prop :=
  ∃ value, type.text = .ok value

/-- The text of a type can be written. -/
def Written (type : TypeExpr) : Prop :=
  ∃ text, type.text = .ok (.str text)

/-- What is shown of a type is a text. -/
def ShowsText : TypeExpr → Prop
  | .reference name [] => name.IsText
  | .unsupported kind text => (if text.truthy then text else kind).IsText
  | _ => True

/-- The texts of the parts of a type are joined, so that they have to be texts. -/
def Joins : TypeExpr → Prop
  | .reference _ _ => True
  | .tuple _ => True
  | .union _ => True
  | .intersection _ => True
  | _ => False

theorem texts_show {types : List TypeExpr} (h : ∀ t ∈ types, Shows t.HasText t.text) :
    Shows (∀ t ∈ types, t.HasText ∧ t.Written) (texts types) := by
  induction types with
  | nil => exact .ok (forall_mem_nil _)
  | cons t rest ih =>
    have hr := ih (forall_mem_cons.1 h).2
    have hwritten (v : Json) (hv : t.text = .ok v) : Shows t.Written v.text := by
      cases v with
      | str text => exact .ok ⟨text, hv⟩
      | _ => exact .fault fun ⟨text, htext⟩ => (by cases hv.symm.trans htext)
    rw [forall_mem_cons, and_assoc]
    exact (h t mem_cons_self).bind fun v hv =>
      (hwritten v hv).bind fun a _ => hr.made (a :: ·)

theorem option_text_shows {t : Option TypeExpr} (h : ∀ found ∈ t, Shows found.HasText found.text) :
    Shows (∀ found ∈ t, found.HasText) (optionText t) := by
  cases t with
  | none => exact .ok fun _ h => (by cases h)
  | some t =>
    exact (h t rfl).congr ⟨fun h _ hf => Option.some.inj hf ▸ h, fun h => h t rfl⟩

/-- Texts that are written one by one. -/
theorem list_shows {α : Type} (write : List α → Except Fault (List String))
    {v : α → Except Fault Json} {make : α → Json → String} {shown : α → Prop}
    (hnil : write [] = .ok [])
    (hcons : ∀ x rest, write (x :: rest) = do
      let found ← v x
      return make x found :: (← write rest))
    {xs : List α} (h : ∀ x ∈ xs, Shows (shown x) (v x)) :
    Shows (∀ x ∈ xs, shown x) (write xs) := by
  induction xs with
  | nil => exact hnil ▸ .ok (forall_mem_nil _)
  | cons x rest ih =>
    rw [hcons, forall_mem_cons]
    exact (h x mem_cons_self).bind fun found _ =>
      (ih (forall_mem_cons.1 h).2).made (make x found :: ·)

/-- A type can be shown if its parts can be, as texts where they are joined. -/
theorem text_shows (t : TypeExpr) :
    Shows (∀ part ∈ t.parts, part.HasText ∧ (t.Joins → part.Written)) t.text := by
  induction t using parts_induction with
  | h t ih =>
    have hpart (part : TypeExpr) (hmem : part ∈ t.parts) : Shows part.HasText part.text :=
      (ih part hmem).congr (ih part hmem).exists_iff.symm
    have hone {part : TypeExpr} (hps : t.parts = [part]) (hjoins : ¬t.Joins) (make : Json → Json) :
        Shows (∀ part ∈ t.parts, part.HasText ∧ (t.Joins → part.Written))
          (part.text >>= fun v => .ok (make v)) := by
      refine ((hpart part (by simp [hps])).made make).congr ?_
      simp [hps, hjoins]
    have hjoined {types : List TypeExpr} (hps : t.parts = types) (hjoins : t.Joins)
        (make : List String → Json) :
        Shows (∀ part ∈ t.parts, part.HasText ∧ (t.Joins → part.Written))
          (texts types >>= fun found => .ok (make found)) := by
      subst hps
      refine ((texts_show hpart).made make).congr ?_
      simp [hjoins]
    cases t with
    | reference name args =>
      cases args with
      | nil => exact .ok (forall_mem_nil _)
      | cons => exact hjoined rfl trivial _
    | object ms index =>
      have hms : Shows (∀ m ∈ ms, ∀ found ∈ m.type, found.HasText) (memberTexts ms) :=
        list_shows memberTexts rfl (fun _ _ => rfl) fun m hm => option_text_shows
          fun found hf => hpart found (mem_parts_member hm hf)
      cases index with
      | none =>
        refine (hms.made _).congr ?_
        simp only [parts, objectTypes, Joins, Option.mem_def, mem_append, mem_filterMap]
        grind
      | some =>
        have hk := option_text_shows fun found hf => hpart found (mem_parts_key hf)
        have hv := option_text_shows fun found hf =>
          hpart found (mem_parts_index hf)
        refine (hms.bind fun _ _ => hk.bind fun _ _ => hv.made _).congr ?_
        simp only [parts, objectTypes, IndexSignature.types, Joins, Option.mem_def, mem_append,
          mem_filterMap, Option.toList_some, flatMap_singleton, Option.mem_toList]
        grind
    | function params result =>
      have hparams : Shows (∀ param ∈ params, ∀ found ∈ param.type,
          found.HasText) (parameterTexts params) :=
        list_shows parameterTexts rfl (fun _ _ => rfl) fun param hparam =>
          option_text_shows fun found hf =>
            hpart found (mem_parts_parameter hparam hf)
      have hres := hpart result (by simp [parts])
      refine (hparams.bind fun _ _ => hres.made _).congr ?_
      simp only [parts, Joins, Option.mem_def, mem_append, mem_filterMap, mem_singleton]
      grind
    | template head spans =>
      have hspans : Shows (∀ span ∈ spans, span.type.HasText) (spanTexts spans) :=
        list_shows spanTexts rfl (fun _ _ => rfl) fun span hspan =>
          hpart span.type (mem_map_of_mem hspan)
      refine (hspans.made _).congr ?_
      simp [parts, Joins]
    | indexed base index =>
      have hbase := hpart base (by simp [parts])
      have hidx := hpart index (by simp [parts])
      refine (hbase.bind fun _ _ => hidx.made _).congr ?_
      simp [parts, Joins]
    | tuple | union | intersection => exact hjoined rfl trivial _
    | array | spread | named | paren => exact hone rfl id _
    | _ => exact .ok (forall_mem_nil _)

theorem has_text_iff (t : TypeExpr) :
    t.HasText ↔ ∀ part ∈ t.parts, part.HasText ∧ (t.Joins → part.Written) :=
  (text_shows t).exists_iff

theorem text_shown (t : TypeExpr) : Shows t.HasText t.text :=
  (text_shows t).congr (has_text_iff t).symm

/-- A type is written if it can be shown and what is shown is a text. -/
theorem written_iff (t : TypeExpr) : t.Written ↔ t.HasText ∧ t.ShowsText := by
  have hbind {α : Type} (a : Except Fault α) {next : α → Except Fault Json}
      (h : ∀ v, ∀ found, next v = .ok found → found.IsText) :
      ∀ found, (a >>= next) = .ok found → found.IsText := by
    cases a with
    | error => exact fun _ heq => (by cases heq)
    | ok v => exact h v
  have hok (text : String) (found : Json)
      (heq : (.ok (.str text) : Except Fault Json) = .ok found) : found.IsText :=
    Except.ok.inj heq ▸ ⟨text, rfl⟩
  have htext (hshows : t.ShowsText) : ∀ found, t.text = .ok found → found.IsText := by
    cases t with
    | reference name args =>
      cases args with
      | nil => exact fun _ heq => Except.ok.inj heq ▸ hshows
      | cons => exact hbind _ fun _ => hok _
    | unsupported => exact fun _ heq => Except.ok.inj heq ▸ hshows
    | object ms index =>
      cases index with
      | none => exact hbind _ fun _ => hok _
      | some => exact hbind _ fun _ => hbind _ fun _ => hbind _ fun _ => hok _
    | function | indexed => exact hbind _ fun _ => hbind _ fun _ => hok _
    | keyword | literal | enumMember => exact hok _
    | _ => exact hbind _ fun _ => hok _
  constructor
  · rintro ⟨text, h⟩
    refine ⟨⟨_, h⟩, ?_⟩
    cases t with
    | reference name args =>
      cases args with
      | nil => exact ⟨text, Except.ok.inj h⟩
      | cons => trivial
    | unsupported => exact ⟨text, Except.ok.inj h⟩
    | _ => trivial
  · rintro ⟨⟨v, h⟩, hshows⟩
    obtain ⟨text, rfl⟩ := htext hshows v h
    exact ⟨text, h⟩

/-- If a type can be shown then another one can be, as a text if it is one. -/
def KeepsText (type other : TypeExpr) : Prop :=
  (type.HasText → other.HasText) ∧ (type.Written → other.Written)

theorem keeps_text_of_parts {other : TypeExpr}
    (hps : ∀ part ∈ other.parts, ∃ inner ∈ t.parts, inner.KeepsText part)
    (hjoins : other.Joins → t.Joins) (hshows : t.ShowsText → other.ShowsText) :
    t.KeepsText other := by
  have hkept (h : t.HasText) : other.HasText := by
    refine other.has_text_iff.2 fun part hpart => ?_
    obtain ⟨inner, hi, hkeeps⟩ := hps part hpart
    obtain ⟨htext, hwritten⟩ := t.has_text_iff.1 h inner hi
    exact ⟨hkeeps.1 htext, fun h => hkeeps.2 (hwritten (hjoins h))⟩
  refine ⟨hkept, fun h => ?_⟩
  obtain ⟨htext, hshown⟩ := t.written_iff.1 h
  exact other.written_iff.2 ⟨hkept htext, hshows hshown⟩

/-- The text of a well-typed type can be written. -/
theorem WellTyped.text_ok (h : t.WellTyped) : t.Written := by
  induction h with
  | @intro t own parts ih =>
    refine (written_iff t).2 ⟨(has_text_iff t).2 fun part hpart => ?_, ?_⟩
    · exact ⟨((written_iff part).1 (ih part hpart)).1, fun _ => ih part hpart⟩
    · cases t with
      | reference name args =>
        cases args with
        | nil => exact own
        | cons => trivial
      | unsupported kind text =>
        show Json.IsText (if text.truthy then text else kind)
        split
        · exact own.2
        · exact own.1
      | _ => trivial

theorem WellTyped.has_text (h : t.WellTyped) : t.HasText := (written_iff t).1 h.text_ok |>.1

end Text

end TypeExpr

namespace Environment

variable {t : TypeExpr}

/-- What a parameter of a well-typed environment is bound to is well-typed. -/
theorem WellTyped.binding {env : Environment} (h : env.WellTyped) {b : Binding Environment}
    (hb : b ∈ env.bindings) : b.type.WellTyped ∧ b.environment.WellTyped := by
  cases h with
  | intro types environments => exact ⟨types b hb, environments b hb⟩

/-- An environment without parameters is well-typed. -/
theorem no_bindings_well_typed (depth : Nat) : (Environment.mk depth []).WellTyped :=
  .intro (fun _ h => nomatch h) fun _ h => nomatch h

/-- One more well-typed binding keeps an environment well-typed. -/
theorem WellTyped.bind {read bound : Environment} (h : env.WellTyped) (ht : t.WellTyped)
    (hread : read.WellTyped) (hbind : env.bind name t read = .ok bound) : bound.WellTyped := by
  have hb (b : Binding Environment) (hmem : b ∈ bound.bindings) :
      b.type.WellTyped ∧ b.environment.WellTyped := by
    rcases mem_bind hbind hmem with ⟨rfl, rfl⟩ | hold
    · exact ⟨ht, hread⟩
    · exact h.binding hold
  exact .intro (fun b hmem => (hb b hmem).1) fun b hmem => (hb b hmem).2

/-- The environment without a name stays well-typed. -/
theorem WellTyped.without (h : env.WellTyped) (name : Name) : (env.without name).WellTyped :=
  .intro (fun _ hmem => (h.binding (mem_without hmem)).1)
    fun _ hmem => (h.binding (mem_without hmem)).2

/-- A well-typed type can be followed, to a well-typed type in a well-typed environment. -/
theorem WellTyped.resolve_ok (h : env.WellTyped) (ht : t.WellTyped) :
    ∃ found inner, env.resolve t = .ok (found, inner) ∧ found.WellTyped ∧ inner.WellTyped := by
  induction h generalizing t with
  | intro types environments ih =>
    rename_i env
    by_cases hn : ∃ name, t = .reference name []
    · obtain ⟨name, rfl⟩ := hn
      cases ht with
      | intro own parts =>
        obtain ⟨key, hk⟩ := Json.IsText.key_ok own
        rw [env.resolve_reference hk]
        cases hb : env.binding? key with
        | none => exact ⟨_, _, rfl, .intro own parts, .intro types environments⟩
        | some b =>
          have hmem := mem_of_find?_eq_some hb
          exact ih b hmem (types b hmem).unwrap
    · rw [resolve_of_ne fun name heq => hn ⟨name, heq⟩]
      exact ⟨t, env, rfl, ht, .intro types environments⟩

end Environment

namespace Program

variable {caller inner : Environment} {args : List TypeExpr}

/-- What a declaration is entered in is well-typed. -/
theorem entered_well_typed {decl : Declaration} (hdecl : decl.WellTyped)
    (hcaller : caller.WellTyped) (hargs : ∀ arg ∈ args, arg.WellTyped)
    (h : Entered decl caller args inner) : inner.WellTyped := by
  induction h with
  | enter => exact Environment.no_bindings_well_typed _
  | argument hi harg hbind ih => exact ih.bind (hargs _ harg) hcaller hbind
  | default hi hdefault hbind ih =>
    exact ih.bind (hdecl.defaults _ hdefault) ih hbind
  | without hi ih => exact ih.without _

/-- Parameters with texts as names can be bound. -/
theorem bind_types_ok {params : List GenericParameter} (h : ∀ param ∈ params, param.name.IsText) :
    ∃ bound, bindTypes caller params args inner = .ok bound := by
  fun_induction bindTypes caller params args inner with
  | case1 given inner => exact ⟨inner, rfl⟩
  | case2 _ _ _ _ _ ih | case3 _ _ _ _ _ ih =>
    obtain ⟨key, hk⟩ := Json.IsText.key_ok (h _ mem_cons_self)
    simp only [Environment.bind, hk, bind, Except.bind, pure, Except.pure]
    exact ih _ (forall_mem_cons.1 h).2
  | case4 name limit rest inner ih =>
    exact ih (forall_mem_cons.1 h).2

end Program

end Schemata
