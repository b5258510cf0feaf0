import Mathlib.Data.List.Sort
import Mathlib.Data.String.Basic
import Schemata.Settings

/-!
# Settings by key

`Settings.gives` says which settings a key gives with its value. Following a key sets just these,
`apply_key_updates`; so after all keys every setting has the value that was given last,
`apply_fields_updates`. What is written is then read back, but for the order of the type names, and
where no setting is given twice the order of the keys does not matter.
-/

namespace Schemata

open List

/-- The settings that can be given and are written. -/
inductive Setting where
  | typeNames | optional | nullable | customFormats | skipAnnotations | namespaceName
  | depthLimit | typesPath | nameFilter

namespace Json

/-- The value is a list of texts. -/
def ListsTexts (value : Json) : Prop :=
  ∃ texts : List String, value = .arr (texts.map .str)

/-- Of texts the distinct ones are kept, and nothing is lost of texts that differ. -/
theorem distinct_from_texts (seen texts : List String) :
    ∃ names : List String, distinctFrom (seen.map .text) (texts.map .str) = .ok (names.map .str) ∧
      names.Nodup ∧ (∀ text ∈ names, text ∉ seen) ∧
      (texts.Nodup → (∀ text ∈ texts, text ∉ seen) → names = texts) := by
  induction texts generalizing seen with
  | nil => exact ⟨[], rfl, .nil, by simp, fun _ _ => rfl⟩
  | cons a rest ih =>
    by_cases hseen : a ∈ seen
    · obtain ⟨names, hnames, hnodup, hnew, -⟩ := ih seen
      refine ⟨names, ?_, hnodup, hnew, fun _ h => absurd hseen (h a mem_cons_self)⟩
      rw [← hnames]
      exact if_pos (mem_map_of_mem hseen)
    · obtain ⟨names, hnames, hnodup, hnew, hkept⟩ := ih (a :: seen)
      have ha : Key.text a ∉ seen.map .text := by simpa using hseen
      refine ⟨a :: names, ?_, ?_, ?_, fun hdistinct h => ?_⟩
      · change (if _ then _ else _) = _
        rw [map_cons] at hnames
        rw [if_neg ha, hnames]
        rfl
      · exact nodup_cons.2 ⟨fun h => hnew a h mem_cons_self, hnodup⟩
      · exact forall_mem_cons.2 ⟨hseen, fun text htext h => hnew text htext (mem_cons_of_mem _ h)⟩
      · obtain ⟨hother, hr⟩ := nodup_cons.1 hdistinct
        rw [hkept hr fun text htext hmem => (mem_cons.1 hmem).elim
          (fun heq => hother (heq ▸ htext)) (h text (mem_cons_of_mem _ htext))]

/-- Texts are sorted by their characters. -/
theorem ascending_texts (texts : List String) :
    ascending (texts.map .str) = .ok ((texts.insertionSort (· ≤ ·)).map .str) := by
  have hinsert (text : String) (sorted : List String) :
      insertAscending (.str text) (sorted.map .str) =
        (sorted.orderedInsert (· ≤ ·) text).map .str := by
    induction sorted with
    | nil => rfl
    | cons a rest ih =>
      have hplace : notAfter (.str text) (.str a) = true ↔ text ≤ a := by
        rw [← String.not_lt]
        exact (Bool.not_eq_true' _).to_iff.trans decide_eq_false_iff_not
      rw [orderedInsert_cons, map_cons, insertAscending, ih]
      by_cases h : text ≤ a
      · rw [if_pos (hplace.2 h), if_pos h, map_cons, map_cons]
      · rw [if_neg (mt hplace.1 h), if_neg h, map_cons]
  have hsort : (texts.map str).foldr insertAscending [] =
      (texts.insertionSort (· ≤ ·)).map .str := by
    induction texts with
    | nil => rfl
    | cons a rest ih => exact (congrArg _ ih).trans (hinsert a _)
  rw [← hsort]
  exact if_pos (by simp [text?])

end Json

namespace Settings

variable {fields : List (String × Json)}

/-- The value of a setting, if it is there. -/
def value? (settings : Settings) : Setting → Option Json
  | .typeNames => settings.maybe.map fun maybe => .arr maybe.typeNames
  | .optional => settings.maybe.map (·.optional)
  | .nullable => settings.maybe.map (·.nullable)
  | .customFormats => settings.customFormats
  | .skipAnnotations => some settings.skipAnnotations
  | .namespaceName => some settings.namespaceName
  | .depthLimit => some settings.depthLimit
  | .typesPath => some settings.typesPath
  | .nameFilter => settings.nameFilter

/-- What a key in snake case with its value gives for a setting. -/
def givesAs (key : String) (value : Json) (setting : Setting) : Option Json :=
  match key, setting with
  | "custom_format_types", .customFormats => some value
  | "skip_parse_annotations", .skipAnnotations => some value
  | "zod_import_value", .namespaceName => some value
  | "max_generic_depth", .depthLimit => some value
  | "types_import_path", .typesPath => some value
  | "name_filter", .nameFilter => some value
  | _, _ => none

/-- The names that a value lists, each once. -/
def listed (value : Json) : Json :=
  .arr ((nameSet value).toOption.getD [])

/-- What an object gives for absent values: all three settings, with the usual values for those it
leaves out. -/
def givesInside (fields : List (String × Json)) : Setting → Option Json
  | .typeNames => some (listed (((Json.field? "type_names" fields).or
      (Json.field? "typeNames" fields)).getD (.arr [])))
  | .optional => some ((Json.field? "optional" fields).getD (.bool true))
  | .nullable => some ((Json.field? "nullable" fields).getD (.bool true))
  | _ => none

/-- What a key with its value gives for a setting. -/
def gives (key : String) (value : Json) (setting : Setting) : Option Json :=
  match key, value, setting with
  | "maybe", .obj fields, setting => givesInside fields setting
  | "maybeConfig", .obj fields, setting => givesInside fields setting
  | "maybeTypeNames", value, .typeNames => some (listed value)
  | "maybeOptional", value, .optional => some (.bool value.truthy)
  | "maybeNullable", value, .nullable => some (.bool value.truthy)
  | key, value, setting =>
    givesAs (((camelKeys.find? (·.1 = key)).map (·.2)).getD key) value setting

/-- The keys of settings on absent values. -/
def maybeKeys : List String :=
  ["maybe", "maybeConfig", "maybeTypeNames", "maybeOptional", "maybeNullable"]

/-- The keys that stand for the record of settings itself. -/
def recordKeys : List String :=
  ["__dict__", "__class__", "__weakref__"]

/-- Where a value has to be of some kind, it is: an object for the settings on absent values, and
texts for lists of type names. -/
def IsWellTyped (key : String) (value : Json) : Prop :=
  match key with
  | "maybe" | "maybeConfig" => ∃ fields, value = .obj fields ∧
      ∀ field ∈ fields, field.1 ∈ ["type_names", "typeNames"] → field.2.ListsTexts
  | "maybeTypeNames" => value.ListsTexts
  | _ => True

/-- The settings that can be missing are there, and the type names are texts that differ. -/
structure IsSettled (settings : Settings) : Prop where
  maybe : ∃ (names : List String) (optional nullable : Json), names.Nodup ∧
    settings.maybe = some ⟨names.map .str, optional, nullable⟩
  customFormats : settings.customFormats.isSome
  nameFilter : settings.nameFilter.isSome

/-- The changed settings have given values in place of the old ones. They can still be written if
the writer is kept. -/
structure Updates (settings changed : Settings) (given : Setting → Option Json) (kept : Bool) :
    Prop where
  settled : changed.IsSettled
  value : ∀ setting, changed.value? setting = (given setting).or (settings.value? setting)
  schemaName : changed.schemaName = settings.schemaName
  writable : changed.writable = (settings.writable && kept)

theorem default_settled : default.IsSettled := ⟨⟨[], _, _, .nil, rfl⟩, rfl, rfl⟩

/-- Settled settings are determined by the values of the settings and by what is not written. -/
theorem eq_of_value {settings other : Settings} (hsettled : settings.IsSettled)
    (hother : other.IsSettled) (hv : ∀ setting, settings.value? setting = other.value? setting)
    (hn : settings.schemaName = other.schemaName)
    (hwritable : settings.writable = other.writable) : settings = other := by
  obtain ⟨⟨names, optional, nullable, -, hmaybe⟩, -, -⟩ := hsettled
  obtain ⟨⟨others, optional', nullable', -, hmaybe'⟩, -, -⟩ := hother
  have htypeNames := hv .typeNames
  have hoptional := hv .optional
  have hnullable := hv .nullable
  have hformats := hv .customFormats
  have hskip := hv .skipAnnotations
  have hspace := hv .namespaceName
  have hlimit := hv .depthLimit
  have hpath := hv .typesPath
  have hfilter := hv .nameFilter
  cases settings
  cases other
  simp_all [value?]

theorem name_set_texts {v : Json} (h : v.ListsTexts) :
    ∃ names : List String, nameSet v = .ok (names.map .str) ∧ names.Nodup := by
  obtain ⟨texts, rfl⟩ := h
  obtain ⟨names, hnames, hnodup, -⟩ := Json.distinct_from_texts [] texts
  exact ⟨names, hnames, hnodup⟩

section Keys

variable {settings : Settings} {key : String} {v : Json} (hsettled : settings.IsSettled)
include hsettled

/-- Setting one setting that is not the record itself. -/
theorem assign_updates (hrecord : key ∉ recordKeys) (hmaybe : key ≠ "maybe")
    (hn : key ≠ "get_dependency_name") :
    ∃ changed, settings.assign key v = .ok changed ∧
      settings.Updates changed (givesAs key v) (key ≠ writerKey) := by
  obtain ⟨hnames, hformats, hfilter⟩ := hsettled
  have htrue : settings.writable = (settings.writable && true) := (Bool.and_true _).symm
  unfold assign
  split
  case h_1 => exact absurd rfl hmaybe
  case h_2 =>
    exact ⟨_, rfl, ⟨hnames, rfl, hfilter⟩, by rintro (_ | _) <;> rfl, rfl, htrue⟩
  case h_7 =>
    exact ⟨_, rfl, ⟨hnames, hformats, rfl⟩, by rintro (_ | _) <;> rfl, rfl, htrue⟩
  case h_3 | h_4 | h_5 | h_6 =>
    exact ⟨_, rfl, ⟨hnames, hformats, hfilter⟩, by rintro (_ | _) <;> rfl, rfl, htrue⟩
  case h_8 => exact absurd rfl hn
  case h_9 | h_10 | h_11 => exact absurd (by decide) hrecord
  case h_12 =>
    have hnone (setting : Setting) : givesAs key v setting = none := by
      unfold givesAs
      split <;> first | rfl | contradiction
    exact ⟨_, rfl, ⟨hnames, hformats, hfilter⟩, fun setting => by rw [hnone]; rfl, rfl, rfl⟩

/-- A key that is none of those for absent values. -/
theorem other_key_updates (hrecord : key ∉ recordKeys) (hk : key ∉ maybeKeys) :
    ∃ changed, settings.applyKey key v = .ok changed ∧
      settings.Updates changed (gives key v) (key ≠ writerKey) := by
  have hgives : gives key v = givesAs (((camelKeys.find? (·.1 = key)).map (·.2)).getD key) v := by
    funext setting
    unfold gives
    split <;> first | rfl | exact absurd (by decide) hk
  have happly : settings.applyKey key v = (camelKeys.find? (·.1 = key)).elim
      (if settings.follows key then settings.assign key v else .ok settings)
      fun e => settings.assign e.2 v := by
    unfold applyKey
    split <;> first | exact absurd (by decide) hk | cases camelKeys.find? _ <;> rfl
  rw [hgives, happly]
  cases hcamel : camelKeys.find? (·.1 = key) with
  | some e =>
    have hsafe : ∀ e ∈ camelKeys, e.2 ∉ recordKeys ∧ e.2 ≠ "maybe" ∧
        e.2 ≠ "get_dependency_name" ∧ e.2 ≠ writerKey ∧ e.1 ≠ writerKey := by decide
    obtain ⟨hnew, hmaybe, hn, hsetting, hwriter⟩ := hsafe e (mem_of_find?_eq_some hcamel)
    have heq : e.1 = key := by simpa using find?_some hcamel
    have hupdates := @assign_updates _ _ v hsettled hnew hmaybe hn
    rw [decide_eq_true hsetting] at hupdates
    rwa [decide_eq_true (heq ▸ hwriter)]
  | none =>
    by_cases hn : key = "get_dependency_name"
    · subst hn
      exact ⟨settings, rfl, hsettled, fun _ => rfl, rfl, (Bool.and_true _).symm⟩
    · have hfollows : settings.follows key = true := by
        unfold follows
        split
        · exact hsettled.customFormats
        · exact hsettled.nameFilter
        · exact absurd rfl hn
        · rfl
      rw [if_pos hfollows]
      exact assign_updates hsettled hrecord (fun h => hk (h ▸ mem_cons_self)) hn

theorem replace_updates {given : Setting → Option Json} {names : List String}
    {optional nullable : Json} (hnodup : names.Nodup)
    (hv : ∀ setting, value? { settings with
        maybe := some ⟨names.map .str, optional, nullable⟩ } setting =
      (given setting).or (settings.value? setting)) :
    settings.Updates { settings with maybe := some ⟨names.map .str, optional, nullable⟩ } given
      true :=
  ⟨⟨⟨names, _, _, hnodup, rfl⟩, hsettled.customFormats, hsettled.nameFilter⟩, hv, rfl,
    (Bool.and_true _).symm⟩

/-- An object of settings on absent values gives all of them. -/
theorem object_updates
    (htyped : ∀ field ∈ fields, field.1 ∈ ["type_names", "typeNames"] → field.2.ListsTexts) :
    ∃ maybe, maybeOfFields fields = .ok maybe ∧
      settings.Updates { settings with maybe := some maybe } (givesInside fields) true := by
  have hlist : (((Json.field? "type_names" fields).or
      (Json.field? "typeNames" fields)).getD (.arr [])).ListsTexts := by
    cases ha : Json.field? "type_names" fields with
    | some => exact htyped _ (Json.mem_of_field ha) (by simp)
    | none =>
      cases hsecond : Json.field? "typeNames" fields with
      | some => exact htyped _ (Json.mem_of_field hsecond) (by simp)
      | none => exact ⟨[], rfl⟩
  obtain ⟨names, hnames, hnodup⟩ := name_set_texts hlist
  refine ⟨⟨names.map .str, _, _⟩, by rw [maybeOfFields, hnames]; rfl,
    replace_updates hsettled hnodup ?_⟩
  rintro (_ | _) <;> first | rfl | (rw [givesInside, listed, hnames]; rfl)

/-- Following a key sets what the key gives, and nothing else. -/
theorem apply_key_updates (htyped : IsWellTyped key v) (hrecord : key ∉ recordKeys) :
    ∃ changed, settings.applyKey key v = .ok changed ∧
      settings.Updates changed (gives key v) (key ≠ writerKey) := by
  by_cases hk : key ∈ maybeKeys
  · have hfields {fields : List (String × Json)}
        (h : ∀ field ∈ fields, field.1 ∈ ["type_names", "typeNames"] → field.2.ListsTexts) :
        ∃ changed, (do return { settings with maybe := some (← maybeOfFields fields) }) =
          Except.ok changed ∧ settings.Updates changed (givesInside fields) true := by
      obtain ⟨maybe, hmaybe, hupdates⟩ := object_updates hsettled h
      exact ⟨_, by rw [hmaybe]; rfl, hupdates⟩
    obtain ⟨names, optional, nullable, hnodup, hmaybe⟩ := hsettled.maybe
    obtain ⟨maybe, formats, skip, space, limit, path, filter, naming, writable⟩ := settings
    cases hmaybe
    simp only [maybeKeys, mem_cons, not_mem_nil, or_false] at hk
    rcases hk with rfl | rfl | rfl | rfl | rfl
    · obtain ⟨fields, rfl, h⟩ := htyped
      exact hfields h
    · obtain ⟨fields, rfl, h⟩ := htyped
      exact hfields h
    · obtain ⟨others, hothers, hdistinct⟩ := name_set_texts htyped
      refine ⟨_, by rw [applyKey, hothers]; rfl, replace_updates hsettled hdistinct ?_⟩
      rintro (_ | _) <;> first | rfl | (rw [gives, listed, hothers]; rfl)
    · exact ⟨_, rfl, replace_updates hsettled hnodup (by rintro (_ | _) <;> rfl)⟩
    · exact ⟨_, rfl, replace_updates hsettled hnodup (by rintro (_ | _) <;> rfl)⟩
  · exact other_key_updates hsettled hrecord hk

end Keys

/-- What is given last for a setting. -/
def lastGiven (setting : Setting) : List (String × Json) → Option Json
  | [] => none
  | (key, value) :: rest => (lastGiven setting rest).or (gives key value setting)

/-- After all keys, every setting has the value that was given last. -/
theorem apply_fields_updates {settings : Settings} (hsettled : settings.IsSettled)
    (htyped : ∀ field ∈ fields, IsWellTyped field.1 field.2 ∧ field.1 ∉ recordKeys) :
    ∃ changed, settings.applyFields fields = .ok changed ∧
      settings.Updates changed (lastGiven · fields) (fields.all (·.1 ≠ writerKey)) := by
  induction fields generalizing settings with
  | nil => exact ⟨settings, rfl, hsettled, fun _ => rfl, rfl, (Bool.and_true _).symm⟩
  | cons field rest ih =>
    obtain ⟨⟨hfield, hrecord⟩, hr⟩ := forall_mem_cons.1 htyped
    obtain ⟨middle, hmiddle, ha⟩ := apply_key_updates hsettled hfield hrecord
    obtain ⟨changed, hchanged, hsecond⟩ := ih ha.settled hr
    refine ⟨changed, by rw [applyFields, hmiddle]; exact hchanged, hsecond.settled,
      fun setting => ?_, hsecond.schemaName.trans ha.schemaName, ?_⟩
    · rw [hsecond.value, ha.value, ← Option.or_assoc]
      rfl
    · rw [hsecond.writable, ha.writable, all_cons, Bool.and_assoc]

section RoundTrip

variable {settings : Settings}

/-- A key that names a method of settings, or what every record has. -/
def isReserved (key : String) : Bool :=
  key ∈ ["from_dict", writerKey] ||
    (key.toList.take 2 = ['_', '_'] && key.toList.reverse.take 2 = ['_', '_'])

/-- The settings are the same, but for the order of the type names. -/
structure SameButOrder (settings other : Settings) : Prop where
  typeNames : ∃ names others : List String, names.Perm others ∧
    settings.value? .typeNames = some (.arr (names.map .str)) ∧
    other.value? .typeNames = some (.arr (others.map .str))
  others : ∀ setting, setting ≠ .typeNames → settings.value? setting = other.value? setting

theorem to_json_of_ascending {maybe : MaybeSettings} {names : List Json} {formats filter : Json}
    (hwritable : settings.writable = true) (hmaybe : settings.maybe = some maybe)
    (hnames : Json.ascending maybe.typeNames = .ok names)
    (hformats : settings.customFormats = some formats)
    (hfilter : settings.nameFilter = some filter) :
    settings.toJson = .ok (.obj
      [("maybe", .obj [("type_names", .arr names), ("optional", maybe.optional),
          ("nullable", maybe.nullable)]),
       ("custom_format_types", formats), ("skip_parse_annotations", settings.skipAnnotations),
       ("zod_import_value", settings.namespaceName), ("max_generic_depth", settings.depthLimit),
       ("types_import_path", settings.typesPath), ("name_filter", filter)]) := by
  rw [toJson, hwritable, hmaybe]
  dsimp only
  rw [hnames, hformats, hfilter]
  rfl

/-- Settled settings can be written, with the type names in ascending order, and what is written is
read back and written again. -/
theorem IsSettled.read_back (hsettled : settings.IsSettled) (hwritable : settings.writable = true) :
    ∃ written again, ∃ names : List String, settings.toJson = .ok written ∧
      (written.get? "maybe").bind (·.get? "type_names") = some (.arr (names.map .str)) ∧
      names.Pairwise (· < ·) ∧ ofJson written = .ok again ∧ settings.SameButOrder again ∧
      again.toJson = .ok written := by
  obtain ⟨⟨names, optional, nullable, hnodup, hmaybe⟩, hformats, hfilter⟩ := hsettled
  obtain ⟨maybe, formats, skip, space, limit, path, filter, naming, writable⟩ := settings
  obtain ⟨formats, rfl⟩ := Option.isSome_iff_exists.1 hformats
  obtain ⟨filter, rfl⟩ := Option.isSome_iff_exists.1 hfilter
  cases hmaybe
  cases hwritable
  have hperm := perm_insertionSort (· ≤ ·) names
  have hsorted := pairwise_insertionSort (· ≤ ·) names
  have hascending := Json.ascending_texts names
  generalize names.insertionSort (· ≤ ·) = sorted at hperm hsorted hascending
  have hdistinct : sorted.Nodup := hperm.nodup_iff.2 hnodup
  have hagain : Json.ascending (sorted.map .str) = .ok (sorted.map .str) := by
    rw [Json.ascending_texts, hsorted.insertionSort_eq]
  have hset : nameSet (.arr (sorted.map .str)) = .ok (sorted.map .str) := by
    obtain ⟨others, hothers, -, -, hkept⟩ := Json.distinct_from_texts [] sorted
    rw [hkept hdistinct fun _ _ => not_mem_nil] at hothers
    exact hothers
  have hmaybe : maybeOfFields [("type_names", .arr (sorted.map .str)), ("optional", optional),
      ("nullable", nullable)] = .ok ⟨sorted.map .str, optional, nullable⟩ := by
    change (do return MaybeSettings.mk (← nameSet (.arr (sorted.map .str))) _ _) = _
    rw [hset]
    rfl
  refine ⟨_, ⟨some ⟨sorted.map .str, optional, nullable⟩, some formats, skip, space, limit, path,
    some filter, default.schemaName, true⟩, sorted, to_json_of_ascending rfl rfl hascending rfl rfl,
    rfl, hsorted.imp₂ (fun _ _ => lt_of_le_of_ne) hdistinct,
    by rw [ofJson, applyFields, applyKey, hmaybe]; rfl, ⟨⟨names, sorted, hperm.symm, rfl, rfl⟩, ?_⟩,
    @to_json_of_ascending _ ⟨sorted.map .str, _, _⟩ _ _ _ rfl rfl hagain rfl rfl⟩
  rintro (_ | _) h <;> first | rfl | exact absurd rfl h

/-- Settings that were read can be written, and what is written is read as the same settings, but
for the order of the type names, which are written in ascending order, each once. -/
theorem written_settings_read_back {fields : List (String × Json)}
    (htyped : ∀ field ∈ fields, IsWellTyped field.1 field.2 ∧ isReserved field.1 = false) :
    ∃ settings written again, ∃ names : List String, ofJson (.obj fields) = .ok settings ∧
      settings.toJson = .ok written ∧
      (written.get? "maybe").bind (·.get? "type_names") = some (.arr (names.map .str)) ∧
      names.Pairwise (· < ·) ∧ ofJson written = .ok again ∧ settings.SameButOrder again ∧
      again.toJson = .ok written := by
  have hsafe : ∀ key ∈ writerKey :: recordKeys, isReserved key = true := by decide
  have hkeys (field : String × Json) (hfield : field ∈ fields) :
      field.1 ∉ writerKey :: recordKeys := fun h => by
    cases (hsafe _ h).symm.trans (htyped field hfield).2
  obtain ⟨settings, hsettings, hupdates⟩ := apply_fields_updates default_settled fun field hfield =>
    ⟨(htyped field hfield).1, fun h => hkeys field hfield (List.mem_cons_of_mem _ h)⟩
  have hwritable : settings.writable = true := by
    rw [hupdates.writable]
    exact List.all_eq_true.2 fun field hfield =>
      decide_eq_true fun h => hkeys field hfield (h ▸ List.mem_cons_self)
  obtain ⟨written, again, names, hread⟩ := hupdates.settled.read_back hwritable
  exact ⟨settings, written, again, names, hsettings, hread⟩

/-- Two spellings, a repeated name, an object that leaves out what was given before, and a key that
is not known. -/
def mixedFields : List (String × Json) :=
  [("maybeTypeNames", .arr [.str "Some", .str "Maybe", .str "Some"]), ("keepComments", .bool true),
   ("maybeOptional", .bool false), ("zod_import_value", .str "v"),
   ("maybeConfig", .obj [("typeNames", .arr [.str "Opt", .str "Lazy"])])]

/-- The names of the object are read, which also resets what was given before it, and the name of
the namespace is read in the other spelling. The names are written in ascending order. -/
theorem mixed_fields_read_back : ∃ settings written again,
    ofJson (.obj mixedFields) = .ok settings ∧
      settings.value? .typeNames = some (.arr [.str "Opt", .str "Lazy"]) ∧
      settings.value? .optional = some (.bool true) ∧
      settings.value? .namespaceName = some (.str "v") ∧ settings.toJson = .ok written ∧
      (written.get? "maybe").bind (·.get? "type_names") = some (.arr [.str "Lazy", .str "Opt"]) ∧
      written.get? "zod_import_value" = some (.str "v") ∧
      ofJson written = .ok again ∧ settings.SameButOrder again ∧ again.toJson = .ok written := by
  have htyped : ∀ field ∈ mixedFields,
      IsWellTyped field.1 field.2 ∧ isReserved field.1 = false := by
    refine fun field hfield => ⟨?_,
      (by decide : ∀ field ∈ mixedFields, isReserved field.1 = false) field hfield⟩
    simp only [mixedFields, List.mem_cons, List.not_mem_nil, or_false] at hfield
    rcases hfield with rfl | rfl | rfl | rfl | rfl
    · exact ⟨["Some", "Maybe", "Some"], rfl⟩
    · trivial
    · trivial
    · trivial
    · exact ⟨_, rfl, List.forall_mem_singleton.2 fun _ => ⟨["Opt", "Lazy"], rfl⟩⟩
  obtain ⟨settings, written, again, names, hsettings, hwritten, -, -, hagain⟩ :=
    written_settings_read_back htyped
  obtain rfl : _ = settings := Except.ok.inj hsettings
  obtain rfl : _ = written := Except.ok.inj hwritten
  exact ⟨_, _, again, rfl, rfl, rfl, rfl, rfl, rfl, rfl, hagain⟩

end RoundTrip

section KeyOrder

/-- No setting is given by both of two keys. -/
def GivenApart (first second : String × Json) : Prop :=
  ∀ setting, gives first.1 first.2 setting = none ∨ gives second.1 second.2 setting = none

/-- Where no setting is given twice, it does not matter for what is given last in which order the
keys come. -/
theorem last_given_perm {a b : List (String × Json)} (hperm : a.Perm b)
    (hapart : a.Pairwise GivenApart) (setting : Setting) :
    lastGiven setting a = lastGiven setting b := by
  induction hperm with
  | nil => rfl
  | cons field _ ih => rw [lastGiven, lastGiven, ih (pairwise_cons.1 hapart).2]
  | swap =>
    rw [lastGiven, lastGiven, lastGiven, lastGiven, Option.or_assoc, Option.or_assoc]
    rcases (pairwise_cons.1 hapart).1 _ mem_cons_self setting with hnone | hnone <;>
      rw [hnone, Option.or_none, Option.none_or]
  | trans ha _ ih ih' =>
    exact (ih hapart).trans (ih' ((ha.pairwise_iff fun h setting => (h setting).symm).1 hapart))

/-- The keys can come in any order where no setting is given twice. An object of settings on absent
values counts as giving all three of them. -/
theorem key_order_immaterial {first second : List (String × Json)} (hperm : first.Perm second)
    (htyped : ∀ field ∈ first, IsWellTyped field.1 field.2 ∧ field.1 ∉ recordKeys)
    (hapart : first.Pairwise GivenApart) :
    ∃ settings, ofJson (.obj first) = .ok settings ∧ ofJson (.obj second) = .ok settings := by
  obtain ⟨settings, hsettings, hfirst⟩ := apply_fields_updates default_settled htyped
  obtain ⟨other, hother, hsecond⟩ := apply_fields_updates default_settled
    fun field hfield => htyped field (hperm.mem_iff.2 hfield)
  have heq : other = settings := by
    refine eq_of_value hsecond.settled hfirst.settled (fun setting => ?_)
      (hsecond.schemaName.trans hfirst.schemaName.symm) ?_
    · rw [hsecond.value, hfirst.value, last_given_perm hperm hapart]
    · rw [hsecond.writable, hfirst.writable, hperm.all_eq]
  exact ⟨settings, hsettings, heq ▸ hother⟩

/-- An object of settings on absent values and a limit come in either order. -/
theorem maybe_before_depth : ∃ settings,
    ofJson (.obj [("maybe", .obj [("optional", .bool false)]), ("maxGenericDepth", .int 3)]) =
      .ok settings ∧
    ofJson (.obj [("maxGenericDepth", .int 3), ("maybe", .obj [("optional", .bool false)])]) =
      .ok settings := by
  refine key_order_immaterial (.swap _ _ _) (List.forall_mem_cons.2 ⟨⟨?_, by decide⟩,
    List.forall_mem_singleton.2 ⟨trivial, by decide⟩⟩) (List.pairwise_pair.2 fun setting => ?_)
  · exact ⟨_, rfl, List.forall_mem_singleton.2 fun h => absurd h (by decide)⟩
  · cases setting <;> first | exact .inl rfl | exact .inr rfl

/-- An object of settings on absent values resets those that it leaves out, so that it matters
whether they are given before it or after it. -/
theorem object_resets_flag : ∃ first second,
    ofJson (.obj [("maybeOptional", .bool false),
      ("maybe", .obj [("typeNames", .arr [.str "Maybe"])])]) = .ok first ∧
    ofJson (.obj [("maybe", .obj [("typeNames", .arr [.str "Maybe"])]),
      ("maybeOptional", .bool false)]) = .ok second ∧
    first.value? .optional = some (.bool true) ∧ second.value? .optional = some (.bool false) :=
  ⟨_, _, rfl, rfl, rfl, rfl⟩

end KeyOrder

end Settings

end Schemata
