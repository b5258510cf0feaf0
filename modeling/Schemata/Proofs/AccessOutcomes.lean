import Schemata.Proofs.Lookup
import Schemata.Proofs.Stepwise

/-!
# What an indexed access gives

An indexed access is a chain of indices that starts from a type. `access_chain_comes` says what
comes of it: a path into the schema of a named type, told of as the one schema that is used;
nothing, with one warning; or a failure, with neither.
-/

namespace Schemata

open List
open Traced (bind_ok_iff lift_ok_iff)

section Findings

/-- What a trace tells beside notices. -/
def findings (events : List Event) : List Event :=
  events.filter fun
    | .notice _ => false
    | _ => true

theorem findings_append (a b : List Event) : findings (a ++ b) = findings a ++ findings b :=
  filter_append a b

/-- What is read off a trace without its notices is read off the findings. -/
theorem filterMap_findings {α : Type} {read : Event → Option α}
    (h : ∀ notice, read (.notice notice) = none) (events : List Event) :
    (findings events).filterMap read = events.filterMap read := by
  induction events with
  | nil => rfl
  | cons event rest ih =>
    cases event with
    | notice found => rwa [filterMap_cons_none (h found)]
    | _ => exact (filterMap_cons ..).trans (ih ▸ (filterMap_cons ..).symm)

theorem used_names_findings (events : List Event) :
    usedNames (findings events) = usedNames events :=
  filterMap_findings (fun _ => rfl) events

theorem warnings_findings (events : List Event) : warnings (findings events) = warnings events :=
  filterMap_findings (fun _ => rfl) events

/-- A search for a type leaves nothing but notices. -/
def silently : Searching where
  holds computation := findings computation.trace = []
  holds_pure _ := rfl
  holds_note _ := rfl
  holds_lift value := by cases value <;> rfl
  holds_hides _ _ := rfl
  holds_fault _ := rfl
  holds_bind := by
    rintro α β ⟨trace, result⟩ next hfirst hnext
    cases result with
    | error => exact hfirst
    | ok value =>
      rw [Traced.bind_ok, findings_append, hfirst, hnext value rfl]
      rfl

/-- What comes of looking for something: it is there, with some findings; or it is not, with one
warning; or the search fails, and nothing is told. -/
inductive Comes {α : Type} (there : α → List Event → Prop) : Compilation (Option α) → Prop where
  | found {trace value} (h : there value (findings trace)) : Comes there ⟨trace, .ok (some value)⟩
  | missed {trace warning} (h : findings trace = [.warning warning]) : Comes there ⟨trace, .ok none⟩
  | failed {trace failure} (h : findings trace = []) : Comes there ⟨trace, .error failure⟩

namespace Comes

variable {α β : Type} {there : α → List Event → Prop} {computation : Compilation (Option α)}

theorem of_some (h : Comes there computation) {value : α}
    (hvalue : computation.result = .ok (some value)) :
    there value (findings computation.trace) := by
  cases h with
  | found hfound =>
    cases hvalue
    exact hfound
  | missed | failed => cases hvalue

theorem of_none (h : Comes there computation) (hnone : computation.result = .ok none) :
    ∃ warning, findings computation.trace = [.warning warning] := by
  cases h with
  | missed hmissed => exact ⟨_, hmissed⟩
  | found | failed => cases hnone

/-- A part that only leaves notices does not matter. -/
theorem after {first : Compilation β} {next : β → Compilation (Option α)}
    (hfirst : findings first.trace = [])
    (h : ∀ value, first.result = .ok value → Comes there (next value)) :
    Comes there (first >>= next) := by
  obtain ⟨trace, result⟩ := first
  cases result with
  | error => exact .failed hfirst
  | ok value =>
    have hcomes := h value rfl
    rw [Traced.bind_ok]
    generalize next value = second at hcomes ⊢
    have hsame : findings (trace ++ second.trace) = findings second.trace := by
      rw [findings_append, hfirst, nil_append]
    cases hcomes with
    | found hfound => exact .found (hsame ▸ hfound)
    | missed hmissed => exact .missed (hsame.trans hmissed)
    | failed hfailed => exact .failed (hsame.trans hfailed)

/-- Where a part is missed, so is the whole. -/
theorem search {first : Compilation (Option β)} {next : Option β → Compilation (Option α)}
    (hfirst : Comes (fun _ events => events = []) first) (hnone : next none = pure none)
    (h : ∀ value, first.result = .ok (some value) → Comes there (next (some value))) :
    Comes there (first >>= next) := by
  cases hfirst with
  | found hfound =>
    refine after hfound fun value hvalue => ?_
    cases hvalue
    exact h _ rfl
  | missed hmissed =>
    rw [Traced.bind_ok, hnone]
    exact .missed (by rwa [Traced.pure_eq, append_nil])
  | failed hfailed => exact .failed hfailed

theorem mono {other : α → List Event → Prop} (h : Comes there computation)
    (hother : ∀ value events, there value events → other value events) :
    Comes other computation := by
  cases h with
  | found hfound => exact .found (hother _ _ hfound)
  | missed hmissed => exact .missed hmissed
  | failed hfailed => exact .failed hfailed

theorem warned (warning : Json → Warning) (type : TypeExpr) :
    Comes there (do
      Compilation.warn (warning (← type.text))
      return none) := by
  refine after (silently.holds_lift _) fun text _ => ?_
  exact .missed rfl

end Comes

end Findings

/-- What the indices of a chain are taken of. -/
def Chain.root? : Chain → Option TypeExpr
  | .root type => some type
  | .index _ _ object => object.root?
  | .broken _ => none

namespace Program

variable {p : Program} {chain : Chain} {later : List String}

/-- The name that a chain starts from, and the segments of its indices from there outward. -/
inductive Spells (program : Program) : Chain → Name → List String → Prop where
  | first {access key name arguments segment}
      (h : (program.segment access key (.root (.reference name arguments))).result =
        .ok (some segment)) :
      Spells program (.index access (.ok key) (.root (.reference name arguments))) name [segment]
  | next {access key object name segments segment} (hobject : Spells program object name segments)
      (h : (program.segment access key object).result = .ok (some segment)) :
      Spells program (.index access (.ok key) object) name (segments ++ [segment])

theorem Spells.root {name : Name} {segments : List String} (h : p.Spells chain name segments) :
    ∃ arguments, chain.root? = some (.reference name arguments) := by
  induction h with
  | first => exact ⟨_, rfl⟩
  | next _ _ ih => exact ih

/-- An index has a segment, or there is one warning, or a failure. -/
theorem segment_comes (access : TypeExpr) (key : IndexKey) (object : Chain) :
    Comes (fun _ events => events = []) (p.segment access key object) := by
  cases key with
  | property | position => exact .found rfl
  | unsupported => exact .warned .unsupportedIndex access
  | element =>
    refine .after (silently.chain_type object) fun type _ => ?_
    refine .after (silently.holds_lift _) fun segment _ => ?_
    cases segment with
    | none => exact .warned .unresolvedAccess access
    | some => exact .found rfl

/-- A schema is the path of a chain into the schema of a name, and this is all that is told. -/
def IsAccessPath (program : Program) (chain : Chain) (later : List String) (schema : Schema)
    (events : List Event) : Prop :=
  ∃ name segments constant, program.Spells chain name segments ∧
    program.settings.nameOf name = .ok constant ∧
    schema = .field (some (.reference constant)) (".".intercalate (segments ++ later)) ∧
    events = [.dependency constant]

/-- A chain is compiled to its path, or it is missed with one warning, or compiling it fails. -/
theorem access_chain_comes (chain : Chain) (later : List String) :
    Comes (p.IsAccessPath chain later) (p.accessChain chain later) := by
  induction chain generalizing later with
  | broken => exact .failed rfl
  | root => exact .after (silently.holds_lift _) fun _ _ => .failed rfl
  | index access key object ih =>
    cases key with
    | error => exact .failed rfl
    | ok key =>
      refine .after (silently.holds_lift (.ok key)) fun taken htaken => ?_
      cases htaken
      have hchecked : findings (checkObject object).trace = [] := by
        unfold checkObject
        split <;> first | rfl | exact silently.holds_bind (silently.holds_lift _) fun _ _ => rfl
      refine .after hchecked fun _ _ => ?_
      refine .search (segment_comes access key object) rfl fun segment hsegment => ?_
      dsimp only
      split
      · rename_i name arguments _
        unfold reference
        cases hname : p.settings.nameOf name with
        | error => exact .failed rfl
        | ok constant =>
          exact .found ⟨name, [segment], constant, .first hsegment, hname, rfl, rfl⟩
      · refine (ih (segment :: later)).mono fun schema events hpath => ?_
        obtain ⟨name, segments, constant, hspells, hname, hschema, hevents⟩ := hpath
        rw [← singleton_append, ← append_assoc] at hschema
        exact ⟨name, _, constant, hspells.next hsegment, hname, hschema, hevents⟩

/-- A path leads into a schema that has a name. -/
theorem access_schema {schema : Schema}
    (h : (p.accessChain chain later).result = .ok (some schema)) :
    ∃ name path, schema = .field (some (.reference name)) path := by
  obtain ⟨name, segments, constant, -, -, hschema, -⟩ := (access_chain_comes chain later).of_some h
  exact ⟨constant, _, hschema⟩

/-- A chain whose indices all have segments is compiled to its path. -/
theorem access_chain_of_spells {name constant : Name} {segments : List String}
    (h : p.Spells chain name segments) (hname : p.settings.nameOf name = .ok constant)
    (later : List String) :
    (p.accessChain chain later).result =
      .ok (some (.field (some (.reference constant)) (".".intercalate (segments ++ later)))) := by
  induction h generalizing later with
  | first h =>
    refine bind_ok_iff.2 ⟨_, rfl, bind_ok_iff.2 ⟨(), rfl, bind_ok_iff.2 ⟨_, h, ?_⟩⟩⟩
    dsimp only
    rw [reference, hname]
    rfl
  | @next _ _ object _ segments segment hobject h ih =>
    have hindex : ∃ access key inner, object = .index access key inner := by
      cases hobject <;> exact ⟨_, _, _, rfl⟩
    obtain ⟨access, key, inner, rfl⟩ := hindex
    refine bind_ok_iff.2 ⟨_, rfl, bind_ok_iff.2 ⟨(), rfl, bind_ok_iff.2 ⟨_, h, ?_⟩⟩⟩
    rw [append_assoc]
    exact ih hname (segment :: later)

end Program

end Schemata
