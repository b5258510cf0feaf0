import Schemata.Proofs.Calls
import Schemata.Schema.Text

/-!
# Patterns as literals

A pattern is written between two slashes. `RegexLiteral.literal?` reads such a literal as a lexer
does: a slash closes it unless it is escaped or in a class, and no line may end before. The text of
a pattern is one literal of this pattern just when there is something between the slashes, no line
ends in it, and no slash stands bare in it, `RegexLiteral.text_literal_iff`. The patterns are those
that a tag or a custom format gives.
-/

namespace Schemata

open Traced (bind_ok_iff lift_ok_iff)

variable {formats : Json} {found : List Modifier} {chars body : List Char} {pattern : String}

namespace RegexLiteral

variable {after : List Char}

/-- Where a pattern has been read up to. -/
inductive State where
  | plain
  | inClass
  /-- After a backslash. -/
  | escaped (inClass : Bool)
  deriving DecidableEq

/-- Read one character of a pattern. -/
def State.next : State → Char → State
  | .plain, c => if c = '\\' then .escaped false else if c = '[' then .inClass else .plain
  | .inClass, c => if c = '\\' then .escaped true else if c = ']' then .plain else .inClass
  | .escaped true, _ => .inClass
  | .escaped false, _ => .plain

/-- Whether a character ends a line. -/
def endsLine (c : Char) : Bool :=
  c ∈ ['\n', '\r', '\u2028', '\u2029']

/-- Read up to the slash that closes a literal: what stands before it and what after it. -/
def closing? (state : State) : List Char → Option (List Char × List Char)
  | [] => none
  | c :: rest =>
    if endsLine c then none
    else if state = .plain ∧ c = '/' then some ([], rest)
    else (closing? (state.next c) rest).map fun (body, after) => (c :: body, after)

/-- Read a literal at the start of a text: the pattern in it and what stands after the closing
slash. Two slashes, and a slash and a star, start a comment. -/
def literal? : List Char → Option (List Char × List Char)
  | '/' :: c :: rest => if c = '/' ∨ c = '*' then none else closing? .plain (c :: rest)
  | _ => none

/-- The whole text is one literal of a pattern: after the closing slash there are flags at most, in
which there is no slash. -/
def IsLiteral (text pattern : String) : Prop :=
  ∃ flags, literal? text.toList = some (pattern.toList, flags) ∧ '/' ∉ flags

/-- What every pattern of a regular expression satisfies: no class and no escape is open at its end,
and it does not start with a repetition. -/
structure IsBody (pattern : String) : Prop where
  closed : pattern.toList.foldl State.next .plain = .plain
  start : pattern.toList.head? ≠ some '*'

/-- There is a slash that is neither escaped nor in a class. -/
def HasBareSlash (state : State) (chars : List Char) : Prop :=
  ∃ before after, chars = before ++ '/' :: after ∧ before.foldl State.next state = .plain

theorem not_has_bare_slash_nil (state : State) : ¬HasBareSlash state [] :=
  fun ⟨_, _, h, _⟩ => by simp at h

variable {state : State}

theorem has_bare_slash_cons {c : Char} {rest : List Char} :
    HasBareSlash state (c :: rest) ↔
      (state = .plain ∧ c = '/') ∨ HasBareSlash (state.next c) rest := by
  constructor
  · rintro ⟨before, after, heq, hplain⟩
    cases before with
    | nil =>
      cases heq
      exact .inl ⟨hplain, rfl⟩
    | cons a others =>
      cases heq
      exact .inr ⟨others, after, rfl, hplain⟩
  · rintro (⟨rfl, rfl⟩ | ⟨before, after, rfl, hplain⟩)
    · exact ⟨[], rest, rfl, rfl⟩
    · exact ⟨c :: before, after, rfl, hplain⟩

theorem closing_eq (h : closing? state chars = some (body, after)) :
    chars = body ++ '/' :: after := by
  induction chars generalizing state body with
  | nil => cases h
  | cons c rest ih =>
    rw [closing?] at h
    split at h
    · cases h
    · split at h
      · rename_i hslash
        cases h
        rw [hslash.2]
        rfl
      · obtain ⟨⟨inner, others⟩, hi, heq⟩ := Option.map_eq_some_iff.1 h
        cases heq
        rw [ih hi]
        rfl

/-- A pattern is read up to the slash behind it just when no line ends in it, no slash stands bare
in it, and nothing is open at its end. -/
theorem closing_iff :
    closing? state (chars ++ ['/']) = some (chars, []) ↔
      (∀ c ∈ chars, endsLine c = false) ∧ ¬HasBareSlash state chars ∧
        chars.foldl State.next state = .plain := by
  induction chars generalizing state with
  | nil =>
    by_cases hplain : state = .plain <;>
      simp [closing?, hplain, not_has_bare_slash_nil, endsLine]
  | cons c rest ih =>
    rw [List.cons_append, closing?, has_bare_slash_cons, List.forall_mem_cons, List.foldl_cons]
    split
    · rename_i hline
      simp [hline]
    · rename_i hline
      split
      · rename_i hslash
        simp [hslash]
      · rename_i hslash
        have hmap : (closing? (state.next c) (rest ++ ['/'])).map
            (fun (body, after) => (c :: body, after)) = some (c :: rest, []) ↔
              closing? (state.next c) (rest ++ ['/']) = some (rest, []) := by
          cases closing? (state.next c) (rest ++ ['/']) <;> simp [Prod.ext_iff]
        rw [hmap, ih]
        simp [hline, hslash]

theorem literal_eq (h : literal? chars = some (body, after)) :
    chars = '/' :: body ++ '/' :: after := by
  unfold literal? at h
  split at h
  · split at h
    · cases h
    · exact congrArg _ (closing_eq h)
  · cases h

/-- A literal that covers a pattern between two slashes is one of this pattern. -/
theorem eq_of_literal {flags : List Char}
    (h : literal? ('/' :: chars ++ ['/']) = some (body, flags)) (hflags : '/' ∉ flags) :
    body = chars ∧ flags = [] := by
  have heq : chars ++ ['/'] = body ++ '/' :: flags := (List.cons.inj (literal_eq h)).2
  rcases List.eq_nil_or_concat flags with rfl | ⟨others, last, rfl⟩
  · exact ⟨(List.append_cancel_right heq).symm, rfl⟩
  · rw [List.concat_eq_append, ← List.cons_append, ← List.append_assoc] at heq
    cases (List.append_inj' heq rfl).2
    exact absurd (by simp) hflags

/-- The text of a pattern is one literal of it just when it is not empty, no line ends in it and no
slash stands bare in it; and it is no literal of another pattern. -/
theorem text_literal_iff (h : IsBody pattern) :
    (IsLiteral ("/" ++ pattern ++ "/") pattern ↔
      pattern ≠ "" ∧ (∀ c ∈ pattern.toList, endsLine c = false) ∧
        ¬HasBareSlash .plain pattern.toList) ∧
      ∀ other, IsLiteral ("/" ++ pattern ++ "/") other → other = pattern := by
  have htext : ("/" ++ pattern ++ "/").toList = '/' :: pattern.toList ++ ['/'] := by simp
  refine ⟨?_, fun other ⟨flags, hliteral, hflags⟩ => ?_⟩
  · have hwhole : IsLiteral ("/" ++ pattern ++ "/") pattern ↔
        literal? ('/' :: pattern.toList ++ ['/']) = some (pattern.toList, []) := by
      rw [IsLiteral, htext]
      refine ⟨fun ⟨flags, hliteral, hflags⟩ => ?_, fun h => ⟨[], h, List.not_mem_nil⟩⟩
      rw [hliteral, (eq_of_literal hliteral hflags).2]
    rw [hwhole]
    obtain ⟨hclosed, hstart⟩ := h
    cases hchars : pattern.toList with
    | nil =>
      have hempty : pattern = "" := String.toList_inj.1 hchars
      simp [literal?, hempty]
    | cons c =>
      have hsome : pattern ≠ "" := fun heq => by simp [heq] at hchars
      rw [hchars] at hclosed hstart
      by_cases hslash : c = '/'
      · simp [literal?, hslash, has_bare_slash_cons]
      · have hstar : c ≠ '*' := fun heq => hstart (by simp [heq])
        rw [List.cons_append, List.cons_append, literal?, if_neg (by simp [hslash, hstar]),
          ← List.cons_append, closing_iff]
        simp [hsome, hclosed]
  · rw [htext] at hliteral
    exact String.toList_inj.1 (eq_of_literal hliteral hflags).1

end RegexLiteral

open RegexLiteral Refinement

/-- The patterns that are given: by a tag, and by a custom format that a tag names, as a text or
with a message. -/
inductive GivesPattern (tags : Tags) (formats : Json) : String → Prop where
  | tag {text} (h : tags.get? "pattern" = some text) : GivesPattern tags formats (Text.trim text)
  | format {text pattern fields} (h : tags.get? "format" = some text)
      (hformats : formats = .obj fields)
      (hpattern : Json.field? (Text.firstWord text).1 fields = some (.str pattern)) :
      GivesPattern tags formats pattern
  | detailed {text pattern fields inner} (h : tags.get? "format" = some text)
      (hformats : formats = .obj fields)
      (hinner : Json.field? (Text.firstWord text).1 fields = some (.obj inner))
      (hpattern : Json.field? "regex" inner = some (.str pattern)) :
      GivesPattern tags formats pattern

theorem format_of_custom {usual : Json} {text : String}
    (hcustom : customFormat? formats (Text.firstWord text).1 = .ok (some (.str pattern, usual)))
    (h : (format formats text).result = .ok found) :
    ∃ messages, found = [⟨"regex", .regex (.str pattern) :: messages, false⟩] := by
  unfold format at h
  generalize Text.firstWord text = word at h hcustom
  obtain ⟨name, message⟩ := word
  obtain ⟨custom, hn, h⟩ := bind_ok_iff.1 h
  cases hcustom.symm.trans (lift_ok_iff.1 hn)
  cases h
  exact ⟨_, rfl⟩

theorem custom_format_of_field {name : String} {fields : List (String × Json)} {given : Json}
    (h : Json.field? name fields = some given) :
    customFormat? (.obj fields) name = (do return some (← customFormat given)) := by
  have hany : fields.any (fun field => field.1 = name) = true :=
    List.any_eq_true.2 ⟨_, Json.mem_of_field h, by simp⟩
  rw [customFormat?, Json.holds, hany, Json.get?, h]
  rfl

/-- Every pattern that is given becomes the argument of a modifier. -/
theorem modifier_of_given {ctx : Context} (hgiven : GivesPattern ctx.tags formats pattern)
    (h : (ctx.modifiers formats).result = .ok found) :
    ∃ messages, ⟨"regex", .regex (.str pattern) :: messages, false⟩ ∈ found := by
  unfold Context.modifiers at h
  obtain ⟨minimum, -, h⟩ := bind_ok_iff.1 h
  obtain ⟨maximum, -, h⟩ := bind_ok_iff.1 h
  obtain ⟨minLength, -, h⟩ := bind_ok_iff.1 h
  obtain ⟨maxLength, -, h⟩ := bind_ok_iff.1 h
  obtain ⟨formatted, hformatted, h⟩ := bind_ok_iff.1 h
  cases h
  have hcustom {text : String} {usual : Json} (htag : ctx.tags.get? "format" = some text)
      (hcustom : customFormat? formats (Text.firstWord text).1 = .ok (some (.str pattern, usual))) :
      ∃ messages, ⟨"regex", .regex (.str pattern) :: messages, false⟩ ∈ formatted := by
    rw [tagged, htag] at hformatted
    obtain ⟨messages, rfl⟩ := format_of_custom hcustom hformatted
    exact ⟨messages, List.mem_singleton.2 rfl⟩
  simp only [List.mem_append]
  cases hgiven with
  | tag htag =>
    refine ⟨[], .inl (.inl (.inl (.inl (.inl (.inl (.inr ?_))))))⟩
    rw [valued, htag]
    exact List.mem_singleton.2 rfl
  | format htag hformats hpattern =>
    subst hformats
    obtain ⟨messages, hmem⟩ := hcustom htag (custom_format_of_field hpattern)
    exact ⟨messages, by simp [hmem]⟩
  | @detailed text pattern fields inner htag hformats hi hpattern =>
    subst hformats
    have hfield : customFormat (.obj inner) =
        .ok (.str pattern, (Json.field? "errorMessage" inner).getD .null) := by
      rw [customFormat, hpattern]
      rfl
    obtain ⟨messages, hmem⟩ := hcustom htag ((custom_format_of_field hi).trans (by
      rw [hfield]; rfl))
    exact ⟨messages, by simp [hmem]⟩

/-- The text that is written for a pattern that is given, whatever it is given by, is one literal of
this pattern just when the pattern is not empty, no line ends in it and no slash stands bare in it;
and it is never a literal of another pattern. -/
theorem given_pattern_literal_iff {formats : Json} {context : Context} {found : List Modifier}
    {pattern : String} (z : String) (hgiven : GivesPattern context.tags formats pattern)
    (hbody : IsBody pattern) (h : (context.modifiers formats).result = .ok found) :
    ∃ messages text, ⟨"regex", .regex (.str pattern) :: messages, false⟩ ∈ found ∧
      (Schema.regex (.str pattern)).text z = .ok text ∧
      (IsLiteral text pattern ↔ pattern ≠ "" ∧ (∀ c ∈ pattern.toList, endsLine c = false) ∧
        ¬HasBareSlash .plain pattern.toList) ∧
      ∀ other, IsLiteral text other → other = pattern := by
  obtain ⟨messages, hmem⟩ := modifier_of_given hgiven h
  exact ⟨messages, _, hmem, rfl, text_literal_iff hbody⟩

/-- A slash in a class and an escaped one do not close the literal. -/
theorem shielded_slashes_literal : ∃ messages text,
    ⟨"regex", .regex (.str "^[/a]+\\/$") :: messages, false⟩ ∈
        [(⟨"regex", [.regex (.str "^[/a]+\\/$")], false⟩ : Modifier)] ∧
      (Schema.regex (.str "^[/a]+\\/$")).text "z" = .ok text ∧
      IsLiteral text "^[/a]+\\/$" := by
  have hbody : IsBody "^[/a]+\\/$" := ⟨by decide, by decide⟩
  obtain ⟨messages, text, hmem, htext, hliteral, -⟩ := given_pattern_literal_iff "z"
    (@GivesPattern.tag [("pattern", " ^[/a]+\\/$")] (.obj []) _ rfl) hbody
    (show (Context.modifiers (.obj []) { tags := [("pattern", " ^[/a]+\\/$")] }).result = .ok _
      from rfl)
  have hlines : ∀ c ∈ "^[/a]+\\/$".toList, endsLine c = false := by
    have hall : "^[/a]+\\/$".toList.all (!endsLine ·) = true := rfl
    simpa using hall
  refine ⟨messages, text, hmem, htext, hliteral.2 ⟨by decide, hlines, ?_⟩⟩
  simp [has_bare_slash_cons, not_has_bare_slash_nil, State.next]

/-- A slash that stands bare closes the literal before the pattern ends. -/
theorem bare_slash_splits_pattern :
    GivesPattern [("pattern", "a/b")] (.obj []) "a/b" ∧ IsBody "a/b" ∧
      (Schema.regex (.str "a/b")).text "z" = .ok "/a/b/" ∧
      ∀ pattern, ¬IsLiteral "/a/b/" pattern := by
  refine ⟨@GivesPattern.tag [("pattern", "a/b")] (.obj []) _ rfl, ⟨by decide, by decide⟩, rfl, ?_⟩
  rintro pattern ⟨flags, hliteral, hflags⟩
  have hsplit : literal? "/a/b/".toList = some (['a'], ['b', '/']) := by decide
  cases (Prod.mk.inj (Option.some.inj (hsplit.symm.trans hliteral))).2
  exact hflags (by decide)

end Schemata
