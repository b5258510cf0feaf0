import Schemata.Access
import Schemata.Proofs.ValueTexts

/-!
# Names of properties

A property is named by its key in an object literal and by a segment in a path. `propertyOf?` reads
a key as it is read in an object literal: a string literal stands for the text it spells, and a word
for itself, without the blanks after it. A key that is a word and a line break is taken for a word,
so that it is read as the word alone; `written_key_denotes` says that this is the only exception. A
segment puts a key between quotes as it is; `segment_faithful_iff` says which keys are read back.
-/

namespace Schemata

open List

variable {text : String}

namespace Identifier

/-- Whether the text is made of letters, digits, underscores and dollar signs, with no digit first.
-/
def isWord (text : String) : Bool :=
  match text.toList with
  | [] => false
  | c :: rest => isStart c && rest.all isPart

/-- A word and a line break. -/
def IsWordLine (text : String) : Prop :=
  ∃ word, isWord word = true ∧ text = word ++ "\n"

theorem is_word_iff :
    isWord text = true ↔
      ∃ c rest, text.toList = c :: rest ∧ isStart c = true ∧ ∀ d ∈ rest, isPart d = true := by
  unfold isWord
  cases text.toList with
  | nil => simp
  | cons c rest =>
    simp only [Bool.and_eq_true, all_eq_true]
    refine ⟨fun h => ⟨c, rest, rfl, h⟩, ?_⟩
    rintro ⟨_, _, heq, h⟩
    cases heq
    exact h

theorem isPart_of_isWord (h : isWord text = true) {c : Char}
    (hc : c ∈ text.toList) : isPart c = true := by
  obtain ⟨first, rest, hchars, hstart, hrest⟩ := is_word_iff.1 h
  rw [hchars] at hc
  rcases mem_cons.1 hc with rfl | hc
  · exact isPart_of_isStart hstart
  · exact hrest c hc

/-- Characters after the first one may stand in an identifier when all are parts of words, but for a
line break at the end. -/
theorem is_tail_iff {cs : List Char} :
    isTail cs = true ↔
      (∀ c ∈ cs, isPart c = true) ∨
        ∃ front, cs = front ++ ['\n'] ∧ ∀ c ∈ front, isPart c = true := by
  induction cs with
  | nil => simp [isTail]
  | cons c rest ih =>
    simp only [isTail, Bool.or_eq_true, Bool.and_eq_true, decide_eq_true_eq, List.isEmpty_iff,
      ih]
    constructor
    · rintro (⟨rfl, rfl⟩ | ⟨hc, hrest | ⟨front, rfl, hfront⟩⟩)
      · exact .inr ⟨[], rfl, by simp⟩
      · exact .inl (forall_mem_cons.2 ⟨hc, hrest⟩)
      · exact .inr ⟨c :: front, rfl, forall_mem_cons.2 ⟨hc, hfront⟩⟩
    · rintro (h | ⟨front, heq, hfront⟩)
      · exact .inr ⟨(forall_mem_cons.1 h).1, .inl (forall_mem_cons.1 h).2⟩
      · cases front with
        | nil =>
          cases heq
          exact .inl ⟨rfl, rfl⟩
        | cons d front =>
          cases heq
          exact .inr ⟨(forall_mem_cons.1 hfront).1, .inr ⟨front, rfl, (forall_mem_cons.1 hfront).2⟩⟩

/-- A text is taken for an identifier when it is a word, or a word and a line break. -/
theorem is_identifier_iff : isIdentifier text = true ↔ isWord text = true ∨ IsWordLine text := by
  unfold isIdentifier
  constructor
  · intro h
    cases hchars : text.toList with
    | nil => simp [hchars, isIdentifierChars] at h
    | cons c rest =>
      rw [hchars, isIdentifierChars, Bool.and_eq_true, is_tail_iff] at h
      obtain ⟨hstart, hrest | ⟨front, rfl, hfront⟩⟩ := h
      · exact .inl (is_word_iff.2 ⟨c, rest, hchars, hstart, hrest⟩)
      · refine .inr ⟨String.ofList (c :: front),
          is_word_iff.2 ⟨c, front, by simp, hstart, hfront⟩, ?_⟩
        rw [← String.toList_inj, hchars, String.toList_append, String.toList_ofList]
        rfl
  · rintro (h | ⟨word, h, rfl⟩)
    · obtain ⟨c, rest, hchars, hstart, hrest⟩ := is_word_iff.1 h
      rw [hchars, isIdentifierChars, hstart, is_tail_iff.2 (.inl hrest)]
      rfl
    · obtain ⟨c, rest, hchars, hstart, hrest⟩ := is_word_iff.1 h
      rw [String.toList_append, hchars, cons_append, isIdentifierChars, hstart]
      exact is_tail_iff.2 (.inr ⟨rest, rfl, hrest⟩)

/-- A word and a line break is no word. -/
theorem IsWordLine.not_word (h : IsWordLine text) : isWord text = false := by
  obtain ⟨word, -, rfl⟩ := h
  rw [Bool.eq_false_iff]
  intro h
  exact absurd (isPart_of_isWord h (c := '\n') (by simp)) (by decide)

end Identifier

open Identifier (isIdentifier isWord isStart isPart IsWordLine)

section Keys

/-- The property that a written key stands for. -/
def propertyOf? (text : String) : Option String :=
  if text.toList.head? = some '"' then
    match Json.readText text.toList.tail with
    | some (key, []) => some key
    | _ => none
  else
    let word := String.ofList (text.toList.reverse.dropWhile Json.isSpace).reverse
    if isWord word then some word else none

theorem parse_literal (key : String) : Json.parse (Json.literal key) = .ok (.str key) := by
  have h := Json.parse_render (.str key)
  rwa [Json.render] at h

theorem property_of_literal (key : String) : propertyOf? (Json.literal key) = some key := by
  have hchars := Json.literal_chars_eq key []
  rw [append_nil] at hchars
  rw [propertyOf?, hchars, head?_cons, if_pos rfl, tail_cons, Json.read_text_literal]

theorem not_space_of_part {c : Char} (h : isPart c = true) : Json.isSpace c = false := by
  rw [Bool.eq_false_iff]
  intro hspace
  simp only [Json.isSpace, Bool.or_eq_true, decide_eq_true_eq] at hspace
  rcases hspace with ((rfl | rfl) | rfl) | rfl <;> exact absurd h (by decide)

/-- A word stands for itself, whatever blanks follow it. -/
theorem property_of_word {word : String} (h : isWord word = true) {blanks : String}
    (hblanks : ∀ c ∈ blanks.toList, Json.isSpace c = true) :
    propertyOf? (word ++ blanks) = some word := by
  obtain ⟨c, rest, hchars, hstart, -⟩ := Identifier.is_word_iff.1 h
  have hquote : ¬(word ++ blanks).toList.head? = some '"' := by
    rw [String.toList_append, hchars, cons_append, head?_cons, Option.some.injEq]
    rintro rfl
    exact absurd hstart (by decide)
  have hlast : word.toList.reverse.dropWhile Json.isSpace = word.toList.reverse := by
    cases hreverse : word.toList.reverse with
    | nil => rfl
    | cons last front =>
      have hmem : last ∈ word.toList := by
        rw [← mem_reverse, hreverse]
        exact mem_cons_self
      rw [dropWhile_cons_of_neg]
      rw [not_space_of_part (Identifier.isPart_of_isWord h hmem)]
      exact Bool.false_ne_true
  have hword : (word ++ blanks).toList.reverse.dropWhile Json.isSpace = word.toList.reverse := by
    rw [String.toList_append, reverse_append, dropWhile_append_of_pos, hlast]
    exact fun c hc => hblanks c (mem_reverse.1 hc)
  rw [propertyOf?, if_neg hquote, hword, reverse_reverse, String.ofList_toList]
  exact if_pos h

/-- A key that is not a word with a line break stands for itself. -/
theorem property_of_key {key : String} (h : ¬IsWordLine key) :
    propertyOf? (Schema.keyText key) = some key := by
  unfold Schema.keyText
  split
  · rename_i hidentifier
    have hword := (Identifier.is_identifier_iff.1 hidentifier).resolve_right h
    have hproperty : propertyOf? (key ++ "") = some key := property_of_word hword (by simp)
    rwa [String.append_empty] at hproperty
  · exact property_of_literal key

/-- A key that is a word and a line break stands for the word. -/
theorem property_of_line {word : String} (h : isWord word = true) :
    propertyOf? (Schema.keyText (word ++ "\n")) = some word := by
  rw [Schema.keyText, if_pos (Identifier.is_identifier_iff.2 (.inr ⟨word, h, rfl⟩))]
  refine property_of_word h fun c hc => ?_
  obtain rfl : c = '\n' := by simpa using hc
  rfl

/-- A key is written as it is, if it is a word, or as a string literal that spells it, unless it is
a word and a line break. Two keys are read as the same property exactly when one of them is a word
and the other this word and a line break, if they are not the same. -/
theorem written_key_denotes (key other : String) :
    ((Schema.keyText key = key ∧ isWord key = true ∨
        Schema.keyText key = Json.literal key ∧ Json.parse (Schema.keyText key) = .ok (.str key)) ↔
      ¬IsWordLine key) ∧
    (propertyOf? (Schema.keyText key) = propertyOf? (Schema.keyText other) ↔
      key = other ∨ isWord other = true ∧ key = other ++ "\n" ∨
        isWord key = true ∧ other = key ++ "\n") := by
  have hno {word : String} (h : isWord word = true) : ¬IsWordLine word := fun hline => by
    rw [hline.not_word] at h
    cases h
  constructor
  · constructor
    · rintro (⟨-, hword⟩ | ⟨hliteral, -⟩) hline
      · exact hno hword hline
      · obtain ⟨word, hword, rfl⟩ := hline
        have hsame := property_of_line hword
        rw [hliteral, property_of_literal, Option.some.injEq] at hsame
        exact hno hword ⟨word, hword, hsame.symm⟩
    · intro hline
      unfold Schema.keyText
      split
      · rename_i h
        exact .inl ⟨rfl, (Identifier.is_identifier_iff.1 h).resolve_right hline⟩
      · exact .inr ⟨rfl, parse_literal key⟩
  · constructor
    · intro h
      by_cases hkey : IsWordLine key <;> by_cases hother : IsWordLine other
      · obtain ⟨word, hword, rfl⟩ := hkey
        obtain ⟨word', hword', rfl⟩ := hother
        rw [property_of_line hword, property_of_line hword'] at h
        cases h
        exact .inl rfl
      · obtain ⟨word, hword, rfl⟩ := hkey
        rw [property_of_line hword, property_of_key hother] at h
        cases h
        exact .inr (.inl ⟨hword, rfl⟩)
      · obtain ⟨word, hword, rfl⟩ := hother
        rw [property_of_line hword, property_of_key hkey] at h
        cases h
        exact .inr (.inr ⟨hword, rfl⟩)
      · rw [property_of_key hkey, property_of_key hother] at h
        cases h
        exact .inl rfl
    · rintro (rfl | ⟨hword, rfl⟩ | ⟨hword, rfl⟩)
      · rfl
      · rw [property_of_line hword, property_of_key (hno hword)]
      · rw [property_of_line hword, property_of_key (hno hword)]

/-- The key `a` with a line break is written without quotes, so that it is read as the key `a`. -/
theorem line_break_lost :
    Schema.keyText "a\n" = "a\n" ∧ isWord "a\n" = false ∧
      propertyOf? (Schema.keyText "a\n") = propertyOf? (Schema.keyText "a") := by
  decide

end Keys

section Segments

/-- The text can stand between quotes as it is. -/
def IsPlain (text : String) : Prop :=
  ∀ c ∈ text.toList, c ≠ '"' ∧ c ≠ '\\' ∧ 0x20 ≤ c.toNat

/-- A segment of a path leads to the property of a key: it has the key as a word or in brackets, as
a string literal that spells it. -/
def IsFaithful (key segment : String) : Prop :=
  if isWord key then segment = "shape." ++ key
  else ∃ literal, segment = "shape[" ++ literal ++ "]" ∧ Json.parse literal = .ok (.str key)

theorem escape_plain {c : Char} (hquote : c ≠ '"') (hslash : c ≠ '\\') (h : 0x20 ≤ c.toNat) :
    Json.escapeChar c = [c] := by
  have hne {other : Char} (hother : other.toNat < 0x20) : c ≠ other := by
    rintro rfl
    omega
  rw [Json.escapeChar, if_neg hquote, if_neg hslash, if_neg (hne (by decide)),
    if_neg (hne (by decide)), if_neg (hne (by decide)), if_neg (hne (by decide)),
    if_neg (hne (by decide)), if_neg (by omega)]

/-- The string literal of a plain text is the text between quotes. -/
theorem literal_plain (h : IsPlain text) : Json.literal text = "\"" ++ text ++ "\"" := by
  have hchars : text.toList.flatMap Json.escapeChar = text.toList := by
    unfold IsPlain at h
    generalize text.toList = cs at h
    induction cs with
    | nil => rfl
    | cons c rest ih =>
      obtain ⟨⟨hquote, hslash, hc⟩, hrest⟩ := forall_mem_cons.1 h
      rw [flatMap_cons, escape_plain hquote hslash hc, ih hrest]
      rfl
  rw [← String.toList_inj, Json.literal, String.toList_ofList, Json.literalChars, hchars]
  simp

/-- What is read of a string literal is not longer than what is written, and as long only where the
characters stand as they are. -/
theorem read_units_cases {cs after : List Char} {units : List Nat}
    (h : Json.readUnits cs = some (units, after)) :
    ∃ shown, cs = shown ++ '"' :: after ∧ units.length ≤ shown.length ∧
      (shown.length ≤ units.length → ∀ c ∈ shown, c ≠ '"' ∧ c ≠ '\\' ∧ 0x20 ≤ c.toNat) := by
  fun_induction Json.readUnits cs generalizing units after with
  | case1 => cases h
  | case2 rest =>
    cases h
    exact ⟨[], rfl, Nat.le_refl 0, by simp⟩
  | case3 => cases h
  | case4 a b c d rest unit hunit ih =>
    obtain ⟨⟨others, rest⟩, hothers, heq⟩ := Option.map_eq_some_iff.1 h
    cases heq
    obtain ⟨shown, rfl, hle, -⟩ := ih hothers
    exact ⟨'\\' :: 'u' :: a :: b :: c :: d :: shown, rfl, by simp; omega, by simp; omega⟩
  | case5 => cases h
  | case6 c rest hc plain hplain ih =>
    obtain ⟨⟨others, rest⟩, hothers, heq⟩ := Option.map_eq_some_iff.1 h
    cases heq
    obtain ⟨shown, rfl, hle, -⟩ := ih hothers
    exact ⟨'\\' :: c :: shown, rfl, by simp; omega, by simp; omega⟩
  | case7 => cases h
  | case8 c rest hquote hu hslash hc ih =>
    obtain ⟨⟨others, rest⟩, hothers, heq⟩ := Option.map_eq_some_iff.1 h
    cases heq
    obtain ⟨shown, rfl, hle, hshown⟩ := ih hothers
    refine ⟨c :: shown, rfl, by simpa using hle, fun hlen => forall_mem_cons.2 ⟨?_, ?_⟩⟩
    · rw [not_or, Nat.not_lt] at hc
      exact ⟨hquote, hc.2, hc.1⟩
    · exact hshown (by simpa using hlen)

theorem length_join_units_le (units : List Nat) : (Json.joinUnits units).length ≤ units.length := by
  fun_induction Json.joinUnits units <;> simp <;> omega

/-- A text between quotes spells itself just when it is plain. -/
theorem parse_quoted_iff : Json.parse ("\"" ++ text ++ "\"") = .ok (.str text) ↔ IsPlain text := by
  constructor
  · intro h
    have hchars : ("\"" ++ text ++ "\"").toList = '"' :: (text.toList ++ ['"']) := by simp
    rw [Json.parse, hchars, Json.skipSpace, dropWhile_cons_of_neg (by decide),
      Json.read_value_scalar (Nat.succ_pos _) (by decide) (by decide), Json.readScalar,
      Json.readText] at h
    cases hunits : Json.readUnits (text.toList ++ ['"']) with
    | none => simp [hunits, Json.ReadError.require, bind, Except.bind] at h
    | some found =>
      obtain ⟨units, after⟩ := found
      obtain ⟨shown, heq, hle, hplain⟩ := read_units_cases hunits
      have hread : Json.joinUnits units = text.toList := by
        rw [hunits] at h
        change (if (Json.skipSpace after).isEmpty then Except.ok (Json.str _) else _) = _ at h
        split at h
        · cases h
          exact String.toList_ofList.symm
        · cases h
      have hlength := congrArg length heq
      have hjoined := length_join_units_le units
      rw [hread] at hjoined
      simp only [length_append, length_cons, length_nil] at hlength
      obtain rfl : after = [] := eq_nil_of_length_eq_zero (by omega)
      obtain rfl : text.toList = shown := append_cancel_right heq
      exact hplain (by omega)
  · intro h
    rw [← literal_plain h]
    exact parse_literal text

theorem plain_of_word {key : String} (h : isWord key = true) : IsPlain key := by
  intro c hc
  have hpart := Identifier.isPart_of_isWord h hc
  have hne {other : Char} (hother : isPart other = false) : c ≠ other := by
    rintro rfl
    rw [hpart] at hother
    cases hother
  have hcontrol : ∀ n < 0x20, isPart (Char.ofNat n) = false := by decide
  refine ⟨hne (by decide), hne (by decide), Nat.not_lt.1 fun hlt => ?_⟩
  exact hne (hcontrol c.toNat hlt) (Char.ofNat_toNat c).symm

theorem IsPlain.not_line {key : String} (h : IsPlain key) : ¬IsWordLine key := by
  rintro ⟨word, -, rfl⟩
  exact absurd (h '\n' (by simp)).2.2 (by decide)

/-- A segment leads to the property of its key just when the key is plain. -/
theorem faithful_iff_plain (key : String) : IsFaithful key (shapeSegment key) ↔ IsPlain key := by
  unfold IsFaithful shapeSegment
  by_cases hidentifier : isIdentifier key = true
  · rw [if_pos hidentifier]
    rcases Identifier.is_identifier_iff.1 hidentifier with hword | hline
    · rw [if_pos hword]
      exact iff_of_true rfl (plain_of_word hword)
    · rw [hline.not_word]
      refine iff_of_false ?_ fun h => h.not_line hline
      rintro ⟨literal, heq, -⟩
      have hsixth := congrArg (fun text => text.toList[5]?) heq
      simp at hsixth
  · have hword : ¬isWord key = true :=
      fun h => hidentifier (Identifier.is_identifier_iff.2 (.inl h))
    have hsegment : "shape[\"" ++ key ++ "\"]" = "shape[" ++ ("\"" ++ key ++ "\"") ++ "]" := by
      simp [← String.toList_inj]
    rw [if_neg hidentifier, if_neg hword, hsegment]
    refine ⟨?_, fun h => ⟨_, rfl, parse_quoted_iff.2 h⟩⟩
    rintro ⟨literal, heq, hparse⟩
    rw [String.append_left_inj, String.append_right_inj] at heq
    rw [← heq] at hparse
    exact parse_quoted_iff.1 hparse

/-- The segment of a key leads to its property exactly when all characters of the key can stand in a
string literal as they are, and then it has the key as an object literal has it. -/
theorem segment_faithful_iff (key : String) :
    (IsFaithful key (shapeSegment key) ↔ IsPlain key) ∧
      (IsPlain key → shapeSegment key =
        if isWord key then "shape." ++ Schema.keyText key
        else "shape[" ++ Schema.keyText key ++ "]") := by
  refine ⟨faithful_iff_plain key, fun hplain => ?_⟩
  have hsame : isIdentifier key = isWord key := by
    rw [Bool.eq_iff_iff, Identifier.is_identifier_iff]
    exact or_iff_left hplain.not_line
  rw [shapeSegment, Schema.keyText, hsame]
  by_cases hword : isWord key = true
  · rw [if_pos hword, if_pos hword, if_pos hword]
  · rw [if_neg hword, if_neg hword, if_neg hword, literal_plain hplain]
    simp [← String.toList_inj]

/-- A quote in a key ends the string literal of its segment. -/
theorem quote_ends_segment :
    shapeSegment "a\"b" = "shape[\"a\"b\"]" ∧ Schema.keyText "a\"b" = "\"a\\\"b\"" ∧
      ¬IsFaithful "a\"b" (shapeSegment "a\"b") := by
  refine ⟨by decide, by decide, fun h => ?_⟩
  exact absurd ((faithful_iff_plain _).1 h '"' (by decide)).1 (by decide)

end Segments

end Schemata
