import Schemata.Refinement
import Schemata.Schema.Text

/-!
# Reading written values

The text of a value without double-precision numbers is read back as the value. A string literal is
read up to its closing quote, whatever follows it, and the digits of an integer up to what is no
digit. `Reads` says so of a value before a comma, a closing bracket or the end, and it goes from the
items of a list and the fields of an object to the whole. As such a text has no blank at its ends,
`default_value_survives` says that a default value is kept by the tag that spells it.
-/

namespace Schemata.Json

open List

variable {c : Char}

section Literals

/-- The digit of a number below sixteen has that number as its value. -/
theorem hex_value_digit : ∀ n < 16, hexValue? (hexDigit n) = some n := by decide

/-- A character that a string literal shows by its number is read back. -/
theorem hex_unit_digits (h : c.toNat < 0x20) :
    hexUnit? '0' '0' (hexDigit (c.toNat / 16)) (hexDigit (c.toNat % 16)) = some c.toNat := by
  have hzero : hexValue? '0' = some 0 := by decide
  rw [hexUnit?, hzero, hex_value_digit _ (by omega), hex_value_digit _ (by omega)]
  exact congrArg some (by omega)

/-- How a character stands in a string literal: after a backslash there is a letter for it or its
number, and any other character stands for itself. -/
inductive Escaped (c : Char) : List Char → Prop where
  | letter {letter} (hletter : letter ≠ 'u') (h : unescape? letter = some c) :
      Escaped c ['\\', letter]
  | number (h : c.toNat < 0x20) :
      Escaped c ['\\', 'u', '0', '0', hexDigit (c.toNat / 16), hexDigit (c.toNat % 16)]
  | plain (hquote : c ≠ '"') (hslash : c ≠ '\\') (h : ¬c.toNat < 0x20) : Escaped c [c]

theorem escaped_escape_char (c : Char) : Escaped c (escapeChar c) := by
  have hletter {plain letter : Char} (h : c = plain)
      (hread : letter ≠ 'u' ∧ unescape? letter = some plain) : Escaped c ['\\', letter] := by
    subst h
    exact .letter hread.1 hread.2
  unfold escapeChar
  repeat' split
  iterate 7 exact hletter ‹_› (by decide)
  · exact .number ‹_›
  · exact .plain ‹_› ‹_› ‹_›

/-- The characters of a string literal up to its closing quote are read as what they stand for. -/
theorem read_units_escaped (cs rest : List Char) :
    readUnits (cs.flatMap escapeChar ++ '"' :: rest) = some (cs.map Char.toNat, rest) := by
  induction cs with
  | nil => simp [readUnits]
  | cons c cs ih =>
    rw [flatMap_cons, append_assoc, map_cons]
    have hescaped := escaped_escape_char c
    generalize escapeChar c = shown at hescaped
    cases hescaped with
    | @letter letter hletter h =>
      rw [cons_append, singleton_append, readUnits, h, ih]
      · rfl
      · exact fun _ _ _ _ _ heq => (hletter heq).elim
    | number h => simp [readUnits, hex_unit_digits h, ih]
    | plain hquote hslash h =>
      rw [singleton_append, readUnits, if_neg (by simp [h, hslash]), ih]
      · rfl
      · exact hquote
      · exact fun _ _ _ _ _ heq => (hslash heq).elim
      · exact fun _ _ heq => (hslash heq).elim

/-- A character is no half of a pair of code units. -/
theorem not_surrogate (c : Char) : ¬(0xd800 ≤ c.toNat ∧ c.toNat < 0xe000) := by
  have h := c.valid
  simp only [UInt32.isValidChar, Nat.isValidChar] at h
  have : c.toNat = c.val.toNat := rfl
  omega

/-- Characters are read back from their numbers. -/
theorem join_units_chars (cs : List Char) : joinUnits (cs.map Char.toNat) = cs := by
  have hunit (c : Char) : unitChar c.toNat = c := by
    rw [unitChar, if_neg (not_surrogate c), Char.ofNat_toNat]
  induction cs with
  | nil => rfl
  | cons c cs ih =>
    cases cs with
    | nil => simp [joinUnits, hunit]
    | cons next =>
      have hpair : ¬((0xd800 ≤ c.toNat ∧ c.toNat < 0xdc00) ∧
          (0xdc00 ≤ next.toNat ∧ next.toNat < 0xe000)) := by
        have := not_surrogate c
        omega
      rw [map_cons, map_cons, joinUnits, if_neg hpair, hunit]
      exact congrArg (c :: ·) ih

/-- A string literal is read back as the text it was written for, whatever follows it. -/
theorem read_text_literal (text : String) (rest : List Char) :
    readText (text.toList.flatMap escapeChar ++ '"' :: rest) = some (text, rest) := by
  rw [readText, read_units_escaped]
  simp [join_units_chars]

theorem literal_chars_eq (text : String) (rest : List Char) :
    (literal text).toList ++ rest = '"' :: (text.toList.flatMap escapeChar ++ '"' :: rest) := by
  simp [literal, literalChars]

end Literals

section Numbers

/-- A word of characters of a class is cut off where a character of another class follows. -/
theorem cut_word {isPart : Char → Bool} {word rest : List Char}
    (hword : ∀ c ∈ word, isPart c = true) (hr : ∀ c ∈ rest.head?, isPart c = false) :
    (word ++ rest).takeWhile isPart = word ∧ (word ++ rest).dropWhile isPart = rest := by
  rw [takeWhile_append_of_pos hword, dropWhile_append_of_pos hword]
  cases rest with
  | nil => simp
  | cons c =>
    have hc := hr c rfl
    simp [hc]

/-- The digits of a number. -/
def digits (n : Nat) : List Char := Nat.toDigits 10 n

theorem digits_value (n : Nat) : Text.digitsValue (digits n) = n := Nat.ofDigitChars_ten_toDigits

theorem is_digit_of_mem {n : Nat} (h : c ∈ digits n) : c.isDigit = true :=
  Nat.isDigit_of_mem_toDigits (by decide) (by decide) h

/-- The digits of a number start with no zero, unless the number is zero. -/
theorem digits_cases (n : Nat) :
    digits n = ['0'] ∨ ∃ c cs, digits n = c :: cs ∧ c ≠ '0' ∧ c.isDigit = true := by
  induction n using Nat.strongRecOn with
  | ind n ih =>
    by_cases hn : n < 10
    · have ha : ∀ n < 10, n.digitChar = '0' ∨
          n.digitChar ≠ '0' ∧ n.digitChar.isDigit = true := by decide
      rw [digits, Nat.toDigits_of_lt_base hn]
      rcases ha n hn with hzero | ⟨hc, hdigit⟩
      · exact .inl (by rw [hzero])
      · exact .inr ⟨_, [], rfl, hc, hdigit⟩
    · have hdigits : digits n = digits (n / 10) ++ [(n % 10).digitChar] :=
        Nat.toDigits_of_base_le (by decide) (by omega)
      rcases ih (n / 10) (by omega) with hzero | ⟨c, cs, heq, hc, hdigit⟩
      · have hv := digits_value (n / 10)
        rw [hzero] at hv
        have : n / 10 = 0 := hv.symm
        omega
      · exact .inr ⟨c, cs ++ [(n % 10).digitChar], by rw [hdigits, heq]; rfl, hc, hdigit⟩

/-- The digits of a number are read as its whole part. -/
theorem read_whole_digits (n : Nat) {rest : List Char} (hr : ∀ c ∈ rest.head?, c.isDigit = false) :
    readWhole (digits n ++ rest) = some (digits n, rest) := by
  rcases digits_cases n with hzero | ⟨c, cs, heq, hc, hdigit⟩
  · rw [hzero]
    rfl
  · have hcut := @cut_word Char.isDigit cs rest
      (fun d hd => is_digit_of_mem (n := n) (heq ▸ mem_cons_of_mem c hd)) hr
    rw [heq, cons_append, readWhole, if_pos hdigit, hcut.1, hcut.2]
    exact fun h => (hc h).elim

/-- The text of an integer: a sign, if it is negative, and its digits. -/
theorem render_int_chars (v : Int) :
    (render (.int v)).toList = (if v < 0 then ['-'] else []) ++ digits v.natAbs := by
  rw [render, Int.toString_eq_repr, Int.repr_eq_if]
  by_cases h : 0 ≤ v
  · rw [if_pos h, if_neg (by omega), Nat.repr_eq_ofList_toDigits, String.toList_ofList,
      show v.toNat = v.natAbs by omega]
    rfl
  · rw [if_neg h, if_pos (by omega), Nat.repr_eq_ofList_toDigits, String.toList_append,
      show (-v).toNat = v.natAbs by omega, String.toList_ofList, String.toList_ofList]
    rfl

end Numbers

section Values

/-- A value without double-precision numbers, with integers that are not too long to be read and
with distinct keys in every object. -/
inductive IsExact : Json → Prop where
  | null : IsExact .null
  | bool (value : Bool) : IsExact (.bool value)
  | int {value : Int} (h : (digits value.natAbs).length ≤ Text.maxIntegerDigits) :
      IsExact (.int value)
  | str (text : String) : IsExact (.str text)
  | arr {items} (h : ∀ item ∈ items, IsExact item) : IsExact (.arr items)
  | obj {fields : List (String × Json)} (hkeys : (fields.map (·.1)).Nodup)
      (h : ∀ field ∈ fields, IsExact field.2) : IsExact (.obj fields)

/-- What may follow a value: a comma, a closing bracket or brace, or nothing. -/
def Ends (rest : List Char) : Prop :=
  ∀ c ∈ rest.head?, c ∈ [',', ']', '\x7d']

/-- The value is read back from its text, in as many steps as the text has characters. -/
def Reads (value : Json) : Prop :=
  ∀ fuel rest, value.render.toList.length ≤ fuel → Ends rest →
    readValue fuel (value.render.toList ++ rest) = .ok (value, rest)

variable {v : Json}

/-- A digit is no blank. -/
theorem not_blank_of_digit (h : c.isDigit = true) : Text.isBlank c = false := by
  simp only [Char.isDigit, Bool.and_eq_true, decide_eq_true_eq, UInt32.le_iff_toNat_le] at h
  have hlow : 48 ≤ c.toNat := h.1
  have hhigh : c.toNat ≤ 57 := h.2
  simp only [Text.isBlank, Text.blankRanges, any_cons, any_nil, Bool.or_false,
    Bool.or_eq_false_iff, Bool.and_eq_false_imp, decide_eq_true_eq, decide_eq_false_iff_not]
  omega

theorem render_items_eq (xs : List Json) : renderItems xs = xs.map render := by
  induction xs with
  | nil => rfl
  | cons x rest ih => rw [renderItems, ih, map_cons]

/-- The text of a field. -/
def fieldText (field : String × Json) : String := literal field.1 ++ ": " ++ field.2.render

theorem render_fields_eq (fields : List (String × Json)) :
    renderFields fields = fields.map fieldText := by
  induction fields with
  | nil => rfl
  | cons field rest ih =>
    obtain ⟨key, v⟩ := field
    rw [renderFields, ih, map_cons, fieldText]

/-- The texts of items or fields, with a comma and a blank between them. -/
def joined (texts : List String) : List Char :=
  (", ".intercalate texts).toList

theorem joined_single (text : String) : joined [text] = text.toList := by
  rw [joined, String.intercalate_singleton]

theorem joined_cons (a b : String) (rest : List String) :
    joined (a :: b :: rest) = a.toList ++ ',' :: ' ' :: joined (b :: rest) := by
  rw [joined, String.intercalate_cons_cons, String.toList_append, String.toList_append,
    append_assoc]
  rfl

/-- Joined texts start with the first of them. -/
theorem joined_append (a : String) (rest : List String) :
    ∃ tail, joined (a :: rest) = a.toList ++ tail := by
  cases rest with
  | nil => exact ⟨[], by rw [joined_single, append_nil]⟩
  | cons b rest => exact ⟨_, joined_cons a b rest⟩

theorem render_arr_chars (xs : List Json) :
    (render (.arr xs)).toList = '[' :: (joined (xs.map render) ++ [']']) := by
  rw [render, render_items_eq, String.toList_append, String.toList_append]
  rfl

theorem render_obj_chars (fields : List (String × Json)) :
    (render (.obj fields)).toList = '\x7b' :: (joined (fields.map fieldText) ++ ['\x7d']) := by
  rw [render, render_fields_eq, String.toList_append, String.toList_append]
  rfl

/-- The text of a value starts with no blank and no closing bracket. -/
theorem render_opens (h : IsExact v) :
    ∃ c cs, v.render.toList = c :: cs ∧ Text.isBlank c = false ∧ c ≠ ']' := by
  cases h with
  | null => exact ⟨'n', _, rfl, by decide, by decide⟩
  | bool v =>
    cases v with
    | true => exact ⟨'t', _, rfl, by decide, by decide⟩
    | false => exact ⟨'f', _, rfl, by decide, by decide⟩
  | @int v =>
    rw [render_int_chars]
    by_cases hsign : v < 0
    · rw [if_pos hsign]
      exact ⟨'-', _, rfl, by decide, by decide⟩
    · rw [if_neg hsign, nil_append]
      cases hdigits : digits v.natAbs with
      | nil => exact (Nat.toDigits_ne_nil hdigits).elim
      | cons c cs =>
        have hdigit := is_digit_of_mem (hdigits ▸ mem_cons_self : c ∈ digits v.natAbs)
        refine ⟨c, cs, rfl, not_blank_of_digit hdigit, ?_⟩
        rintro rfl
        exact absurd hdigit (by decide)
  | str =>
    rw [render, literal, String.toList_ofList]
    exact ⟨'"', _, rfl, by decide, by decide⟩
  | arr => exact ⟨'[', _, render_arr_chars _, by decide, by decide⟩
  | obj => exact ⟨'\x7b', _, render_obj_chars _, by decide, by decide⟩

/-- The text of a value ends with no blank. -/
theorem render_closes (h : IsExact v) :
    ∃ cs c, v.render.toList = cs ++ [c] ∧ Text.isBlank c = false := by
  cases h with
  | null => exact ⟨['n', 'u', 'l'], 'l', rfl, by decide⟩
  | bool v =>
    cases v with
    | true => exact ⟨['t', 'r', 'u'], 'e', rfl, by decide⟩
    | false => exact ⟨['f', 'a', 'l', 's'], 'e', rfl, by decide⟩
  | @int v =>
    rcases eq_nil_or_concat (digits v.natAbs) with hnil | ⟨cs, c, hdigits⟩
    · exact (Nat.toDigits_ne_nil hnil).elim
    · have hmem : c ∈ digits v.natAbs := by simp [hdigits]
      rw [render_int_chars, hdigits, concat_eq_append, ← append_assoc]
      exact ⟨_, c, rfl, not_blank_of_digit (is_digit_of_mem hmem)⟩
  | str =>
    rw [render, literal, String.toList_ofList]
    exact ⟨_, '"', rfl, by decide⟩
  | arr =>
    rw [render_arr_chars, ← cons_append]
    exact ⟨_, ']', rfl, by decide⟩
  | obj =>
    rw [render_obj_chars, ← cons_append]
    exact ⟨_, '\x7d', rfl, by decide⟩

/-- The text of a value is not shortened by taking blanks from its ends. -/
theorem trim_render (h : IsExact v) : Text.trim v.render = v.render := by
  obtain ⟨c, cs, hopens, hc, -⟩ := render_opens h
  obtain ⟨before, last, hcloses, hlast⟩ := render_closes h
  have hdrop : v.render.toList.dropWhile Text.isBlank = v.render.toList := by
    rw [hopens, dropWhile_cons_of_neg (by simp [hc])]
  rw [Text.trim, Text.trimChars, hdrop, hcloses, reverse_append, reverse_singleton,
    singleton_append, dropWhile_cons_of_neg (by simp [hlast]), reverse_cons,
    reverse_reverse, ← hcloses, String.ofList_toList]

theorem is_blank_of_space (h : isSpace c = true) : Text.isBlank c = true := by
  simp only [isSpace, Bool.or_eq_true, decide_eq_true_eq] at h
  rcases h with ((rfl | rfl) | rfl) | rfl <;> decide

/-- There are no blanks to pass over before the text of a value. -/
theorem skip_space_render (h : IsExact v) (rest : List Char) :
    skipSpace (v.render.toList ++ rest) = v.render.toList ++ rest := by
  obtain ⟨c, cs, hopens, hc, -⟩ := render_opens h
  have hspace : ¬isSpace c = true := fun hspace => by
    rw [is_blank_of_space hspace] at hc
    cases hc
  rw [hopens, cons_append, skipSpace, dropWhile_cons_of_neg hspace]

/-- An integer is read back from its digits. -/
theorem read_number_digits (negative : Bool) {n : Nat} {rest : List Char}
    (hlen : (digits n).length ≤ Text.maxIntegerDigits) (hr : Ends rest) :
    readNumber negative (digits n ++ rest) = .ok (.int (Text.signed negative n), rest) := by
  have hdigit : ∀ c ∈ rest.head?, c.isDigit = false := fun c hc => by
    have hend := hr c hc
    simp only [mem_cons, not_mem_nil, or_false] at hend
    rcases hend with rfl | rfl | rfl <;> decide
  have hfraction : readFraction rest = ([], rest) ∧ readScale rest = (none, rest) := by
    cases rest with
    | nil => exact ⟨rfl, rfl⟩
    | cons c =>
      have hc := hr c rfl
      simp only [mem_cons, not_mem_nil, or_false] at hc
      rcases hc with rfl | rfl | rfl <;> exact ⟨rfl, rfl⟩
  rw [readNumber, read_whole_digits n hdigit]
  simp [ReadError.require, hfraction, Nat.not_lt.2 hlen, digits_value, bind, Except.bind, pure,
    Except.pure]

/-- What starts with a digit is read as a number, after a sign or without one. -/
theorem read_scalar_of_digit {cs : List Char} (h : c.isDigit = true) :
    readScalar (c :: cs) = readNumber false (c :: cs) ∧
      readScalar ('-' :: c :: cs) = readNumber true (c :: cs) := by
  have hne {other : Char} (hother : other.isDigit = false) : c ≠ other := by
    rintro rfl
    rw [h] at hother
    cases hother
  constructor
  · unfold readScalar
    split
    case h_9 => rfl
    all_goals
      rename_i heq
      exact (hne (by decide) (List.cons.inj heq).1).elim
  · rw [readScalar]
    intro rest heq
    exact (hne (by decide) (List.cons.inj heq).1).elim

/-- A value that is no list and no object is read as a word, a number or a text. -/
theorem read_value_scalar {fuel : Nat} {cs : List Char} (hfuel : 0 < fuel)
    (hlist : c ≠ '[') (hobj : c ≠ '\x7b') : readValue fuel (c :: cs) = readScalar (c :: cs) := by
  obtain ⟨fuel, rfl⟩ := Nat.exists_eq_add_one_of_ne_zero (Nat.ne_of_gt hfuel)
  rw [readValue]
  · exact fun _ heq => hlist (List.cons.inj heq).1
  · exact fun _ heq => hobj (List.cons.inj heq).1

/-- An integer is read back from its text. -/
theorem reads_int {v : Int} (hlen : (digits v.natAbs).length ≤ Text.maxIntegerDigits) :
    Reads (.int v) := by
  intro fuel rest hfuel hr
  cases hdigits : digits v.natAbs with
  | nil => exact (Nat.toDigits_ne_nil hdigits).elim
  | cons c cs =>
    have hdigit := is_digit_of_mem (hdigits ▸ mem_cons_self : c ∈ digits v.natAbs)
    have hnumber (negative : Bool) : readNumber negative (c :: (cs ++ rest)) =
        .ok (.int (Text.signed negative v.natAbs), rest) := by
      rw [← cons_append, ← hdigits]
      exact read_number_digits negative hlen hr
    obtain ⟨hpositive, hnegative⟩ := @read_scalar_of_digit c (cs ++ rest) hdigit
    rw [render_int_chars, hdigits] at hfuel ⊢
    by_cases hsign : v < 0
    · rw [if_pos hsign] at hfuel ⊢
      have hsigned : Text.signed true v.natAbs = v := by
        show -(v.natAbs : Int) = v
        omega
      exact (read_value_scalar (Nat.lt_of_lt_of_le (by simp) hfuel) (by decide)
        (by decide)).trans (hsigned ▸ hnegative.trans (hnumber true))
    · rw [if_neg hsign, nil_append] at hfuel ⊢
      have hsigned : Text.signed false v.natAbs = v := by
        show (v.natAbs : Int) = v
        omega
      refine (read_value_scalar (Nat.lt_of_lt_of_le (by simp) hfuel) ?_ ?_).trans
        (hsigned ▸ hpositive.trans (hnumber false))
      · rintro rfl
        exact absurd hdigit (by decide)
      · rintro rfl
        exact absurd hdigit (by decide)

/-- A text is read back from its string literal. -/
theorem reads_str (text : String) : Reads (.str text) := by
  intro fuel rest hfuel _
  rw [render] at hfuel ⊢
  have hpositive : 0 < fuel := Nat.lt_of_lt_of_le (by simp [literal, literalChars]) hfuel
  rw [literal_chars_eq, read_value_scalar hpositive (by decide) (by decide), readScalar,
    read_text_literal]
  rfl

/-- After a comma the next text is read, without the blank before it. -/
theorem skip_space_joined {text : String}
    (h : ∀ rest, skipSpace (text.toList ++ rest) = text.toList ++ rest) (others : List String)
    (rest : List Char) :
    skipSpace (' ' :: (joined (text :: others) ++ rest)) = joined (text :: others) ++ rest := by
  obtain ⟨tail, htail⟩ := joined_append text others
  rw [htail, append_assoc]
  exact h (tail ++ rest)

/-- The items of a list are read back up to the closing bracket. -/
theorem read_items_joined {xs : List Json} (hsome : xs ≠ [])
    (hexact : ∀ x ∈ xs, IsExact x) (hreads : ∀ x ∈ xs, Reads x) {fuel : Nat}
    {rest : List Char} (hfuel : (joined (xs.map render)).length < fuel) :
    readItems fuel (joined (xs.map render) ++ ']' :: rest) = .ok (xs, rest) := by
  induction xs generalizing fuel with
  | nil => exact (hsome rfl).elim
  | cons x others ih =>
    obtain ⟨fuel, rfl⟩ := Nat.exists_eq_add_one_of_ne_zero (Nat.ne_zero_of_lt hfuel)
    have hx := hreads x mem_cons_self
    cases others with
    | nil =>
      rw [map_cons, map_nil, joined_single] at hfuel ⊢
      rw [readItems, hx fuel _ (by omega) (by simp [Ends])]
      rfl
    | cons next others =>
      have hothers := @ih (by simp) (forall_mem_cons.1 hexact).2
        (forall_mem_cons.1 hreads).2 fuel
      have hnext := skip_space_joined (skip_space_render (hexact next (by simp)))
        (others.map render) (']' :: rest)
      rw [map_cons] at hothers
      rw [map_cons, map_cons, joined_cons] at hfuel ⊢
      rw [length_append, length_cons, length_cons] at hfuel
      rw [append_assoc, readItems, hx fuel _ (by omega) (by simp [Ends])]
      show (readItems fuel (skipSpace (' ' :: (_ ++ _))) >>= _) = _
      rw [hnext, hothers (by omega)]
      rfl

/-- A field with a new key goes to the end. -/
theorem set_field_new {key : String} {fields : List (String × Json)}
    (h : key ∉ fields.map (·.1)) : setField key v fields = fields ++ [(key, v)] := by
  induction fields with
  | nil => rfl
  | cons field rest ih =>
    obtain ⟨name, old⟩ := field
    rw [map_cons, mem_cons, not_or] at h
    rw [setField, if_neg (Ne.symm h.1), ih h.2, cons_append]

theorem field_text_chars (key : String) (rest : List Char) :
    (fieldText (key, v)).toList ++ rest =
      '"' :: (key.toList.flatMap escapeChar ++ '"' :: ':' :: ' ' :: (v.render.toList ++ rest)) := by
  rw [fieldText, String.toList_append, String.toList_append, append_assoc, append_assoc,
    literal_chars_eq]
  rfl

/-- The fields of an object are read back up to the closing brace, after those before them. -/
theorem read_fields_joined {before fields : List (String × Json)} (hsome : fields ≠ [])
    (hkeys : ((before ++ fields).map (·.1)).Nodup)
    (hexact : ∀ field ∈ fields, IsExact field.2) (hreads : ∀ field ∈ fields, Reads field.2)
    {fuel : Nat} {rest : List Char} (hfuel : (joined (fields.map fieldText)).length < fuel) :
    readFields fuel before (joined (fields.map fieldText) ++ '\x7d' :: rest) =
      .ok (before ++ fields, rest) := by
  induction fields generalizing before fuel with
  | nil => exact (hsome rfl).elim
  | cons field others ih =>
    obtain ⟨fuel, rfl⟩ := Nat.exists_eq_add_one_of_ne_zero (Nat.ne_zero_of_lt hfuel)
    obtain ⟨key, v⟩ := field
    have hv : Reads v := hreads (key, v) mem_cons_self
    have hskip (rest : List Char) : skipSpace (' ' :: (v.render.toList ++ rest)) =
        v.render.toList ++ rest :=
      skip_space_render (hexact (key, v) mem_cons_self) rest
    have hput : setField key v before = before ++ [(key, v)] := by
      refine set_field_new fun hmem => ?_
      rw [map_append, nodup_append] at hkeys
      exact hkeys.2.2 _ hmem _ mem_cons_self rfl
    have hlen (rest : List Char) :
        v.render.toList.length < ((fieldText (key, v)).toList ++ rest).length := by
      rw [field_text_chars]
      simp only [length_cons, length_append]
      omega
    cases others with
    | nil =>
      rw [map_cons, map_nil, joined_single] at hfuel ⊢
      have := hlen []
      rw [append_nil] at this
      rw [field_text_chars, readFields, read_text_literal]
      show (readValue fuel (skipSpace (' ' :: _)) >>= _) = _
      rw [hskip, hv fuel _ (by omega) (by simp [Ends])]
      show Except.ok (setField key v before, rest) = _
      rw [hput]
    | cons next others =>
      have hothers := @ih (before ++ [(key, v)]) (by simp) (by simpa using hkeys)
        (forall_mem_cons.1 hexact).2
        (forall_mem_cons.1 hreads).2 fuel
      rw [map_cons, append_assoc] at hothers
      rw [map_cons, map_cons, joined_cons] at hfuel ⊢
      have := hlen (',' :: ' ' :: joined (fieldText next :: others.map fieldText))
      rw [append_assoc, field_text_chars, readFields, read_text_literal]
      show (readValue fuel (skipSpace (' ' :: _)) >>= _) = _
      rw [hskip, hv fuel _ (by omega) (by simp [Ends])]
      rw [length_append, length_cons, length_cons] at hfuel
      show readFields fuel (setField key v before) (skipSpace (' ' :: (_ ++ _))) = _
      have hquote (rest : List Char) :
          skipSpace ((fieldText next).toList ++ rest) = (fieldText next).toList ++ rest := by
        rw [field_text_chars]
        rfl
      rw [hput, skip_space_joined hquote, hothers (by omega)]
      rfl

/-- Every value without double-precision numbers is read back from its text. -/
theorem IsExact.reads (h : IsExact v) : Reads v := by
  induction h with
  | null =>
    intro fuel rest hfuel _
    exact read_value_scalar (Nat.lt_of_lt_of_le (by decide) hfuel) (by decide) (by decide)
  | bool v =>
    intro fuel rest hfuel _
    have hpositive : 0 < fuel := Nat.lt_of_lt_of_le (by cases v <;> decide) hfuel
    cases v with
    | true | false => exact read_value_scalar hpositive (by decide) (by decide)
  | int h => exact reads_int h
  | str text => exact reads_str text
  | @arr xs hexact ih =>
    intro fuel rest hfuel hr
    rw [render_arr_chars] at hfuel ⊢
    obtain ⟨fuel, rfl⟩ := Nat.exists_eq_add_one_of_ne_zero
      (Nat.ne_of_gt (Nat.lt_of_lt_of_le (by simp) hfuel))
    rw [length_cons, length_append, length_singleton] at hfuel
    cases xs with
    | nil => rfl
    | cons x others =>
      have hx := hexact x mem_cons_self
      obtain ⟨c, cs, hopens, hc, hclosing⟩ := render_opens hx
      obtain ⟨tail, htail⟩ := joined_append x.render (others.map render)
      have hxs := @read_items_joined (x :: others) (by simp) hexact ih fuel rest (by omega)
      have hskip : skipSpace (joined ((x :: others).map render) ++ ']' :: rest) =
          joined ((x :: others).map render) ++ ']' :: rest := by
        rw [map_cons, htail, append_assoc]
        exact skip_space_render hx _
      rw [cons_append, append_assoc, readValue, singleton_append, hskip]
      split
      · rename_i after heq
        rw [map_cons, htail, hopens, append_assoc, cons_append] at heq
        exact (hclosing (List.cons.inj heq).1).elim
      · rw [hxs]
        rfl
  | @obj fields hkeys hexact ih =>
    intro fuel rest hfuel hr
    rw [render_obj_chars] at hfuel ⊢
    obtain ⟨fuel, rfl⟩ := Nat.exists_eq_add_one_of_ne_zero
      (Nat.ne_of_gt (Nat.lt_of_lt_of_le (by simp) hfuel))
    rw [length_cons, length_append, length_singleton] at hfuel
    cases fields with
    | nil => rfl
    | cons field others =>
      obtain ⟨key, v⟩ := field
      obtain ⟨tail, htail⟩ := joined_append (fieldText (key, v)) (others.map fieldText)
      have hfields := @read_fields_joined [] ((key, v) :: others) (by simp) hkeys hexact ih
        fuel rest (by omega)
      rw [map_cons, htail, append_assoc, field_text_chars] at hfields
      rw [cons_append, append_assoc, readValue, map_cons, htail, append_assoc,
        singleton_append, field_text_chars]
      show (readFields fuel [] _ >>= _) = _
      rw [hfields]
      rfl

/-- Reading the text of a value gives the value back. -/
theorem parse_render (h : IsExact v) : parse v.render = .ok v := by
  have hskip := skip_space_render h []
  have hread := h.reads (v.render.toList.length + 1) [] (by omega) (fun c hc => by cases hc)
  rw [append_nil] at hskip hread
  rw [parse, hskip, hread]
  rfl

end Values

end Schemata.Json

namespace Schemata

open Refinement Json in
/-- A default value survives the way through its tag: the tag that spells a value calls for exactly
one default, of that value, which is written as the tag spells it. -/
theorem default_value_survives {value : Json} (h : value.IsExact) (formats : Json)
    (context : Context) (htags : context.tags = [("default", value.render)]) :
    ∃ modifiers, context.modifiers formats = pure modifiers ∧
      modifiers.filter (·.name = "default") = [⟨"default", [.value value], false⟩] ∧
      ∀ z receiver text, Schema.text z receiver = .ok text →
        (receiver.modify ⟨"default", [.value value], false⟩).text z =
          .ok (text ++ ".default(" ++ value.render ++ ")") := by
  have hdefault : valued context.tags "default" "default" (fun text => .value (defaultValue text)) =
      [⟨"default", [.value value], false⟩] := by
    rw [htags]
    show [(⟨"default", [.value (defaultValue (Text.trim value.render))], false⟩ : Modifier)] = _
    rw [trim_render h, defaultValue, parse_render h]
  have hflag (flag : Bool) {name : String} (hname : name ≠ "default") :
      (flagged flag name).filter (·.name = "default") = [] := by
    cases flag <;> simp [flagged, hname]
  refine ⟨flagged context.allOptional "partial" ++ flagged context.allRequired "required" ++
    flagged context.optional "optional" ++ flagged context.nullable "nullable" ++
    [⟨"default", [.value value], false⟩], ?_, ?_, fun z receiver text htext => ?_⟩
  · rw [Context.modifiers, hdefault, htags]
    simp [tagged, valued, Tags.get?]
  · simp [hflag]
  · rw [Schema.modify, Schema.text, htext]
    simp [bind, Except.bind, pure, Except.pure, Schema.texts, Schema.text, Schema.modifierText,
      String.append_assoc]

/-- The value `{"a\"\n": [null, true, -12, "}, 😀"], "": {}}`. -/
def nestedValue : Json :=
  .obj [("a\"\n", .arr [.null, .bool true, .int (-12), .str "\x7d, 😀"]), ("", .obj [])]

/-- A nested value with quotes, a line break, a brace and a negative number survives as a default.
-/
theorem nested_default_survives :
    nestedValue.render =
      "\x7b\"a\\\"\\n\": [null, true, -12, \"\x7d, 😀\"], \"\": \x7b\x7d\x7d" ∧
    ∃ modifiers,
      ({ nullable := true, tags := [("default", nestedValue.render)] } : Context).modifiers .null =
        pure modifiers ∧
      modifiers.filter (·.name = "default") = [⟨"default", [.value nestedValue], false⟩] := by
  have hexact : nestedValue.IsExact := by
    refine .obj (by decide) fun field hfield => ?_
    simp only [List.mem_cons, List.not_mem_nil, or_false] at hfield
    rcases hfield with rfl | rfl
    · refine .arr fun item hitem => ?_
      simp only [List.mem_cons, List.not_mem_nil, or_false] at hitem
      rcases hitem with rfl | rfl | rfl | rfl
      · exact .null
      · exact .bool true
      · exact .int (by decide)
      · exact .str _
    · exact .obj List.nodup_nil fun field hfield => by cases hfield
  obtain ⟨modifiers, hmodifiers, hdefault, -⟩ := default_value_survives hexact .null
    { nullable := true, tags := [("default", nestedValue.render)] } rfl
  exact ⟨by decide, modifiers, hmodifiers, hdefault⟩

end Schemata
