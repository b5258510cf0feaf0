import Schemata.Proofs.Exactness
import Schemata.Proofs.ValueTexts

/-!
# Unambiguous texts

The text of an expression made of calls, names, literals and modifiers tells the expression. What an
expression starts with says what kind of expression it is, a name ends where no character of a name
follows, a string literal where it is closed, and lists end with their bracket. `Clear` says that an
expression can be told from any other one even when more text follows, as long as that starts with a
comma, a closing bracket or a blank. It goes from the arguments of calls and modifiers, the items of
arrays and the entries of objects to the whole, and `rendering_unambiguous` is the case without
further text. The namespace must not have the name of a value.
-/

namespace Schemata

open List

variable {rest after : List Char} {other : String}

namespace Identifier

/-- Whether the character may stand somewhere in an identifier. -/
def isWithin (c : Char) : Bool :=
  isPart c || c = '\n'

theorem identifier_chars {text : String} (h : isIdentifier text = true) :
    (∃ c cs, text.toList = c :: cs ∧ isStart c = true) ∧ ∀ c ∈ text.toList, isWithin c = true := by
  refine ⟨?_, fun c hc => by simpa [isWithin] using isPart_of_mem h hc⟩
  unfold isIdentifier at h
  cases hchars : text.toList with
  | nil => simp [hchars, isIdentifierChars] at h
  | cons c cs =>
    rw [hchars, isIdentifierChars, Bool.and_eq_true] at h
    exact ⟨c, cs, rfl, h.1⟩

end Identifier

open Identifier (isIdentifier isStart isWithin)
open Json (joined)

/-- What an expression can start with. -/
inductive Opening where
  | word
  | brace
  | bracket
  | quote
  | number
  deriving DecidableEq

/-- What a character opens. -/
def Opening.ofChar? (c : Char) : Option Opening :=
  if isStart c then some .word
  else if c = '\x7b' then some .brace
  else if c = '[' then some .bracket
  else if c = '"' then some .quote
  else if c = '-' || c.isDigit then some .number
  else none

/-- What may follow an expression: a comma, a closing bracket, a blank, or nothing. -/
def Stops (rest : List Char) : Prop :=
  ∀ c ∈ rest.head?, c ∈ [',', ')', ']', ' ']

/-- What may follow an expression to which modifiers can be added. -/
def Pauses (rest : List Char) : Prop :=
  ∀ c ∈ rest.head?, c ∈ ['.', ',', ')', ']', ' ']

theorem Stops.pauses (h : Stops rest) : Pauses rest := fun c hc => mem_cons_of_mem _ (h c hc)

/-- No character of a class of characters follows. -/
theorem Pauses.not (h : Pauses rest) {isPart : Char → Bool}
    (hpart : ['.', ',', ')', ']', ' '].all (!isPart ·) = true) :
    ∀ c ∈ rest.head?, isPart c = false := fun c hc => by
  have hnot := all_eq_true.1 hpart c (h c hc)
  simpa using hnot

section Lists

variable {α : Type} {text : α → String} {valid : α → Prop}

/-- An item can be told from any other valid one by its text, whatever text follows. -/
def Clear (text : α → String) (valid : α → Prop) (item : α) : Prop :=
  ∀ other rest after, valid other → Stops rest → Stops after →
    (text item).toList ++ rest = (text other).toList ++ after → item = other ∧ rest = after

/-- Items with a comma between them can be told by their texts up to a closing bracket. -/
theorem joined_clear
    (hopens : ∀ x, valid x → ∃ c cs, (text x).toList = c :: cs ∧ (Opening.ofChar? c).isSome = true)
    {xs others : List α} (hxs : ∀ x ∈ xs, valid x ∧ Clear text valid x)
    (hothers : ∀ other ∈ others, valid other) {close : Char} (hclose : close ∈ [')', ']', ' '])
    (heq : joined (xs.map text) ++ close :: rest =
      joined (others.map text) ++ close :: after) : xs = others ∧ rest = after := by
  have hstop (rest : List Char) : Stops (close :: rest) := by
    rintro c ⟨⟩
    exact mem_cons_of_mem _ hclose
  have hcomma (rest : List Char) : Stops (',' :: rest) := by
    rintro c ⟨⟩
    exact mem_cons_self
  have hclosed {x : α} (hx : valid x) (tail : List String) (rest after : List Char) :
      close :: rest ≠ joined (text x :: tail) ++ after := by
    intro heq
    obtain ⟨c, cs, hchars, hopen⟩ := hopens x hx
    obtain ⟨more, hmore⟩ := Json.joined_append (text x) tail
    rw [hmore, hchars, append_assoc, cons_append] at heq
    rw [← (List.cons.inj heq).1] at hopen
    simp only [mem_cons, not_mem_nil, or_false] at hclose
    rcases hclose with rfl | rfl | rfl <;> exact absurd hopen (by decide)
  have hseparate : ',' ≠ close := by
    rintro rfl
    exact absurd hclose (by decide)
  induction xs generalizing others with
  | nil =>
    cases others with
    | nil => exact ⟨rfl, (List.cons.inj heq).2⟩
    | cons other => exact (hclosed (hothers other mem_cons_self) _ _ _ heq).elim
  | cons x xs ih =>
    obtain ⟨⟨hvalid, hclear⟩, hxs⟩ := forall_mem_cons.1 hxs
    cases others with
    | nil => exact (hclosed hvalid _ _ _ heq.symm).elim
    | cons other others =>
      obtain ⟨hother, hvalids⟩ := forall_mem_cons.1 hothers
      cases xs with
      | nil =>
        cases others with
        | nil =>
          simp only [map_cons, map_nil, Json.joined_single] at heq
          obtain ⟨rfl, hr⟩ := hclear _ _ _ hother (hstop _) (hstop _) heq
          exact ⟨rfl, (List.cons.inj hr).2⟩
        | cons =>
          simp only [map_cons, map_nil, Json.joined_single, Json.joined_cons, append_assoc] at heq
          obtain ⟨-, hr⟩ := hclear _ _ _ hother (hstop _) (hcomma _) heq
          exact (hseparate (List.cons.inj hr).1.symm).elim
      | cons b xs =>
        cases others with
        | nil =>
          simp only [map_cons, map_nil, Json.joined_single, Json.joined_cons, append_assoc] at heq
          obtain ⟨-, hr⟩ := hclear _ _ _ hother (hcomma _) (hstop _) heq
          exact (hseparate (List.cons.inj hr).1).elim
        | cons =>
          simp only [map_cons, Json.joined_cons, append_assoc] at heq
          obtain ⟨rfl, hr⟩ := hclear _ _ _ hother (hcomma _) (hcomma _) heq
          obtain ⟨htail, hr⟩ := ih hxs hvalids (List.cons.inj (List.cons.inj hr).2).2
          exact ⟨congrArg (x :: ·) htail, hr⟩

end Lists

/-- Two words with something else after them are the same. -/
theorem word_eq {isPart : Char → Bool} {word other : List Char}
    (hword : ∀ c ∈ word, isPart c = true) (hother : ∀ c ∈ other, isPart c = true)
    (hr : ∀ c ∈ rest.head?, isPart c = false) (hafter : ∀ c ∈ after.head?, isPart c = false)
    (heq : word ++ rest = other ++ after) : word = other ∧ rest = after := by
  obtain ⟨htake, hdrop⟩ := Json.cut_word hword hr
  obtain ⟨htake', hdrop'⟩ := Json.cut_word hother hafter
  rw [heq] at htake hdrop
  exact ⟨htake.symm.trans htake', hdrop.symm.trans hdrop'⟩

/-- No character of an identifier follows. -/
def Breaks (rest : List Char) : Prop :=
  ∀ c ∈ rest.head?, isWithin c = false

theorem breaks_cons {c : Char} (h : isWithin c = false) (rest : List Char) :
    Breaks (c :: rest) := by
  rintro _ ⟨⟩
  exact h

theorem Pauses.breaks (h : Pauses rest) : Breaks rest := h.not (by decide)

/-- A name is told by its characters. -/
theorem name_eq {name : String} (hn : isIdentifier name = true)
    (hother : isIdentifier other = true) (hr : Breaks rest) (hafter : Breaks after)
    (heq : name.toList ++ rest = other.toList ++ after) : name = other ∧ rest = after := by
  obtain ⟨hchars, hr⟩ := word_eq (Identifier.identifier_chars hn).2
    (Identifier.identifier_chars hother).2 hr hafter heq
  exact ⟨String.toList_injective hchars, hr⟩

/-- A string literal is told by its characters. -/
theorem literal_eq {text : String}
    (heq : (Json.literal text).toList ++ rest = (Json.literal other).toList ++ after) :
    text = other ∧ rest = after := by
  rw [Json.literal_chars_eq, Json.literal_chars_eq] at heq
  have hread := Json.read_text_literal text rest
  rw [(List.cons.inj heq).2, Json.read_text_literal] at hread
  cases hread
  exact ⟨rfl, rfl⟩

/-- An integer is told by its digits and its sign. -/
theorem number_eq {v other : Int} (hr : Pauses rest)
    (hafter : Pauses after) (heq : (Json.render (.int v)).toList ++ rest =
      (Json.render (.int other)).toList ++ after) : v = other ∧ rest = after := by
  have hdigits {n m : Nat} (h : Json.digits n ++ rest = Json.digits m ++ after) :
      n = m ∧ rest = after := by
    obtain ⟨hnat, hr⟩ := word_eq (fun _ => Json.is_digit_of_mem) (fun _ => Json.is_digit_of_mem)
      (hr.not (by decide)) (hafter.not (by decide)) h
    rw [← Json.digits_value n, hnat, Json.digits_value]
    exact ⟨rfl, hr⟩
  have hsign {n : Nat} {rest after : List Char} : '-' :: rest ≠ Json.digits n ++ after := by
    intro h
    rcases Json.digits_cases n with hn | ⟨c, cs, hn, -, hc⟩
    · rw [hn] at h
      exact absurd (List.cons.inj h).1 (by decide)
    · rw [hn, cons_append] at h
      rw [← (List.cons.inj h).1] at hc
      exact absurd hc (by decide)
  rw [Json.render_int_chars, Json.render_int_chars] at heq
  by_cases hv : v < 0
  · rw [if_pos hv] at heq
    by_cases hother : other < 0
    · rw [if_pos hother] at heq
      obtain ⟨hnat, hr⟩ := hdigits (List.cons.inj heq).2
      exact ⟨by omega, hr⟩
    · rw [if_neg hother] at heq
      exact (hsign heq).elim
  · rw [if_neg hv] at heq
    by_cases hother : other < 0
    · rw [if_pos hother] at heq
      exact (hsign heq.symm).elim
    · rw [if_neg hother] at heq
      obtain ⟨hnat, hr⟩ := hdigits heq
      exact ⟨by omega, hr⟩

namespace Schema

/-- The key of an entry is told by its text up to the colon. -/
theorem key_eq {key : String}
    (heq : (keyText key).toList ++ ':' :: rest = (keyText other).toList ++ ':' :: after) :
    key = other ∧ rest = after := by
  have hquote {key other : String} {rest after : List Char} (h : isIdentifier key = true) :
      key.toList ++ rest ≠ (Json.literal other).toList ++ after := by
    intro heq
    obtain ⟨⟨c, cs, hchars, hstart⟩, -⟩ := Identifier.identifier_chars h
    rw [hchars, Json.literal_chars_eq] at heq
    rw [(List.cons.inj heq).1] at hstart
    exact absurd hstart (by decide)
  have hcolon := breaks_cons (c := ':') (by decide)
  unfold keyText at heq
  split at heq
  · rename_i hk
    split at heq
    · rename_i hother
      obtain ⟨hk, hr⟩ := name_eq hk hother (hcolon rest) (hcolon after) heq
      exact ⟨hk, (List.cons.inj hr).2⟩
    · exact (hquote hk heq).elim
  · split at heq
    · rename_i hother
      exact (hquote hother heq.symm).elim
    · obtain ⟨hk, hr⟩ := literal_eq heq
      exact ⟨hk, (List.cons.inj hr).2⟩

/-- The words that stand for values. -/
def constants : List String := ["true", "false", "null"]

/-- An expression made of calls, names, literals and modifiers with arguments. The names are
identifiers, and no name of a schema or a function is that of the namespace or of a value. -/
inductive IsPlain (z : String) : Schema → Prop where
  | call {name arguments} (hname : isIdentifier name = true)
      (h : ∀ argument ∈ arguments, IsPlain z argument) : IsPlain z (.call name arguments)
  | reference {name} (hname : isIdentifier name = true) (hfree : name ∉ z :: constants) :
      IsPlain z (.reference (.str name))
  | helper {name arguments} (hname : isIdentifier name = true) (hfree : name ∉ z :: constants)
      (h : ∀ argument ∈ arguments, IsPlain z argument) : IsPlain z (.helper name arguments)
  | object {entries} (h : ∀ entry ∈ entries, IsPlain z entry.2) : IsPlain z (.object entries)
  | array {items} (h : ∀ item ∈ items, IsPlain z item) : IsPlain z (.array items)
  | null : IsPlain z (.value .null)
  | bool (content : Bool) : IsPlain z (.value (.bool content))
  | int (content : Int) : IsPlain z (.value (.int content))
  | str (content : String) : IsPlain z (.value (.str content))
  | modified {receiver name arguments} (hreceiver : IsPlain z receiver)
      (hname : isIdentifier name = true) (h : ∀ argument ∈ arguments, IsPlain z argument) :
      IsPlain z (.modified receiver name arguments false)

variable {z : String} {s : Schema}

/-- The text of an expression, empty if it cannot be written. -/
def written (z : String) (schema : Schema) : String :=
  (schema.text z).toOption.getD ""

/-- The text of an entry of an object literal. -/
def entryText (z : String) (entry : String × Schema) : String :=
  keyText entry.1 ++ ": " ++ entry.2.written z

/-- The characters of arguments or items. -/
def argumentChars (z : String) (arguments : List Schema) : List Char :=
  joined (arguments.map (written z))

theorem texts_written {ss : List Schema} (h : ∀ s ∈ ss, s.text z = .ok (s.written z)) :
    texts z ss = .ok (ss.map (written z)) := by
  induction ss with
  | nil => rfl
  | cons a rest ih =>
    obtain ⟨ha, hr⟩ := forall_mem_cons.1 h
    rw [texts, ha, ih hr]
    rfl

theorem entry_texts_written {es : List (String × Schema)}
    (h : ∀ e ∈ es, e.2.text z = .ok (e.2.written z)) :
    entryTexts z es = .ok (es.map (entryText z)) := by
  induction es with
  | nil => rfl
  | cons e rest ih =>
    obtain ⟨ha, hr⟩ := forall_mem_cons.1 h
    obtain ⟨key, s⟩ := e
    rw [entryTexts, ha, ih hr]
    rfl

theorem written_of_text {text : String} (h : s.text z = .ok text) :
    s.text z = .ok (s.written z) ∧ s.written z = text := by
  have hwritten : s.written z = text := by rw [written, h]; rfl
  exact ⟨hwritten ▸ h, hwritten⟩

/-- The value or the schema that a word stands for. -/
def ofWord (word : String) : Schema :=
  if word = "true" then .value (.bool true)
  else if word = "false" then .value (.bool false)
  else if word = "null" then .value .null
  else .reference (.str word)

theorem of_word_free {name : String} (h : name ∉ constants) :
    ofWord name = .reference (.str name) := by
  simp only [constants, mem_cons, not_mem_nil, or_false, not_or] at h
  simp [ofWord, h]

/-- What modifiers stand on, with what it starts with and its characters. -/
inductive Form (z : String) : Schema → Opening → List Char → Prop where
  | call {name : String} {arguments} (hname : isIdentifier name = true) :
      Form z (.call name arguments) .word
        (z.toList ++ '.' :: (name.toList ++ '(' :: (argumentChars z arguments ++ [')'])))
  | helper {name : String} {arguments} (hname : isIdentifier name = true) (hz : name ≠ z) :
      Form z (.helper name arguments) .word
        (name.toList ++ '(' :: (argumentChars z arguments ++ [')']))
  | word {name : String} (hname : isIdentifier name = true) (hz : name ≠ z) :
      Form z (ofWord name) .word name.toList
  | nothing : Form z (.object []) .brace ['\x7b', '\x7d']
  | object {entries : List (String × Schema)} (hsome : entries ≠ []) :
      Form z (.object entries) .brace
        ('\x7b' :: ' ' :: (joined (entries.map (entryText z)) ++ [' ', '\x7d']))
  | array {items} : Form z (.array items) .bracket ('[' :: (argumentChars z items ++ [']']))
  | str (content : String) : Form z (.value (.str content)) .quote (Json.literal content).toList
  | int (content : Int) :
      Form z (.value (.int content)) .number (Json.render (.int content)).toList

section Texts

variable {name : String} {args : List Schema}

theorem text_object {es : List (String × Schema)} (hsome : es ≠ [])
    (h : ∀ e ∈ es, e.2.text z = .ok (e.2.written z)) :
    (object es).text z = .ok ("\x7b " ++ ", ".intercalate (es.map (entryText z)) ++ " \x7d") := by
  cases es with
  | nil => exact (hsome rfl).elim
  | cons =>
    rw [text, entry_texts_written h]
    rfl

section Arguments

variable (h : ∀ arg ∈ args, arg.text z = .ok (arg.written z))

include h

theorem text_call :
    (call name args).text z = .ok (z ++ "." ++ name ++ "(" ++
      ", ".intercalate (args.map (written z)) ++ ")") := by
  rw [text, texts_written h]
  rfl

theorem text_helper :
    (helper name args).text z =
      .ok (name ++ "(" ++ ", ".intercalate (args.map (written z)) ++ ")") := by
  rw [text, texts_written h]
  rfl

theorem text_array :
    (array args).text z = .ok ("[" ++ ", ".intercalate (args.map (written z)) ++ "]") := by
  rw [text, texts_written h]
  rfl

theorem text_modified {receiver : Schema} (hreceiver : receiver.text z = .ok (receiver.written z)) :
    (modified receiver name args false).text z = .ok (receiver.written z ++
      ("." ++ name ++ "(" ++ ", ".intercalate (args.map (written z)) ++ ")")) := by
  rw [text, hreceiver, texts_written h]
  rfl

end Arguments

/-- Plain expressions can be written. -/
theorem IsPlain.text_written (h : s.IsPlain z) : s.text z = .ok (s.written z) := by
  induction h with
  | call hn h ih => exact (written_of_text (text_call ih)).1
  | helper hn hfree h ih => exact (written_of_text (text_helper ih)).1
  | array h ih => exact (written_of_text (text_array ih)).1
  | @object es h ih =>
    cases es with
    | nil => rfl
    | cons => exact (written_of_text (text_object (by simp) ih)).1
  | modified hreceiver hn h ihreceiver ih =>
    exact (written_of_text (text_modified ih ihreceiver)).1
  | _ => rfl

end Texts

/-- The characters of a modifier. -/
def modifierChars (z : String) (modifier : Modifier) : List Char :=
  '.' :: (modifier.name.toList ++ '(' :: (argumentChars z modifier.arguments ++ [')']))

end Schema

/-- A modifier with arguments that are plain expressions. -/
structure Modifier.IsPlain (z : String) (modifier : Modifier) : Prop where
  name : isIdentifier modifier.name = true
  arguments : ∀ argument ∈ modifier.arguments, argument.IsPlain z
  given : modifier.raw = false

namespace Schema

variable {z : String} {s : Schema}

/-- What holds of expressions without modifiers when it holds of what they are made of, and of an
expression with one more modifier, holds of all plain expressions. -/
theorem plain_induction {motive : Schema → Prop} (hz : z ∉ constants)
    (form : ∀ (base : Schema) (opening : Opening) (cs : List Char), Form z base opening cs →
      (base.written z).toList = cs →
      (∀ child ∈ base.children, child.IsPlain z ∧ motive child) → motive base)
    (modified : ∀ (receiver : Schema) (mod : Modifier), mod.IsPlain z →
      ((receiver.modify mod).written z).toList =
        (receiver.written z).toList ++ modifierChars z mod →
      motive receiver → (∀ arg ∈ mod.arguments, motive arg) →
      motive (receiver.modify mod)) (h : s.IsPlain z) : motive s := by
  have htexts {ss : List Schema} (h : ∀ s ∈ ss, s.IsPlain z) :
      ∀ s ∈ ss, s.text z = .ok (s.written z) :=
    fun s hs => (h s hs).text_written
  have hc {word : String} (hword : isIdentifier word = true) (hmem : word ∈ constants)
      (htext : (ofWord word).written z = word) (hleaf : (ofWord word).children = []) :
      motive (ofWord word) := by
    refine form _ _ _ (.word hword fun heq => hz (heq ▸ hmem)) (by rw [htext]) ?_
    rw [hleaf]
    exact fun _ h => by cases h
  induction h with
  | @call name args hn h ih =>
    refine form _ _ _ (.call hn) ?_ fun child hchild => ⟨h child hchild, ih child hchild⟩
    rw [(written_of_text (text_call (htexts h))).2]
    simp [argumentChars, joined]
  | @helper name args hn hfree h ih =>
    refine form _ _ _ (.helper hn fun heq => hfree (heq ▸ mem_cons_self)) ?_
      fun child hchild => ⟨h child hchild, ih child hchild⟩
    rw [(written_of_text (text_helper (htexts h))).2]
    simp [argumentChars, joined]
  | @reference name hn hfree =>
    rw [mem_cons, not_or] at hfree
    rw [← of_word_free hfree.2]
    refine form _ _ _ (.word hn hfree.1) ?_ ?_
    · rw [of_word_free hfree.2]
      rfl
    · rw [of_word_free hfree.2]
      exact fun _ h => by cases h
  | @array xs h ih =>
    refine form _ _ _ .array ?_ fun child hchild => ⟨h child hchild, ih child hchild⟩
    rw [(written_of_text (text_array (htexts h))).2]
    simp [argumentChars, joined]
  | @object es h ih =>
    have hchildren : ∀ child ∈ (object es).children, child.IsPlain z ∧ motive child := by
      intro child hchild
      obtain ⟨e, he, rfl⟩ := mem_map.1 hchild
      exact ⟨h e he, ih e he⟩
    by_cases hsome : es = []
    · subst hsome
      exact form _ _ _ .nothing (by simp [written, text, Except.toOption]) hchildren
    · refine form _ _ _ (.object hsome) ?_ hchildren
      rw [(written_of_text (text_object hsome fun e he => (h e he).text_written)).2]
      simp [joined]
  | null => exact @hc "null" (by decide) (by decide) rfl rfl
  | bool content =>
    cases content with
    | true => exact @hc "true" (by decide) (by decide) rfl rfl
    | false => exact @hc "false" (by decide) (by decide) rfl rfl
  | int content => exact form _ _ _ (.int content) rfl fun _ h => by cases h
  | str content => exact form _ _ _ (.str content) rfl fun _ h => by cases h
  | @modified receiver name args hreceiver hn h ihreceiver ih =>
    refine modified receiver ⟨name, args, false⟩ ⟨hn, h, rfl⟩ ?_ ihreceiver ih
    rw [modify, (written_of_text (text_modified (htexts h) hreceiver.text_written)).2]
    simp [modifierChars, argumentChars, joined]

theorem opening_of_digit {c : Char} (h : c.isDigit = true) : Opening.ofChar? c = some .number := by
  have hdigits : ∀ n < 58, 48 ≤ n → Opening.ofChar? (Char.ofNat n) = some .number := by decide
  simp only [Char.isDigit, Bool.and_eq_true, decide_eq_true_eq, UInt32.le_iff_toNat_le] at h
  rw [← c.ofNat_toNat]
  exact hdigits _ (Nat.lt_succ_of_le h.2) h.1

theorem opening_of_identifier {name : String} (h : isIdentifier name = true) (rest : List Char) :
    ∃ c cs, name.toList ++ rest = c :: cs ∧ Opening.ofChar? c = some .word := by
  obtain ⟨⟨c, cs, hchars, hstart⟩, -⟩ := Identifier.identifier_chars h
  exact ⟨c, cs ++ rest, by rw [hchars]; rfl, by rw [Opening.ofChar?, if_pos hstart]⟩

/-- The first character of an expression tells what it starts with. -/
theorem Form.opens {opening : Opening} {cs : List Char} (hz : isIdentifier z = true)
    (h : Form z s opening cs) : ∃ c rest, cs = c :: rest ∧ Opening.ofChar? c = some opening := by
  cases h with
  | call => exact opening_of_identifier hz _
  | helper hn => exact opening_of_identifier hn _
  | @word name hn =>
    rw [← append_nil name.toList]
    exact opening_of_identifier hn []
  | nothing | object | array => exact ⟨_, _, rfl, by decide⟩
  | str content => exact ⟨'"', _, by rw [← append_nil (Json.literal content).toList,
      Json.literal_chars_eq], by decide⟩
  | int content =>
    rw [Json.render_int_chars]
    split
    · exact ⟨'-', _, rfl, by decide⟩
    · rcases Json.digits_cases content.natAbs with hdigits | ⟨c, cs, hdigits, -, hdigit⟩
      · exact ⟨'0', [], by rw [hdigits]; rfl, opening_of_digit rfl⟩
      · exact ⟨c, cs, hdigits, opening_of_digit hdigit⟩

/-- A plain expression starts with a character that opens one. -/
theorem IsPlain.opens (hz : isIdentifier z = true) (hfree : z ∉ constants) (h : s.IsPlain z) :
    ∃ c cs, (s.written z).toList = c :: cs ∧ (Opening.ofChar? c).isSome = true := by
  refine plain_induction (motive := fun s => ∃ c cs, (s.written z).toList = c :: cs ∧
      (Opening.ofChar? c).isSome = true) hfree (fun base opening cs hform hchars _ => ?_)
    (fun receiver mod _ hchars hreceiver _ => ?_) h
  · obtain ⟨c, rest, hopens, hopening⟩ := hform.opens hz
    exact ⟨c, rest, hchars.trans hopens, by rw [hopening]; rfl⟩
  · obtain ⟨c, cs, hopens, hopening⟩ := hreceiver
    exact ⟨c, cs ++ modifierChars z mod, by rw [hchars, hopens]; rfl, hopening⟩

/-- An entry is told by its text when its schema is. -/
theorem entry_clear {e : String × Schema} (h : Clear (written z) (IsPlain z) e.2) :
    Clear (entryText z) (fun e => e.2.IsPlain z) e := by
  intro other rest after hother hr hafter heq
  simp only [entryText, String.toList_append, append_assoc] at heq
  obtain ⟨hk, hv⟩ := key_eq heq
  obtain ⟨hs, hr⟩ := h other.2 rest after hother hr hafter (List.cons.inj hv).2
  exact ⟨Prod.ext hk hs, hr⟩

theorem entry_opens (e : String × Schema) :
    ∃ c cs, (entryText z e).toList = c :: cs ∧ (Opening.ofChar? c).isSome = true := by
  have hk : ∃ c cs, (keyText e.1).toList = c :: cs ∧ (Opening.ofChar? c).isSome = true := by
    unfold keyText
    split
    · rename_i hk
      obtain ⟨c, cs, hchars, hopening⟩ := opening_of_identifier hk []
      exact ⟨c, cs, by rw [← hchars, append_nil], by rw [hopening]; rfl⟩
    · exact ⟨'"', _, by rw [← append_nil (Json.literal e.1).toList,
        Json.literal_chars_eq], by decide⟩
  obtain ⟨c, cs, hchars, hopening⟩ := hk
  exact ⟨c, _, by rw [entryText, String.toList_append, String.toList_append, hchars]; rfl, hopening⟩

/-- A chain of modifiers on something without modifiers, all of them plain. -/
def IsChain (z : String) (schema : Schema) : Prop :=
  ∃ base opening cs modifiers, schema = base.withModifiers modifiers ∧ Form z base opening cs ∧
    (∀ child ∈ base.children, child.IsPlain z) ∧ (∀ modifier ∈ modifiers, modifier.IsPlain z) ∧
    (schema.written z).toList = cs ++ modifiers.flatMap (modifierChars z)

/-- A plain expression is a chain of modifiers on something without modifiers. -/
theorem IsPlain.chain (hfree : z ∉ constants) (h : s.IsPlain z) : s.IsChain z := by
  refine plain_induction (motive := IsChain z) hfree
    (fun base opening cs hform hchars hchildren => ?_)
    (fun receiver mod hmod hchars hreceiver _ => ?_) h
  · refine ⟨base, opening, cs, [], rfl, hform, fun child h => (hchildren child h).1, by simp, ?_⟩
    rw [hchars]
    exact (append_nil cs).symm
  · obtain ⟨base, opening, cs, mods, rfl, hform, hchildren, hmods, heq⟩ := hreceiver
    refine ⟨base, opening, cs, mods ++ [mod], ?_, hform, hchildren, ?_, ?_⟩
    · rw [withModifiers_append]
      rfl
    · simpa [or_imp, forall_and] using ⟨hmods, hmod⟩
    · rw [hchars, heq]
      simp

/-- If the characters of an expression are those with which another chain of modifiers starts, then
the expression is a part of that chain. -/
def Resumes (z : String) (schema : Schema) : Prop :=
  ∀ (base : Schema) (opening : Opening) (cs : List Char) (modifiers : List Modifier)
    (rest after : List Char), Form z base opening cs → (∀ child ∈ base.children, child.IsPlain z) →
    (∀ modifier ∈ modifiers, modifier.IsPlain z) → Pauses rest → Stops after →
    (schema.written z).toList ++ rest = cs ++ (modifiers.flatMap (modifierChars z) ++ after) →
    ∃ taken left, modifiers = taken ++ left ∧ schema = base.withModifiers taken ∧
      rest = left.flatMap (modifierChars z) ++ after

theorem pauses_modifiers (mods : List Modifier) (h : Stops after) :
    Pauses (mods.flatMap (modifierChars z) ++ after) := by
  cases mods with
  | nil => exact h.pauses
  | cons =>
    rintro c ⟨⟩
    exact mem_cons_self

section Clear

variable (hz : isIdentifier z = true) (hfree : z ∉ constants)

include hz hfree

/-- Arguments are told by their characters up to a closing bracket. -/
theorem arguments_clear {args others : List Schema} {close : Char}
    (hclose : close ∈ [')', ']', ' '])
    (hargs : ∀ arg ∈ args, arg.IsPlain z ∧ Clear (written z) (IsPlain z) arg)
    (hothers : ∀ other ∈ others, other.IsPlain z)
    (heq : argumentChars z args ++ close :: rest = argumentChars z others ++ close :: after) :
    args = others ∧ rest = after :=
  joined_clear (fun _ h => h.opens hz hfree) hargs hothers hclose heq

/-- A name with arguments in parentheses is told by its characters. -/
theorem applied_clear {name other : String} {args others : List Schema}
    (hn : isIdentifier name = true) (hother : isIdentifier other = true)
    (hargs : ∀ arg ∈ args, arg.IsPlain z ∧ Clear (written z) (IsPlain z) arg)
    (hothers : ∀ other ∈ others, other.IsPlain z)
    (heq : name.toList ++ '(' :: (argumentChars z args ++ ')' :: rest) =
      other.toList ++ '(' :: (argumentChars z others ++ ')' :: after)) :
    name = other ∧ args = others ∧ rest = after := by
  have hopen := breaks_cons (c := '(') (by decide)
  obtain ⟨rfl, hr⟩ := name_eq hn hother (hopen _) (hopen _) heq
  exact ⟨rfl, arguments_clear hz hfree (by decide) hargs hothers (List.cons.inj hr).2⟩

/-- What modifiers stand on is told by its characters when what it is made of is. -/
theorem Form.clear {other : Schema} {opening opening' : Opening} {cs others : List Char}
    (h : Form z s opening cs) (hother : Form z other opening' others)
    (hchildren : ∀ child ∈ s.children, child.IsPlain z ∧ Clear (written z) (IsPlain z) child)
    (hplain : ∀ child ∈ other.children, child.IsPlain z) (hr : Pauses rest)
    (hafter : Pauses after) (heq : cs ++ rest = others ++ after) : s = other ∧ rest = after := by
  obtain rfl : opening = opening' := by
    obtain ⟨c, tail, rfl, hc⟩ := h.opens hz
    obtain ⟨d, tail', rfl, hd⟩ := hother.opens hz
    rw [(List.cons.inj heq).1, hd] at hc
    exact (Option.some.inj hc).symm
  have hdot := breaks_cons (c := '.') (by decide)
  have hopen := breaks_cons (c := '(') (by decide)
  have hcalled {rest : List Char} : ¬Pauses ('(' :: rest) := fun h => absurd (h '(' rfl) (by decide)
  cases h <;> cases hother <;> try simp only [append_assoc, cons_append, nil_append] at heq
  case call.call hn _ _ hother =>
    obtain ⟨rfl, rfl, hr⟩ := applied_clear hz hfree hn hother hchildren hplain
      (List.cons.inj (append_cancel_left heq)).2
    exact ⟨rfl, hr⟩
  case helper.helper hn _ _ _ hother _ =>
    obtain ⟨rfl, rfl, hr⟩ := applied_clear hz hfree hn hother hchildren hplain heq
    exact ⟨rfl, hr⟩
  case word.word hn _ _ hother _ =>
    obtain ⟨rfl, hr⟩ := name_eq hn hother hr.breaks hafter.breaks heq
    exact ⟨rfl, hr⟩
  -- What starts with a name is told by the name, and by whether it is called.
  case call.helper hother hne => exact (hne (name_eq hz hother (hdot _) (hopen _) heq).1.symm).elim
  case call.word hother hne =>
    exact (hne (name_eq hz hother (hdot _) hafter.breaks heq).1.symm).elim
  case helper.call hn hne _ _ _ => exact (hne (name_eq hn hz (hopen _) (hdot _) heq).1).elim
  case word.call hn hne _ _ _ => exact (hne (name_eq hn hz hr.breaks (hdot _) heq).1).elim
  case helper.word hn _ _ hother _ =>
    obtain ⟨-, rfl⟩ := name_eq hn hother (hopen _) hafter.breaks heq
    exact (hcalled hafter).elim
  case word.helper hn _ _ _ hother _ =>
    obtain ⟨-, rfl⟩ := name_eq hn hother hr.breaks (hopen _) heq
    exact (hcalled hr).elim
  case nothing.nothing => exact ⟨rfl, (List.cons.inj (List.cons.inj heq).2).2⟩
  case nothing.object | object.nothing =>
    exact absurd (List.cons.inj (List.cons.inj heq).2).1 (by decide)
  case object.object =>
    have hclear (e) (he : e ∈ _) : e.2.IsPlain z ∧ Clear (entryText z)
        (fun e => e.2.IsPlain z) e :=
      (hchildren e.2 (mem_map_of_mem he)).imp_right entry_clear
    obtain ⟨rfl, hr⟩ := joined_clear (fun e _ => entry_opens e) hclear
      (fun e he => hplain e.2 (mem_map_of_mem he)) (by decide)
      (List.cons.inj (List.cons.inj heq).2).2
    exact ⟨rfl, (List.cons.inj hr).2⟩
  case array.array =>
    obtain ⟨rfl, hr⟩ := arguments_clear hz hfree (by decide) hchildren hplain
      (List.cons.inj heq).2
    exact ⟨rfl, hr⟩
  case str.str =>
    obtain ⟨rfl, hr⟩ := literal_eq heq
    exact ⟨rfl, hr⟩
  case int.int =>
    obtain ⟨rfl, hr⟩ := number_eq hr hafter heq
    exact ⟨rfl, hr⟩

/-- A modifier is told by its characters when its arguments are. -/
theorem modifier_clear {mod other : Modifier} (hmod : mod.IsPlain z) (hother : other.IsPlain z)
    (hclear : ∀ arg ∈ mod.arguments, Clear (written z) (IsPlain z) arg)
    (heq : modifierChars z mod ++ rest = modifierChars z other ++ after) :
    mod = other ∧ rest = after := by
  simp only [modifierChars, append_assoc, cons_append, nil_append] at heq
  obtain ⟨hn, hargs, hr⟩ := applied_clear hz hfree hmod.name hother.name
    (fun arg h => ⟨hmod.arguments arg h, hclear arg h⟩) hother.arguments
    (List.cons.inj heq).2
  obtain ⟨name, args, raw⟩ := mod
  obtain ⟨name', arguments', raw'⟩ := other
  obtain rfl : raw = raw' := hmod.given.trans hother.given.symm
  subst hn hargs
  exact ⟨rfl, hr⟩

/-- The characters of a plain expression tell it even when modifiers follow. -/
theorem IsPlain.resumes (h : s.IsPlain z) : s.Resumes z := by
  have hclear {s : Schema} (h : s.Resumes z) : Clear (written z) (IsPlain z) s := by
    intro other rest after hother hr hafter heq
    obtain ⟨base, opening, cs, mods, rfl, hform, hchildren, hmods, hchars⟩ := hother.chain hfree
    rw [hchars, append_assoc] at heq
    obtain ⟨taken, left, rfl, rfl, rfl⟩ :=
      h base opening cs mods rest after hform hchildren hmods hr.pauses hafter heq
    cases left with
    | nil => exact ⟨by rw [append_nil], rfl⟩
    | cons => exact absurd (hr '.' rfl) (by decide)
  refine plain_induction (motive := Resumes z) hfree (fun base opening cs hform hchars hbase => ?_)
    (fun receiver mod hmod hchars hreceiver hargs => ?_) h
  · intro other opening' cs' mods rest after hother hchildren _ hr hafter heq
    rw [hchars] at heq
    obtain ⟨rfl, rfl⟩ := hform.clear hz hfree hother
      (fun child h => (hbase child h).imp_right hclear) hchildren hr
      (pauses_modifiers mods hafter) heq
    exact ⟨[], mods, rfl, rfl, rfl⟩
  · intro base opening cs mods rest after hbase hchildren hmods hr hafter heq
    rw [hchars, append_assoc] at heq
    obtain ⟨taken, left, rfl, rfl, hleft⟩ := hreceiver base opening cs mods _ after hbase
      hchildren hmods (by rintro c ⟨⟩; exact mem_cons_self) hafter heq
    cases left with
    | nil =>
      -- After the receiver comes a dot, which cannot be the text after the chain.
      rw [flatMap_nil, nil_append] at hleft
      rw [← hleft] at hafter
      exact absurd (hafter '.' rfl) (by decide)
    | cons next left =>
      rw [flatMap_cons, append_assoc] at hleft
      obtain ⟨rfl, rfl⟩ := modifier_clear hz hfree hmod (hmods next (by simp))
        (fun arg h => hclear (hargs arg h)) hleft
      exact ⟨taken ++ [mod], left, by simp, by rw [withModifiers_append]; rfl, rfl⟩

end Clear

end Schema

/-- Two plain expressions with the same text are the same, unless the namespace has the name of a
value. -/
theorem rendering_unambiguous {z : String} (hz : isIdentifier z = true)
    (hfree : z ∉ Schema.constants) {first second : Schema} (hfirst : first.IsPlain z)
    (hsecond : second.IsPlain z) (heq : first.text z = second.text z) : first = second := by
  rw [hfirst.text_written, hsecond.text_written] at heq
  obtain ⟨base, opening, cs, modifiers, rfl, hform, hchildren, hmodifiers, hchars⟩ :=
    hsecond.chain hfree
  obtain ⟨taken, left, rfl, rfl, hleft⟩ := hfirst.resumes hz hfree base opening cs modifiers [] []
    hform hchildren hmodifiers (by simp [Pauses]) (by simp [Stops])
    (by rw [Except.ok.inj heq, hchars]; simp)
  cases left with
  | nil => rw [List.append_nil]
  | cons modifier left => cases hleft

/-- A list of records with a key that is no identifier. -/
def guestList : Schema :=
  .combinator "array"
    [.call "object" [.object [("e-mail", .combinator "string" [] [⟨"email", [], false⟩])]]]
    [⟨"max", [.value (.int 3)], false⟩]

/-- The text of the list tells the list. -/
theorem guest_list_unambiguous :
    guestList.text "z" =
        .ok "z.array(z.object(\x7b \"e-mail\": z.string().email() \x7d)).max(3)" ∧
      guestList = .modified (.call "array" [.call "object" [.object
        [("e-mail", .modified (.call "string" []) "email" [] false)]]]) "max" [.value (.int 3)]
        false := by
  have hplain : guestList.IsPlain "z" := by
    refine .modified (.call (by decide) ?_) (by decide) ?_
    · simp only [List.forall_mem_singleton]
      refine .call (by decide) (List.forall_mem_singleton.2 (.object ?_))
      simp only [List.forall_mem_singleton]
      exact .modified (.call (by decide) (by simp)) (by decide) (by simp)
    · exact List.forall_mem_singleton.2 (.int 3)
  exact ⟨rfl, rendering_unambiguous (by decide) (by decide) hplain hplain rfl⟩

/-- With the namespace `true`, a call on it and a modifier on the value of that name have one
text. -/
theorem true_namespace_ambiguous :
    isIdentifier "true" = true ∧ ∃ first second : Schema, first.IsPlain "true" ∧
      second.IsPlain "true" ∧ first.text "true" = second.text "true" ∧ first ≠ second :=
  ⟨by decide, .call "min" [], .modified (.value (.bool true)) "min" [] false,
    .call (by decide) (by simp), .modified (.bool true) (by decide) (by simp), rfl, by simp⟩

end Schemata
