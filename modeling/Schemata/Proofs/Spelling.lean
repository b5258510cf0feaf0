import Mathlib
import Schemata.Identifier

/-!
# How names are spelled

A text is cut into words, each of letters or of digits, and the words are written as one identifier.
`words_eq_iff` says that the words are what a pattern of four forms finds from left to right, where
the first form that can take anything takes as much as it can. `spoken` is what can be heard of a
text that is read aloud: its words in small letters, where numbers that follow each other run
together. `joined_eq_iff` says that words are written as the same identifier exactly when they sound
the same, and `schema_name_eq_iff` that two names have the same name of a schema exactly when they
do. `camel_case_keeps_letters` says that no letter and no digit of a text is lost.
-/

namespace Schemata.Identifier

open List

/-- Letters only, or digits only. -/
def IsWord (word : List Char) : Prop :=
  word ≠ [] ∧ ((∀ c ∈ word, c.isAlpha = true) ∨ ∀ c ∈ word, c.isDigit = true)

/-- A word in small letters. -/
def lowered (word : List Char) : List Char :=
  word.map Char.toLower

/-- Small letters only, or digits only. -/
def IsLoweredWord (word : List Char) : Prop :=
  word ≠ [] ∧ ((∀ c ∈ word, c.isLower = true) ∨ ∀ c ∈ word, c.isDigit = true)

/-- Whether a word is a number. -/
def isNumber (word : List Char) : Bool :=
  word.all Char.isDigit

/-- Two words that are not both numbers. -/
def Apart (word next : List Char) : Prop :=
  ¬(isNumber word = true ∧ isNumber next = true)

/-- Words where numbers that follow each other are one. -/
def joinNumbers : List (List Char) → List (List Char)
  | [] => []
  | word :: rest =>
    match joinNumbers rest with
    | [] => [word]
    | next :: others =>
      if isNumber word && isNumber next then (word ++ next) :: others else word :: next :: others

/-- What can be heard of a text that is read aloud. -/
def spoken (text : String) : List (List Char) :=
  joinNumbers ((words text.toList).map lowered)

/-- Words as one identifier: each but the first with a capital. -/
def joined : List (List Char) → List Char
  | [] => []
  | first :: rest => first ++ rest.flatMap capitalize

/-- The forms that a word can have. -/
inductive WordForm where
  | abbreviation | small | capitals | digits

/-- Which of the forms goes before which. -/
def WordForm.rank : WordForm → Nat
  | .abbreviation => 0
  | .small => 1
  | .capitals => 2
  | .digits => 3

/-- What a form can take from the start of a text, and what it leaves. An abbreviation stands before
a capital with a small letter, and small letters can have a capital. -/
inductive WordForm.Takes : WordForm → List Char → List Char → Prop where
  | abbreviation {word rest next after} : word ≠ [] → (∀ c ∈ word, c.isUpper = true) →
      next.isUpper = true → after.isLower = true → Takes .abbreviation word (next :: after :: rest)
  | small {word rest} : word ≠ [] → (∀ c ∈ word, c.isLower = true) → Takes .small word rest
  | capitalized {c word rest} : c.isUpper = true → word ≠ [] → (∀ c ∈ word, c.isLower = true) →
      Takes .small (c :: word) rest
  | capitals {word rest} : word ≠ [] → (∀ c ∈ word, c.isUpper = true) → Takes .capitals word rest
  | digits {word rest} : word ≠ [] → (∀ c ∈ word, c.isDigit = true) → Takes .digits word rest

/-- A form takes as much as it can, where no form before it can take anything. -/
structure WordForm.TakesFirst (form : WordForm) (word rest : List Char) : Prop where
  takes : form.Takes word rest
  first : ∀ other taken left, taken ++ left = word ++ rest → other.Takes taken left →
    form.rank < other.rank ∨ form = other ∧ taken.length ≤ word.length

/-- The words that are found in a text from its start to its end. A character at which no form can
take anything is left out. -/
inductive Finds : List Char → List (List Char) → Prop where
  | nil : Finds [] []
  | skip {c rest pieces} : (∀ (form : WordForm) (taken left : List Char),
      taken ++ left = c :: rest → ¬form.Takes taken left) → Finds rest pieces →
      Finds (c :: rest) pieces
  | take {form : WordForm} {word rest pieces} : form.TakesFirst word rest → Finds rest pieces →
      Finds (word ++ rest) (word :: pieces)

variable {c : Char} {rest word : List Char} {pieces : List (List Char)} {form : WordForm}

section Characters

theorem not_digit_of_alpha (h : c.isAlpha = true) : c.isDigit = false := by
  rw [Bool.eq_false_iff]
  intro hdigit
  simp only [Char.isAlpha, Char.isUpper, Char.isLower, Char.isDigit, Bool.or_eq_true,
    Bool.and_eq_true, decide_eq_true_eq, UInt32.le_iff_toNat_le] at h hdigit
  have hnine : c.val.toNat ≤ 57 := hdigit.2
  rcases h with ⟨hlow, -⟩ | ⟨hlow, -⟩
  · have hcapital : 65 ≤ c.val.toNat := hlow
    omega
  · have hsmall : 97 ≤ c.val.toNat := hlow
    omega

theorem alpha_of_lower (h : c.isLower = true) : c.isAlpha = true := by
  rw [Char.isAlpha, h, Bool.or_true]

theorem alpha_of_upper (h : c.isUpper = true) : c.isAlpha = true := by
  rw [Char.isAlpha, h, Bool.true_or]

theorem not_lower_of_upper (h : c.isUpper = true) : c.isLower = false := by
  rw [Bool.eq_false_iff]
  exact fun hlower => Char.not_isUpper_of_isLower hlower h

theorem not_alpha_of_digit (h : c.isDigit = true) : c.isAlpha = false := by
  by_contra halpha
  rw [not_digit_of_alpha (Bool.eq_true_of_not_eq_false halpha)] at h
  cases h

theorem lower_of_digit (h : c.isDigit = true) : c.toLower = c := by
  refine Char.toLower_eq_of_not_isUpper fun hupper => ?_
  have halpha := not_alpha_of_digit h
  rw [Char.isAlpha, hupper, Bool.true_or] at halpha
  cases halpha

theorem upper_of_digit (h : c.isDigit = true) : c.toUpper = c := by
  refine Char.toUpper_eq_of_not_isLower fun hlower => ?_
  rw [not_digit_of_alpha (alpha_of_lower hlower)] at h
  cases h

theorem lower_of_lower (h : c.isLower = true) : c.toLower = c :=
  Char.toLower_eq_of_not_isUpper (Char.not_isUpper_of_isLower h)

end Characters

section Pattern

theorem WordForm.Takes.is_word (h : form.Takes word rest) : IsWord word := by
  cases h with
  | abbreviation hne hword | capitals hne hword =>
    exact ⟨hne, .inl fun c hc => alpha_of_upper (hword c hc)⟩
  | small hne hword => exact ⟨hne, .inl fun c hc => alpha_of_lower (hword c hc)⟩
  | capitalized hc _ hword =>
    exact ⟨cons_ne_nil _ _, .inl (forall_mem_cons.2
      ⟨alpha_of_upper hc, fun c hc => alpha_of_lower (hword c hc)⟩)⟩
  | digits hne hword => exact ⟨hne, .inr hword⟩

/-- Something can be taken exactly where a letter or a digit stands. -/
theorem alphanum_iff_takes (c : Char) (rest : List Char) : c.isAlphanum = true ↔
    ∃ (form : WordForm) (taken left : List Char),
      taken ++ left = c :: rest ∧ form.Takes taken left := by
  rw [Char.isAlphanum, Bool.or_eq_true]
  constructor
  · rw [Char.isAlpha, Bool.or_eq_true]
    rintro ((hupper | hlower) | hdigit)
    · exact ⟨_, [c], rest, rfl, .capitals (by simp) (by simpa)⟩
    · exact ⟨_, [c], rest, rfl, .small (by simp) (by simpa)⟩
    · exact ⟨_, [c], rest, rfl, .digits (by simp) (by simpa)⟩
  · rintro ⟨form, taken, left, heq, htakes⟩
    obtain ⟨hne, hkind⟩ := htakes.is_word
    obtain ⟨first, word, rfl⟩ := exists_cons_of_ne_nil hne
    cases heq
    exact hkind.imp (fun halpha => halpha c mem_cons_self) fun hdigit => hdigit c mem_cons_self

/-- Where a form can take something, there is a first one. -/
theorem exists_takes_first (form : WordForm) (word rest : List Char) (h : form.Takes word rest) :
    ∃ (first : WordForm) (taken left : List Char),
      taken ++ left = word ++ rest ∧ first.TakesFirst taken left := by
  by_cases hfirst : form.TakesFirst word rest
  · exact ⟨form, word, rest, rfl, hfirst⟩
  · obtain ⟨other, taken, left, heq, hother, hbefore⟩ : ∃ other taken left,
        taken ++ left = word ++ rest ∧ other.Takes taken left ∧
          ¬(form.rank < other.rank ∨ form = other ∧ taken.length ≤ word.length) := by
      by_contra hnone
      refine hfirst ⟨h, fun other taken left heq hother => ?_⟩
      exact not_not.1 fun hbefore => hnone ⟨other, taken, left, heq, hother, hbefore⟩
    have hlengths := congrArg length heq
    obtain ⟨first, most, last, hsame, hmost⟩ := exists_takes_first other taken left hother
    exact ⟨first, most, last, hsame.trans heq, hmost⟩
termination_by (form.rank, rest.length)
decreasing_by
  have hrank : other.rank = form.rank → form = other := by
    cases form <;> cases other <;> simp [WordForm.rank]
  rw [length_append, length_append] at hlengths
  rw [Prod.lex_def]
  grind

/-- A form that comes first cannot take one more character. -/
theorem WordForm.TakesFirst.not_next {next : Char} (h : form.TakesFirst word (next :: rest)) :
    ¬form.Takes (word ++ [next]) rest := by
  intro htakes
  have hle := h.first form (word ++ [next]) rest (by simp) htakes
  simp at hle

end Pattern

section Words

/-- A text is split where a character is not put into the word after it. Characters of one kind that
all are, up to where the kind ends, are a word then. -/
theorem split_run {split : List Char → List (List Char)} {joins : Char → List Char → Bool}
    {kind : Char → Bool} (hsplit : ∀ c rest, kind c = true → split (c :: rest) =
      if joins c rest then pushWord c (split rest) else [c] :: split rest)
    (hjoins : ∀ c next more, kind c = true → kind next = true → (∀ d ∈ more, kind d = true) →
      joins c (next :: (more ++ rest)) = true)
    (hstops : ∀ c, kind c = true → joins c rest = false) (hne : word ≠ [])
    (hword : ∀ c ∈ word, kind c = true) : split (word ++ rest) = word :: split rest := by
  induction word with
  | nil => exact (hne rfl).elim
  | cons c word ih =>
    obtain ⟨hc, hword⟩ := forall_mem_cons.1 hword
    rw [cons_append, hsplit c _ hc]
    cases word with
    | nil => simp [hstops c hc]
    | cons next more =>
      obtain ⟨hnext, hmore⟩ := forall_mem_cons.1 hword
      rw [ih (cons_ne_nil _ _) hword, cons_append, hjoins c next more hc hnext hmore]
      rfl

theorem words_of_alphanum (h : c.isAlphanum = true) (rest : List Char) :
    words (c :: rest) = if joins c rest then pushWord c (words rest) else [c] :: words rest := by
  rw [words, if_pos h]

theorem joins_upper {next : Char} (h : c.isUpper = true) : joins c (next :: rest) =
    (next.isLower || (next.isUpper && !(rest.head?.any Char.isLower))) := by
  rw [joins, not_digit_of_alpha (alpha_of_upper h), not_lower_of_upper h]
  rfl

/-- Small letters up to a character of another kind are a word. -/
theorem words_small (hne : word ≠ []) (hword : ∀ c ∈ word, c.isLower = true)
    (hrest : rest.head?.any Char.isLower = false) :
    words (word ++ rest) = word :: words rest := by
  have hjoins (c next : Char) (more : List Char) (hc : c.isLower = true) :
      joins c (next :: more) = next.isLower := by
    rw [joins, not_digit_of_alpha (alpha_of_lower hc), hc]
    rfl
  refine split_run (fun c rest hc => words_of_alphanum ?_ rest)
    (fun c next more hc hnext _ => ?_) (fun c hc => ?_) hne hword
  · rw [Char.isAlphanum, alpha_of_lower hc, Bool.true_or]
  · rw [hjoins c next _ hc, hnext]
  · cases rest with
    | nil => rfl
    | cons next => exact (hjoins c next _ hc).trans hrest

/-- Capitals are a word up to a character that is no letter, or to a capital before a small
letter. -/
theorem words_capitals (hne : word ≠ []) (hword : ∀ c ∈ word, c.isUpper = true)
    (hrest : rest.head?.any Char.isLower = false)
    (hstops : ∀ c, c.isUpper = true → joins c rest = false) :
    words (word ++ rest) = word :: words rest := by
  refine split_run (fun c rest hc => words_of_alphanum ?_ rest)
    (fun c next more hc hnext hmore => ?_) hstops hne hword
  · rw [Char.isAlphanum, alpha_of_upper hc, Bool.true_or]
  · have hlower : (more ++ rest).head?.any Char.isLower = false := by
      cases more with
      | nil => exact hrest
      | cons d => exact not_lower_of_upper (hmore d mem_cons_self)
    rw [joins_upper hc, hnext, hlower]
    exact Bool.or_true _

/-- What is taken first is the first word of the text. -/
theorem words_of_takes_first (h : form.TakesFirst word rest) :
    words (word ++ rest) = word :: words rest := by
  have hnext (kind : Char → Bool)
      (hmore : ∀ next others, kind next = true → form.Takes (word ++ [next]) others) :
      rest.head?.any kind = false := by
    cases rest with
    | nil => rfl
    | cons => exact Bool.eq_false_iff.2 fun hkind => h.not_next (hmore _ _ hkind)
  cases h.takes with
  | abbreviation hne hword hupper hlower =>
    refine words_capitals hne hword (not_lower_of_upper hupper) fun c hc => ?_
    simp [joins_upper hc, not_lower_of_upper hupper, hlower]
  | small hne hword =>
    refine words_small hne hword (hnext Char.isLower fun next _ hlower => ?_)
    exact .small (by simp) (forall_mem_append.2 ⟨hword, by simpa⟩)
  | @capitalized c word _ hc hne hword =>
    have hrest := hnext Char.isLower fun next _ hlower =>
      .capitalized hc (by simp) (forall_mem_append.2 ⟨hword, by simpa⟩)
    obtain ⟨d, more, rfl⟩ := exists_cons_of_ne_nil hne
    have hjoins : joins c (d :: more ++ rest) = true := by
      rw [cons_append, joins_upper hc, hword d mem_cons_self, Bool.true_or]
    rw [cons_append, words_of_alphanum (by simp [Char.isAlphanum, alpha_of_upper hc]), hjoins,
      words_small hne hword hrest]
    rfl
  | capitals hne hword =>
    have hupper := hnext Char.isUpper fun next _ hupper =>
      .capitals (by simp) (forall_mem_append.2 ⟨hword, by simpa⟩)
    cases rest with
    | nil => exact words_capitals hne hword rfl fun _ _ => rfl
    | cons next others =>
      have hlower : next.isLower = false := by
        obtain ⟨front, c, rfl⟩ := (eq_nil_or_concat' word).resolve_left hne
        obtain ⟨hfront, hc⟩ := forall_mem_append.1 hword
        rw [forall_mem_singleton] at hc
        rw [Bool.eq_false_iff]
        intro hlower
        -- The small letter goes with the last capital, which may stand after an abbreviation.
        by_cases hnil : front = []
        · subst hnil
          have hfirst := h.first _ [c, next] others rfl (.capitalized hc (by simp) (by simpa))
          simp [WordForm.rank] at hfirst
        · have hfirst := h.first _ front (c :: next :: others) (by simp)
            (.abbreviation hnil hfront hc hlower)
          simp [WordForm.rank] at hfirst
      refine words_capitals hne hword hlower fun c hc => ?_
      rw [joins_upper hc, hlower, show next.isUpper = false from hupper]
      rfl
  | digits hne hword =>
    have hrest := hnext Char.isDigit fun next _ hdigit =>
      .digits (by simp) (forall_mem_append.2 ⟨hword, by simpa⟩)
    refine split_run (fun c rest hc => words_of_alphanum ?_ rest)
      (fun c next more hc hnext _ => ?_) (fun c hc => ?_) hne hword
    · rw [Char.isAlphanum, hc, Bool.or_true]
    · rw [joins, if_pos hc, hnext]
    · cases rest with
      | nil => rfl
      | cons next => rwa [joins, if_pos hc]

theorem finds_words (cs : List Char) : Finds cs (words cs) := by
  match cs with
  | [] => exact .nil
  | c :: rest =>
    by_cases hc : c.isAlphanum = true
    · obtain ⟨form, taken, left, heq, htakes⟩ := (alphanum_iff_takes c rest).1 hc
      obtain ⟨first, word, after, hsame, hfirst⟩ := exists_takes_first form taken left htakes
      have hshorter : after.length < rest.length + 1 := by
        have hpos := length_pos_iff.2 hfirst.takes.is_word.1
        have hlengths := congrArg length (hsame.trans heq)
        rw [length_append, length_cons] at hlengths
        omega
      rw [← hsame.trans heq, words_of_takes_first hfirst]
      exact .take hfirst (finds_words after)
    · rw [words, if_neg hc]
      refine .skip (fun form taken left heq htakes => hc ?_) (finds_words rest)
      exact (alphanum_iff_takes c rest).2 ⟨form, taken, left, heq, htakes⟩
termination_by cs.length

/-- The words of a text are what is found in it by the forms of words. -/
theorem words_eq_iff {cs : List Char} : words cs = pieces ↔ Finds cs pieces := by
  constructor
  · rintro rfl
    exact finds_words cs
  · intro h
    induction h with
    | nil => rfl
    | @skip c rest _ hnone _ ih =>
      rw [words, if_neg, ih]
      intro hc
      obtain ⟨form, taken, left, heq, htakes⟩ := (alphanum_iff_takes c rest).1 hc
      exact hnone form taken left heq htakes
    | take hfirst _ ih => rw [words_of_takes_first hfirst, ih]

/-- The words of a text are words. -/
theorem words_are_words (cs : List Char) : ∀ word ∈ words cs, IsWord word := by
  have hfinds := finds_words cs
  generalize words cs = pieces at hfinds
  induction hfinds with
  | nil => exact forall_mem_nil _
  | skip _ _ ih => exact ih
  | take hfirst _ ih => exact forall_mem_cons.2 ⟨hfirst.takes.is_word, ih⟩

/-- The ending of the names of schemas. -/
def ending : List Char := ['S', 'c', 'h', 'e', 'm', 'a']

/-- Whether a character goes into the word after it does not depend on the ending. -/
theorem joins_append_ending (c : Char) (rest : List Char) :
    joins c (rest ++ ending) = joins c rest := by
  match rest with
  | [] =>
    have hdigit : 'S'.isDigit = false := by decide
    have hlower : 'S'.isLower = false := by decide
    have hnext : 'c'.isLower = true := by decide
    simp [ending, joins, hdigit, hlower, hnext]
  | [next] =>
    have hlower : 'S'.isLower = false := by decide
    simp [ending, joins, hlower]
  | next :: after :: others => rfl

/-- There is a word that a character goes into. -/
theorem words_ne_nil_of_joins (h : joins c rest = true) : words rest ≠ [] := by
  cases rest with
  | nil => cases h
  | cons next rest =>
    have hnext : next.isAlphanum = true := by
      rw [Char.isAlphanum, Char.isAlpha]
      unfold joins at h
      grind
    rw [words, if_pos hnext]
    split
    · cases words rest <;> exact cons_ne_nil _ _
    · exact cons_ne_nil _ _

theorem pushWord_append {a : List (List Char)} (h : a ≠ []) (b : List (List Char)) :
    pushWord c (a ++ b) = pushWord c a ++ b := by
  cases a with
  | nil => exact (h rfl).elim
  | cons => rfl

/-- The ending is a word of its own. -/
theorem words_append_ending (cs : List Char) : words (cs ++ ending) = words cs ++ [ending] := by
  induction cs with
  | nil => decide
  | cons c rest ih =>
    rw [cons_append, words, words, joins_append_ending, ih]
    by_cases hc : c.isAlphanum = true
    · rw [if_pos hc, if_pos hc]
      by_cases hjoins : joins c rest = true
      · rw [if_pos hjoins, if_pos hjoins, pushWord_append (words_ne_nil_of_joins hjoins)]
      · rw [if_neg hjoins, if_neg hjoins, cons_append]
    · rw [if_neg hc, if_neg hc]

/-- A word in small letters is one. -/
theorem lowered_is_word (h : IsWord word) : IsLoweredWord (lowered word) := by
  refine ⟨by simpa [lowered] using h.1, ?_⟩
  rcases h.2 with halpha | hdigit
  · refine .inl (forall_mem_map.2 fun c hc => ?_)
    rw [Char.isLower_toLower_eq_isAlpha]
    exact halpha c hc
  · refine .inr (forall_mem_map.2 fun c hc => ?_)
    rw [lower_of_digit (hdigit c hc)]
    exact hdigit c hc

/-- A word that is one in small letters stays as it is. -/
theorem IsLoweredWord.lowered_eq (h : IsLoweredWord word) : lowered word = word := by
  rcases h.2 with hlower | hdigit
  · exact (map_congr_left fun c hc => lower_of_lower (hlower c hc)).trans (map_id _)
  · exact (map_congr_left fun c hc => lower_of_digit (hdigit c hc)).trans (map_id _)

theorem lowered_words (cs : List Char) : ∀ word ∈ (words cs).map lowered, IsLoweredWord word :=
  forall_mem_map.2 fun word hword => lowered_is_word (words_are_words cs word hword)

theorem lowered_capitalize (word : List Char) : lowered (capitalize word) = lowered word := by
  cases word with
  | nil => rfl
  | cons => simp [lowered, capitalize]

theorem capitalize_lowered (word : List Char) : capitalize (lowered word) = capitalize word := by
  cases word with
  | nil => rfl
  | cons => simp [lowered, capitalize]

/-- The identifier of a text depends on its words in small letters only. -/
theorem camelChars_eq_joined (cs : List Char) :
    camelChars cs = joined ((words cs).map lowered) := by
  rw [camelChars]
  cases words cs with
  | nil => rfl
  | cons =>
    rw [map_cons, joined, flatMap_map]
    simp only [capitalize_lowered]
    rfl

end Words

section Numbers

theorem isNumber_iff : isNumber word = true ↔ ∀ c ∈ word, c.isDigit = true := all_eq_true

theorem capitalize_number (h : isNumber word = true) : capitalize word = word := by
  cases word with
  | nil => rfl
  | cons c =>
    obtain ⟨ha, hr⟩ := forall_mem_cons.1 (isNumber_iff.1 h)
    rw [capitalize, upper_of_digit ha, List.cons.injEq]
    exact ⟨rfl, (map_congr_left fun c hc => lower_of_digit (hr c hc)).trans (map_id _)⟩

/-- Numbers that are joined are written as before. -/
theorem flatMap_joinNumbers (pieces : List (List Char)) :
    (joinNumbers pieces).flatMap capitalize = pieces.flatMap capitalize := by
  induction pieces with
  | nil => rfl
  | cons word rest ih =>
    rw [joinNumbers, flatMap_cons, ← ih]
    cases joinNumbers rest with
    | nil => rfl
    | cons next others =>
      dsimp only
      split
      · rename_i hnumbers
        obtain ⟨hword, hnext⟩ := Bool.and_eq_true_iff.1 hnumbers
        have hboth : isNumber (word ++ next) = true := by
          rw [isNumber, all_append]
          exact hnumbers
        rw [flatMap_cons, flatMap_cons, capitalize_number hboth,
          capitalize_number hword, capitalize_number hnext, append_assoc]
      · rfl

theorem joined_joinNumbers (pieces : List (List Char)) :
    joined (joinNumbers pieces) = joined pieces := by
  cases pieces with
  | nil => rfl
  | cons word rest =>
    rw [joined, ← flatMap_joinNumbers rest, joinNumbers]
    cases joinNumbers rest with
    | nil => rfl
    | cons next others =>
      dsimp only
      split
      · rename_i hnumbers
        rw [joined, flatMap_cons, capitalize_number (Bool.and_eq_true_iff.1 hnumbers).2,
          append_assoc]
      · rfl

/-- A word of letters at the end is joined with nothing. -/
theorem joinNumbers_append {last : List Char} (h : isNumber last = false)
    (pieces : List (List Char)) :
    joinNumbers (pieces ++ [last]) = joinNumbers pieces ++ [last] := by
  induction pieces with
  | nil => rfl
  | cons word rest ih =>
    rw [cons_append, joinNumbers, ih, joinNumbers]
    cases joinNumbers rest with
    | nil => simp [h]
    | cons =>
      simp only [cons_append]
      split <;> rfl

/-- What numbers are joined to is words again, and no two numbers follow each other. -/
theorem joinNumbers_words (h : ∀ word ∈ pieces, IsLoweredWord word) :
    (∀ word ∈ joinNumbers pieces, IsLoweredWord word) ∧ (joinNumbers pieces).IsChain Apart := by
  induction pieces with
  | nil => exact ⟨by simp [joinNumbers], .nil⟩
  | cons word rest ih =>
    obtain ⟨hword, hr⟩ := forall_mem_cons.1 h
    have hboth := ih hr
    rw [joinNumbers]
    cases hjoined : joinNumbers rest with
    | nil => exact ⟨by simpa using hword, .singleton _⟩
    | cons next others =>
      rw [hjoined] at hboth
      obtain ⟨hwords, hchain⟩ := hboth
      obtain ⟨hnext, hothers⟩ := forall_mem_cons.1 hwords
      dsimp only
      split
      · rename_i hnumbers
        obtain ⟨ha, hsecond⟩ := Bool.and_eq_true_iff.1 hnumbers
        have hall : isNumber (word ++ next) = true := by
          rw [isNumber, all_append]
          exact hnumbers
        refine ⟨forall_mem_cons.2 ⟨⟨?_, .inr (isNumber_iff.1 hall)⟩, hothers⟩, ?_⟩
        · exact append_ne_nil_of_left_ne_nil hword.1 _
        · cases others with
          | nil => exact .singleton _
          | cons =>
            rw [isChain_cons_cons] at hchain ⊢
            exact ⟨fun hpair => hchain.1 ⟨hsecond, hpair.2⟩, hchain.2⟩
      · rename_i hnumbers
        refine ⟨forall_mem_cons.2 ⟨hword, hwords⟩, ?_⟩
        rw [isChain_cons_cons]
        exact ⟨fun hpair => hnumbers (Bool.and_eq_true_iff.2 hpair), hchain⟩

end Numbers

section Cutting

/-- Whether a character of an identifier belongs to the word of the one before it. -/
def continues (c next : Char) : Bool :=
  if c.isDigit then next.isDigit else next.isLower

/-- The words that an identifier was written from. -/
def cut : List Char → List (List Char)
  | [] => []
  | c :: rest => if rest.head?.any (continues c) then pushWord c (cut rest) else [c] :: cut rest

/-- The characters after a word do not belong to it. -/
def Stops (number : Bool) (rest : List Char) : Prop :=
  ∀ next ∈ rest.head?, next.isLower = false ∧ (number = true → next.isDigit = false)

/-- A word is cut off where it ends. -/
theorem cut_digits (hne : word ≠ []) (h : ∀ c ∈ word, c.isDigit = true) (hstops : Stops true rest) :
    cut (word ++ rest) = word :: cut rest := by
  refine split_run (fun _ _ _ => rfl) (fun c next more hc hnext _ => ?_) (fun c hc => ?_) hne h
  · rw [head?_cons, Option.any_some, continues, if_pos hc, hnext]
  · cases rest with
    | nil => rfl
    | cons next =>
      rw [head?_cons, Option.any_some, continues, if_pos hc]
      exact (hstops next rfl).2 rfl

theorem cut_letters (hc : c.isAlpha = true) (h : ∀ c ∈ word, c.isLower = true)
    (hstops : Stops false rest) : cut (c :: word ++ rest) = (c :: word) :: cut rest := by
  have hcontinues (c next : Char) (hc : c.isAlpha = true) : continues c next = next.isLower := by
    rw [continues, not_digit_of_alpha hc]
    rfl
  induction word generalizing c with
  | nil =>
    cases rest with
    | nil => rfl
    | cons next =>
      rw [singleton_append, cut, head?_cons, Option.any_some, hcontinues c next hc,
        (hstops next rfl).1]
      rfl
  | cons d word ih =>
    obtain ⟨hd, hword⟩ := forall_mem_cons.1 h
    have hr := ih (alpha_of_lower hd) hword
    rw [cons_append] at hr
    rw [cons_append, cons_append, cut, head?_cons, Option.any_some, hcontinues c d hc, hd, hr]
    rfl

/-- What follows a word that is written with a capital does not belong to the word before. -/
theorem stops_capitalized {rest : List (List Char)} (hwords : ∀ next ∈ rest, IsLoweredWord next)
    (hchain : (word :: rest).IsChain Apart) : Stops (isNumber word) (rest.flatMap capitalize) := by
  cases rest with
  | nil => exact fun next hnext => by cases hnext
  | cons b others =>
    obtain ⟨hne, hkind⟩ := hwords b mem_cons_self
    obtain ⟨hpair, -⟩ := isChain_cons_cons.1 hchain
    cases b with
    | nil => exact (hne rfl).elim
    | cons c b =>
      intro next hnext
      have heq : next = c.toUpper := by simpa [capitalize] using hnext.symm
      subst heq
      refine ⟨Char.isLower_toUpper_eq_false c, fun hnumber => ?_⟩
      rcases hkind with hlower | hdigit
      · refine not_digit_of_alpha ?_
        rw [Char.isAlpha_toUpper_eq_isAlpha]
        exact alpha_of_lower (hlower c mem_cons_self)
      · exact (hpair ⟨hnumber, isNumber_iff.2 hdigit⟩).elim

/-- A first word is cut off, with or without a capital. -/
theorem cut_word {shown : List Char} (h : IsLoweredWord word)
    (hshown : shown = word ∨ shown = capitalize word) (hstops : Stops (isNumber word) rest) :
    cut (shown ++ rest) = shown :: cut rest := by
  rcases h.2 with hlower | hdigit
  · have hfalse : Stops false rest := fun next hnext => ⟨(hstops next hnext).1, by simp⟩
    cases word with
    | nil => exact (h.1 rfl).elim
    | cons c word =>
      obtain ⟨hc, hword⟩ := forall_mem_cons.1 hlower
      have halpha := alpha_of_lower hc
      rcases hshown with rfl | rfl
      · exact cut_letters halpha hword hfalse
      · have hsame : word.map Char.toLower = word :=
          (map_congr_left fun d hd => lower_of_lower (hword d hd)).trans (map_id _)
        rw [capitalize, hsame]
        refine cut_letters ?_ hword hfalse
        rwa [Char.isAlpha_toUpper_eq_isAlpha]
  · have hnumber := isNumber_iff.2 hdigit
    rw [hnumber] at hstops
    have hword : shown = word := by
      rcases hshown with rfl | rfl
      · rfl
      · exact capitalize_number hnumber
    subst hword
    exact cut_digits h.1 hdigit hstops

/-- The words with capitals are cut out of what they are written as. -/
theorem cut_flatMap (hwords : ∀ word ∈ pieces, IsLoweredWord word) (hchain : pieces.IsChain Apart) :
    cut (pieces.flatMap capitalize) = pieces.map capitalize := by
  induction pieces with
  | nil => rfl
  | cons word rest ih =>
    obtain ⟨hword, hr⟩ := forall_mem_cons.1 hwords
    rw [flatMap_cons, cut_word hword (.inr rfl) (stops_capitalized hr hchain),
      ih hr hchain.tail, map_cons]

/-- Words that are written as one identifier can be told again from it. -/
theorem lowered_cut_joined (hwords : ∀ word ∈ pieces, IsLoweredWord word)
    (hchain : pieces.IsChain Apart) : (cut (joined pieces)).map lowered = pieces := by
  cases pieces with
  | nil => rfl
  | cons a =>
    obtain ⟨ha, hr⟩ := forall_mem_cons.1 hwords
    rw [joined, cut_word ha (.inl rfl) (stops_capitalized hr hchain),
      cut_flatMap hr hchain.tail, map_cons, ha.lowered_eq, map_map]
    congr 1
    refine (map_congr_left fun word hword => ?_).trans (map_id _)
    exact (lowered_capitalize word).trans (hr word hword).lowered_eq

end Cutting

/-- Words are written as the same identifier exactly when they are the same, numbers that follow
each other being one. -/
theorem joined_eq_iff {a b : List (List Char)}
    (ha : ∀ word ∈ a, IsLoweredWord word) (hsecond : ∀ word ∈ b, IsLoweredWord word) :
    joined a = joined b ↔ joinNumbers a = joinNumbers b := by
  constructor
  · intro h
    obtain ⟨hwords, hchain⟩ := joinNumbers_words ha
    obtain ⟨hwords', hchain'⟩ := joinNumbers_words hsecond
    rw [← lowered_cut_joined hwords hchain, ← lowered_cut_joined hwords' hchain',
      joined_joinNumbers, joined_joinNumbers, h]
  · intro h
    rw [← joined_joinNumbers a, ← joined_joinNumbers b, h]

/-- Two names have the same name of a schema exactly when they sound the same. -/
theorem schema_name_eq_iff (a b : String) : schemaName a = schemaName b ↔ spoken a = spoken b := by
  have hending : ("Schema" : String).toList = ending := by decide
  have hpieces (name : String) : camelChars (name ++ "Schema").toList =
      joined ((words name.toList).map lowered ++ [lowered ending]) := by
    rw [camelChars_eq_joined, String.toList_append, hending, words_append_ending, map_append]
    rfl
  have hwords (name : String) :
      ∀ word ∈ (words name.toList).map lowered ++ [lowered ending], IsLoweredWord word := by
    have hlowered := lowered_words (name.toList ++ ending)
    rwa [words_append_ending, map_append] at hlowered
  have hlast : isNumber (lowered ending) = false := by decide
  rw [schemaName, schemaName, camelCase, camelCase, String.ofList_inj, hpieces,
    hpieces, joined_eq_iff (hwords a) (hwords b), joinNumbers_append hlast,
    joinNumbers_append hlast, append_cancel_right_eq, spoken, spoken]

section Letters

/-- The letters and digits of a text, in small letters. -/
def letters (text : String) : List Char :=
  lowered (text.toList.filter Char.isAlphanum)

/-- The words of a text are made of all its letters and digits. -/
theorem words_flatten (cs : List Char) : (words cs).flatten = cs.filter Char.isAlphanum := by
  have hpush (c : Char) (pieces : List (List Char)) :
      (pushWord c pieces).flatten = c :: pieces.flatten := by
    cases pieces <;> rfl
  induction cs with
  | nil => rfl
  | cons c rest ih =>
    rw [words, filter_cons, ← ih]
    split
    · split
      · exact hpush c (words rest)
      · rfl
    · rfl

/-- Writing words as one identifier changes no letter but for its case. -/
theorem lowered_joined (pieces : List (List Char)) :
    lowered (joined pieces) = lowered pieces.flatten := by
  have hcapitals (rest : List (List Char)) :
      lowered (rest.flatMap capitalize) = lowered rest.flatten := by
    induction rest with
    | nil => rfl
    | cons word rest ih =>
      rw [flatMap_cons, flatten_cons, lowered, map_append, lowered, map_append]
      exact congrArg₂ (· ++ ·) (lowered_capitalize word) ih
  cases pieces with
  | nil => rfl
  | cons first rest =>
    rw [joined, flatten_cons, lowered, map_append, lowered, map_append]
    exact congrArg (_ ++ ·) (hcapitals rest)

theorem alphanum_lower (c : Char) : c.toLower.isAlphanum = c.isAlphanum := by
  by_cases hupper : c.isUpper = true
  · have halpha : c.isAlpha = true := by rw [Char.isAlpha, hupper, Bool.true_or]
    rw [Char.isAlphanum, Char.isAlphanum, Char.isAlpha_toLower_eq_isAlpha, halpha, Bool.true_or,
      Bool.true_or]
  · rw [Char.toLower_eq_of_not_isUpper hupper]

theorem lowered_camelCase (text : String) : lowered (camelCase text).toList = letters text := by
  have hwords : ((words text.toList).map lowered).flatten = lowered (words text.toList).flatten :=
    map_flatten.symm
  rw [camelCase, String.toList_ofList, camelChars_eq_joined, lowered_joined, hwords, words_flatten]
  simp [letters, lowered]

theorem alphanum_of_mem_camelCase {text : String} (hc : c ∈ (camelCase text).toList) :
    c.isAlphanum = true := by
  have hlower : c.toLower ∈ letters text := by
    rw [← lowered_camelCase]
    exact mem_map_of_mem hc
  obtain ⟨d, hd, heq⟩ := mem_map.1 hlower
  rw [← alphanum_lower, ← heq, alphanum_lower]
  exact (mem_filter.1 hd).2

/-- The identifier of a text has all its letters and digits in order, up to case, and nothing else;
so names with the same name of a schema have the same letters and digits. -/
theorem camel_case_keeps_letters (text : String) :
    lowered (camelCase text).toList = letters text ∧
      (∀ c ∈ (camelCase text).toList, c.isAlphanum = true) ∧
      ∀ other, schemaName text = schemaName other → letters text = letters other := by
  refine ⟨lowered_camelCase text, fun c hc => alphanum_of_mem_camelCase hc, fun other h => ?_⟩
  have hending (name : String) : letters (name ++ "Schema") = letters name ++ "schema".toList := by
    rw [letters, String.toList_append, filter_append, lowered, map_append]
    rfl
  have hsame : letters (text ++ "Schema") = letters (other ++ "Schema") := by
    rw [← lowered_camelCase, ← lowered_camelCase]
    exact congrArg (fun name => lowered name.toList) h
  rwa [hending, hending, append_cancel_right_eq] at hsame

end Letters

end Schemata.Identifier
