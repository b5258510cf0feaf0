/-!
# Identifiers

`isIdentifier` tells the texts that may stand as a property name without quotes. `words` cuts a text
into words at changes of case, between letters and digits, and at every other character; `camelCase`
joins the words again, each but the first with a capital.
-/

namespace Schemata.Identifier

/-- Whether the character may start an identifier. -/
def isStart (c : Char) : Bool :=
  c.isAlpha || c = '_' || c = '$'

/-- Whether the character may stand after the first one of an identifier. -/
def isPart (c : Char) : Bool :=
  c.isAlphanum || c = '_' || c = '$'

/-- Characters of an identifier up to the end; one line break is allowed there. -/
def isTail : List Char → Bool
  | [] => true
  | c :: rest => (c = '\n' && rest.isEmpty) || (isPart c && isTail rest)

/-- Whether the characters may stand as a property name without quotes. -/
def isIdentifierChars : List Char → Bool
  | [] => false
  | c :: rest => isStart c && isTail rest

/-- Whether the text may stand as a property name without quotes. -/
def isIdentifier (text : String) : Bool :=
  isIdentifierChars text.toList

theorem isPart_of_isStart {c : Char} (h : isStart c = true) : isPart c = true := by
  simp only [isStart, Bool.or_eq_true] at h
  simp only [isPart, Char.isAlphanum, Bool.or_eq_true]
  exact h.imp_left (Or.imp_left .inl)

/-- An identifier is made of characters of identifiers, except for a line break at its end. -/
theorem isPart_of_mem {text : String} (h : isIdentifier text = true) {c : Char}
    (hc : c ∈ text.toList) : isPart c = true ∨ c = '\n' := by
  have htail (cs : List Char) (hcs : isTail cs = true) (hc : c ∈ cs) :
      isPart c = true ∨ c = '\n' := by
    induction cs with
    | nil => cases hc
    | cons first rest ih =>
      simp only [isTail, Bool.or_eq_true, Bool.and_eq_true, decide_eq_true_eq,
        List.isEmpty_iff] at hcs
      rcases List.mem_cons.1 hc with rfl | hc
      · exact hcs.symm.imp And.left And.left
      · rcases hcs with ⟨-, rfl⟩ | ⟨-, hrest⟩
        · cases hc
        · exact ih hrest hc
  unfold isIdentifier at h
  cases hchars : text.toList with
  | nil => simp [hchars] at hc
  | cons first rest =>
    simp only [hchars, isIdentifierChars, Bool.and_eq_true] at h
    rw [hchars] at hc
    rcases List.mem_cons.1 hc with rfl | hc
    · exact .inl (isPart_of_isStart h.1)
    · exact htail rest h.2 hc

/-- Whether a character goes into the same word as the characters after it. Of a run of capitals
before a small letter, the last one starts the next word. -/
def joins (c : Char) : List Char → Bool
  | [] => false
  | next :: rest =>
    if c.isDigit then next.isDigit
    else if c.isLower then next.isLower
    else next.isLower || (next.isUpper && !(rest.head?.any Char.isLower))

/-- Put a character before the first word. -/
def pushWord (c : Char) : List (List Char) → List (List Char)
  | [] => [[c]]
  | word :: rest => (c :: word) :: rest

/-- The words of a text. -/
def words : List Char → List (List Char)
  | [] => []
  | c :: rest =>
    if c.isAlphanum then
      if joins c rest then pushWord c (words rest) else [c] :: words rest
    else words rest

/-- A word with its first letter as a capital and the others small. -/
def capitalize : List Char → List Char
  | [] => []
  | c :: rest => c.toUpper :: rest.map Char.toLower

/-- The words of a text as one identifier, as characters. -/
def camelChars (cs : List Char) : List Char :=
  match words cs with
  | [] => []
  | first :: rest => first.map Char.toLower ++ rest.flatMap capitalize

/-- The words of a text as one identifier. -/
def camelCase (text : String) : String :=
  String.ofList (camelChars text.toList)

/-- The name of the schema of a declaration. -/
def schemaName (name : String) : String :=
  camelCase (name ++ "Schema")

end Schemata.Identifier
