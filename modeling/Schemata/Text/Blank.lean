/-!
# Blank characters

`isBlank` is the class of characters that separate words. `trim` removes them from both ends of a
text and `firstWord` cuts a text after its first word.
-/

namespace Schemata.Text

/-- The blank characters, as ascending ranges of code points with both ends included. -/
def blankRanges : List (Nat × Nat) :=
  [(0x9, 0xd), (0x1c, 0x20), (0x85, 0x85), (0xa0, 0xa0), (0x1680, 0x1680), (0x2000, 0x200a),
   (0x2028, 0x2029), (0x202f, 0x202f), (0x205f, 0x205f), (0x3000, 0x3000)]

/-- Whether the character separates words. -/
def isBlank (c : Char) : Bool :=
  blankRanges.any fun range => range.1 ≤ c.toNat && c.toNat ≤ range.2

/-- The characters without the blanks at both ends. -/
def trimChars (cs : List Char) : List Char :=
  ((cs.dropWhile isBlank).reverse.dropWhile isBlank).reverse

/-- The text without the blanks at both ends. -/
def trim (text : String) : String :=
  String.ofList (trimChars text.toList)

/-- The first word of a text and what follows it, if that is more than blanks. -/
def firstWord (text : String) : String × Option String :=
  let cs := trimChars text.toList
  let rest := trimChars (cs.dropWhile (!isBlank ·))
  (String.ofList (cs.takeWhile (!isBlank ·)),
    if rest.isEmpty then none else some (String.ofList rest))

end Schemata.Text
