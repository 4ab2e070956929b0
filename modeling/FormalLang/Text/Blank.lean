/-!
# White space, lines and words

Texts are read as lists of characters.  White space is the `White_Space` property of the Unicode
standard; a zero width space or a byte order mark does not have it.

**What is cut where.**  `trim` removes white space at both ends, `words` cuts at every run of it and
never yields an empty word, `splitAt` cuts at every occurrence of one character and keeps the empty
pieces, `splitArrow` cuts once, at the first `->`.
-/

namespace FormalLang.Text

/-! ## 1. White space -/

/-- The ranges of code points with the property `White_Space`, first and last included. -/
def blankRanges : List (Nat × Nat) :=
  [(0x9, 0xd), (0x20, 0x20), (0x85, 0x85), (0xa0, 0xa0), (0x1680, 0x1680), (0x2000, 0x200a),
    (0x2028, 0x2029), (0x202f, 0x202f), (0x205f, 0x205f), (0x3000, 0x3000)]

/-- Whether a character is white space. -/
def isBlank (c : Char) : Bool :=
  blankRanges.any fun r => decide (r.1 ≤ c.toNat) && decide (c.toNat ≤ r.2)

/-- The text from its first character that is not white space on. -/
def trimStart (cs : List Char) : List Char := cs.dropWhile isBlank

/-- The text up to its last character that is not white space. -/
def trimEnd (cs : List Char) : List Char := (cs.reverse.dropWhile isBlank).reverse

/-- The text without the white space at both ends. -/
def trim (cs : List Char) : List Char := trimEnd (trimStart cs)

/-! ## 2. Words -/

/-- Puts a character in front of the first piece of a text that was cut into pieces. -/
def extendFirst (c : Char) : List (List Char) → List (List Char)
  | [] => [[c]]
  | piece :: rest => (c :: piece) :: rest

/-- The maximal pieces without white space, in order. -/
def words : List Char → List (List Char)
  | [] => []
  | c :: cs =>
    if isBlank c then words cs
    else if cs.head?.all isBlank then [c] :: words cs
    else extendFirst c (words cs)

/-! ## 3. Pieces -/

/-- The pieces between the occurrences of a separator, one more than there are separators. -/
def splitAt (separator : Char) : List Char → List (List Char)
  | [] => [[]]
  | c :: cs =>
    if c = separator then [] :: splitAt separator cs else extendFirst c (splitAt separator cs)

/-- The texts before and after the first `->`. -/
def splitArrow : List Char → Option (List Char × List Char)
  | [] => none
  | [_] => none
  | c :: d :: cs =>
    if c = '-' ∧ d = '>' then some ([], cs)
    else (splitArrow (d :: cs)).map fun p => (c :: p.1, p.2)

/-- The lines of a text.  A text that ends in a line break has an empty last line. -/
def lines (cs : List Char) : List (List Char) := splitAt '\n' cs

/-! ## 4. Lengths in bytes -/

/-- The length of a text in UTF-8. -/
def byteLength : List Char → Nat
  | [] => 0
  | c :: cs => c.utf8Size + byteLength cs

end FormalLang.Text
