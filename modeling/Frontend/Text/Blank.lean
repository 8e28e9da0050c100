/-!
# Blanks

Two sets of blanks matter: those that may stand between tokens, which are five
ASCII characters, and those that are cut from the end of a printed line, which
are the characters with the Unicode property `White_Space`.
-/

namespace Frontend.Text

/-- Whether a character may stand between tokens: space, tab, line feed,
carriage return or form feed. -/
def isBlank (c : Char) : Bool :=
  c = ' ' || c = '\t' || c = '\n' || c = '\r' || c = '\x0c'

/-- The code points with the property `White_Space`, as inclusive ranges in
increasing order. -/
def whitespaceRanges : List (Nat × Nat) :=
  [(0x9, 0xd), (0x20, 0x20), (0x85, 0x85), (0xa0, 0xa0), (0x1680, 0x1680), (0x2000, 0x200a),
    (0x2028, 0x2029), (0x202f, 0x202f), (0x205f, 0x205f), (0x3000, 0x3000)]

/-- Whether a character is white space anywhere in Unicode. -/
def isWhitespace (c : Char) : Bool :=
  whitespaceRanges.any fun (first, last) => first ≤ c.toNat && c.toNat ≤ last

/-- The characters without the white space at their end. -/
def trimEnd (cs : List Char) : List Char :=
  (cs.reverse.dropWhile isWhitespace).reverse

end Frontend.Text
