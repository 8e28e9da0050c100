/-!
# Characters that leave no trace

Joiners, direction controls, variation selectors and fillers shape the text
around them, and a display that does not know them shows nothing in their place.
Some are letters or marks by category, so that the category alone does not tell
them. The table is the Unicode property `Default_Ignorable_Code_Point`.
-/

namespace Frontend.Text

/-- The ignorable code points, as inclusive ranges in increasing order. -/
def ignorableRanges : List (Nat × Nat) :=
  [(0xad, 0xad), (0x34f, 0x34f), (0x61c, 0x61c), (0x115f, 0x1160), (0x17b4, 0x17b5),
    (0x180b, 0x180f), (0x200b, 0x200f), (0x202a, 0x202e), (0x2060, 0x206f), (0x3164, 0x3164),
    (0xfe00, 0xfe0f), (0xfeff, 0xfeff), (0xffa0, 0xffa0), (0xfff0, 0xfff8), (0x1bca0, 0x1bca3),
    (0x1d173, 0x1d17a), (0xe0000, 0xe0fff)]

/-- Whether a character is one that a display may leave out. -/
def isIgnorable (c : Char) : Bool :=
  ignorableRanges.any fun (first, last) => first ≤ c.toNat && c.toNat ≤ last

end Frontend.Text
