/-!
# Characters that are not shown

The code points with the property Default_Ignorable_Code_Point in Unicode 17: fillers, joiners,
variation selectors and code points kept free for more of them. They have a place in a text and
leave no trace of it. The ranges are ascending, with both ends included.
-/

namespace ConfigTree.Text

/-- Ranges of code points that are not shown. -/
def ignorableRanges : List (Nat × Nat) := [
  (0xad, 0xad), (0x34f, 0x34f), (0x61c, 0x61c), (0x115f, 0x1160), (0x17b4, 0x17b5),
  (0x180b, 0x180f), (0x200b, 0x200f), (0x202a, 0x202e), (0x2060, 0x206f), (0x3164, 0x3164),
  (0xfe00, 0xfe0f), (0xfeff, 0xfeff), (0xffa0, 0xffa0), (0xfff0, 0xfff8), (0x1bca0, 0x1bca3),
  (0x1d173, 0x1d17a), (0xe0000, 0xe0fff)]

/-- Whether `c` is not shown. -/
def isIgnorable (c : Char) : Bool :=
  ignorableRanges.any fun (first, last) => first ≤ c.toNat && c.toNat ≤ last

end ConfigTree.Text
