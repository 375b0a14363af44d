import ConfigTree.Hash
/-!
# Words of 32 bits

What the two digest functions share: rotation, words read from bytes in either byte order, and
the state of eight words that both end with.
-/

namespace ConfigTree

/-- Rotates the bits of `w` to the right, for `0 < n < 32`. -/
def rotateRight (w n : UInt32) : UInt32 := (w >>> n) ||| (w <<< (32 - n))

/-- Words from groups of four bytes, most significant first; an incomplete group is dropped. -/
def wordsBigEndian : Bytes → List UInt32
  | a :: b :: c :: d :: rest =>
    ((a.toUInt32 <<< 24) ||| (b.toUInt32 <<< 16) ||| (c.toUInt32 <<< 8) ||| d.toUInt32)
      :: wordsBigEndian rest
  | _ => []

/-- Words from groups of four bytes, least significant first; an incomplete group is dropped. -/
def wordsLittleEndian : Bytes → List UInt32
  | a :: b :: c :: d :: rest =>
    ((d.toUInt32 <<< 24) ||| (c.toUInt32 <<< 16) ||| (b.toUInt32 <<< 8) ||| a.toUInt32)
      :: wordsLittleEndian rest
  | _ => []

/-- Eight words of 32 bits. -/
structure Words8 where
  (a b c d e f g h : UInt32)

namespace Words8

def toList (s : Words8) : List UInt32 := [s.a, s.b, s.c, s.d, s.e, s.f, s.g, s.h]

/-- The hash spelled by the words, each most significant byte first. -/
def toHashBigEndian (s : Words8) : Hash where
  toBytes := s.toList.flatMap fun w => Bytes.bigEndian 4 w.toNat
  length_toBytes := by simp [toList]

/-- The hash spelled by the words, each least significant byte first. -/
def toHashLittleEndian (s : Words8) : Hash where
  toBytes := s.toList.flatMap fun w => Bytes.littleEndian 4 w.toNat
  length_toBytes := by simp [toList]

end Words8

end ConfigTree
