/-!
# Byte strings

Byte strings as lists, integers in a fixed number of bytes, and the cut of a byte string into
pieces. `pieces n` never returns an empty list and loses nothing (`flatten_pieces`); only its last
piece may be shorter than `n`.
-/

namespace ConfigTree

abbrev Bytes := List UInt8

namespace Bytes

def ofString (s : String) : Bytes := s.toList.flatMap String.utf8EncodeChar

/-- The `width` low bytes of `n`, least significant first. -/
def littleEndian : (width : Nat) → (n : Nat) → Bytes
  | 0, _ => []
  | width + 1, n => n.toUInt8 :: littleEndian width (n / 256)

/-- The `width` low bytes of `n`, most significant first. -/
def bigEndian (width n : Nat) : Bytes := (littleEndian width n).reverse

@[simp] theorem length_littleEndian (width n : Nat) : (littleEndian width n).length = width := by
  induction width generalizing n with
  | zero => rfl
  | succ width ih => simp [littleEndian, ih]

@[simp] theorem length_bigEndian (width n : Nat) : (bigEndian width n).length = width := by
  simp [bigEndian]

/-- One step per piece; the first argument bounds their number. -/
def piecesWithin (n : Nat) : Nat → Bytes → List Bytes
  | 0, data => [data]
  | bound + 1, data =>
    match data.drop n with
    | [] => [data]
    | next :: rest => data.take n :: piecesWithin n bound (next :: rest)

/-- Cuts `data` into pieces of `n` bytes. The last piece holds what remains, and is empty only if
`data` is. -/
def pieces (n : Nat) (data : Bytes) : List Bytes := piecesWithin n data.length data

theorem flatten_piecesWithin (n bound : Nat) (data : Bytes) :
    (piecesWithin n bound data).flatten = data := by
  induction bound generalizing data with
  | zero => simp [piecesWithin]
  | succ bound ih =>
    rw [piecesWithin]
    split
    · simp
    · next next rest h => simp [ih, ← h]

@[simp] theorem flatten_pieces (n : Nat) (data : Bytes) : (pieces n data).flatten = data :=
  flatten_piecesWithin n data.length data

theorem pieces_ne_nil (n : Nat) (data : Bytes) : pieces n data ≠ [] := by
  unfold pieces
  cases data.length with
  | zero => simp [piecesWithin]
  | succ bound => rw [piecesWithin]; split <;> simp

end Bytes

end ConfigTree
