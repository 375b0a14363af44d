import ConfigTree.Datum.Basic
import ConfigTree.Error
import ConfigTree.Bytes
/-!
# The binary form of typed data

Integers stand least significant byte first in their full width, lengths in eight bytes before
text, bytes, sequences and maps, and the index of a variant in four bytes. Tuples and records are
the forms of their parts, one after another. There are no tags: the form of a value can be read
only by a program that knows the type.
-/

namespace ConfigTree.Datum

/-- A length before what it counts. -/
def binaryLength (n : Nat) : Bytes := Bytes.littleEndian 8 n

mutual
/-- The bytes of a value, or the first cause for which it has none. -/
def binary : Datum → Except BinaryError Bytes
  | .unit => .ok []
  | .absent => .ok [0]
  | .present x => do let form ← x.binary; .ok (1 :: form)
  | .bool b => .ok [if b then 1 else 0]
  | .int width n => .ok (Bytes.littleEndian width (n % (Nat.pow 256 width : Nat)).toNat)
  | .single bits => .ok (Bytes.littleEndian 4 bits.toNat)
  | .double bits => .ok (Bytes.littleEndian 8 bits.toNat)
  | .char c => .ok (Bytes.ofString c.toString)
  | .text s => .ok (let utf8 := Bytes.ofString s; binaryLength utf8.length ++ utf8)
  | .bytes data => .ok (binaryLength data.length ++ data)
  | .sequence sized items =>
    if sized then do
      let form ← binaryItems items
      .ok (binaryLength items.length ++ form)
    else .error .unknownLength
  | .tuple items => binaryItems items
  | .map sized entries =>
    if sized then do
      let form ← binaryEntries entries
      .ok (binaryLength entries.length ++ form)
    else .error .unknownLength
  | .record fields => binaryFields fields
  | .unitVariant index _ => .ok (Bytes.littleEndian 4 index.toNat)
  | .variant index _ x => do
    let form ← x.binary
    .ok (Bytes.littleEndian 4 index.toNat ++ form)
  | .refused message => .error (.refused message)
termination_by structural x => x

def binaryItems : List Datum → Except BinaryError Bytes
  | [] => .ok []
  | x :: rest => do
    let form ← x.binary
    let more ← binaryItems rest
    .ok (form ++ more)

def binaryEntries : List (Datum × Datum) → Except BinaryError Bytes
  | [] => .ok []
  | (k, x) :: rest => do
    let key ← k.binary
    let form ← x.binary
    let more ← binaryEntries rest
    .ok (key ++ form ++ more)

def binaryFields : List (String × Datum) → Except BinaryError Bytes
  | [] => .ok []
  | (_, x) :: rest => do
    let form ← x.binary
    let more ← binaryFields rest
    .ok (form ++ more)
end

end ConfigTree.Datum
