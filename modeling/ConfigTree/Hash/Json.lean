import ConfigTree.Hash
import ConfigTree.Json.Reader
import ConfigTree.Json.Writer
/-!
# Hashes in JSON

A hash is an array of 32 integers below 256.
-/

namespace ConfigTree.Hash

def toJson (h : Hash) : Json := .array (h.toBytes.map fun b => .int b.toNat)

/-- Reads an array of exactly 32 bytes. -/
def reader : Json.Reader Hash := fun cs =>
  match Json.Reader.skipSpace cs with
  | [] => .error .truncated
  | '[' :: rest => do
    let (bytes, rest) ← Json.Reader.bytesExactly .hash 32 0 rest
    let rest ← Json.Reader.closeArray rest
    match ofBytes? bytes with
    | some h => .ok (h, rest)
    | none => .error (.mismatch (.wrongLength bytes.length .hash))
  | cs => .error (Json.Reader.refuse .hash cs)

/-- Reads the text that `toJson` spells. -/
def ofJson (text : String) : Except Json.Error Hash := reader.readAll text

end ConfigTree.Hash
