import ConfigTree.Digest.Algorithm
import ConfigTree.Datum.Binary
import ConfigTree.Datum.Json
/-!
# Hashing schemes

A scheme says how the values of a tree are hashed: an encoding turns a value into bytes, and an
algorithm turns bytes into a hash. The three encodings at hand take the bytes of a text, and the
binary and JSON forms of what can be described as a datum.
-/

namespace ConfigTree

/-- The bytes that stand for a value, if it has any. -/
abbrev Encoding (V : Type) := V → Except Error Bytes

namespace Encoding

def utf8 : Encoding String := fun s => .ok (Bytes.ofString s)

/-- The binary form of what describes a value. -/
def binary {V : Type} (describe : V → Datum) : Encoding V := fun v =>
  match (describe v).binary with
  | .ok bytes => .ok bytes
  | .error e => .error (.binary e)

/-- The compact JSON text of what describes a value. -/
def json {V : Type} (describe : V → Datum) : Encoding V := fun v =>
  match (describe v).json with
  | .ok j => .ok (Bytes.ofString j.compact)
  | .error e => .error (.json e)

end Encoding

/-- How the values and the nodes of a tree are hashed. -/
structure Scheme (V : Type) where
  algorithm : Algorithm
  encode : Encoding V

namespace Scheme

/-- The hash of a value, unless the encoding refuses it. -/
def hashValue {V : Type} (s : Scheme V) (v : V) : Except Error Hash :=
  (s.encode v).map s.algorithm.digest

def inspect {V : Type} (s : Scheme V) : String :=
  "Digest \x7b algorithm: " ++ s.algorithm.inspect ++ ", .. \x7d"

end Scheme

end ConfigTree
