import ConfigTree.Digest.Sha256
import ConfigTree.Digest.Blake3
import ConfigTree.Error
/-!
# Digest algorithms

The choice between the two digest functions, one-shot and in parts.
-/

namespace ConfigTree

/-- The digest function of a tree. -/
inductive Algorithm where
  | blake3
  | sha256
deriving DecidableEq, Inhabited

namespace Algorithm

/-- The algorithm where none is chosen. -/
def standard : Algorithm := blake3

/-- The name by which an algorithm is chosen and shown. -/
def name : Algorithm → String
  | blake3 => "blake3"
  | sha256 => "sha256"

/-- The capitalised name, as it stands inside the text of a larger value. -/
def inspect : Algorithm → String
  | blake3 => "Blake3"
  | sha256 => "Sha256"

/-- The algorithm of exactly this name. -/
def ofExactName? (s : String) : Option Algorithm :=
  if s = "blake3" then some blake3 else if s = "sha256" then some sha256 else none

/-- Reads a name in any mixture of ASCII cases; `sha256` may be written with a hyphen. -/
def ofName (s : String) : Except Error Algorithm :=
  let lower := String.ofList (s.toList.map Char.toLower)
  if lower = "sha-256" then .ok sha256
  else match ofExactName? lower with
    | some a => .ok a
    | none => .error (.unknownAlgorithm lower)

def digest : Algorithm → Bytes → Hash
  | blake3 => Blake3.digest
  | sha256 => Sha256.digest

end Algorithm

inductive Hasher where
  | blake3 (h : Blake3.Hasher)
  | sha256 (h : Sha256.Hasher)

namespace Hasher

def new : Algorithm → Hasher
  | .blake3 => .blake3 .new
  | .sha256 => .sha256 .new

def absorb : Hasher → Bytes → Hasher
  | .blake3 h, part => .blake3 (h.absorb part)
  | .sha256 h, part => .sha256 (h.absorb part)

/-- The hash of all parts, one after another. -/
def finish : Hasher → Hash
  | .blake3 h => h.finish
  | .sha256 h => h.finish

end Hasher

/-- The hash of several byte strings, taken in one after another. -/
def Algorithm.digestParts (a : Algorithm) (parts : List Bytes) : Hash :=
  (parts.foldl Hasher.absorb (Hasher.new a)).finish

end ConfigTree
