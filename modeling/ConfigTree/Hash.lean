import ConfigTree.Bytes
/-!
# Content hashes
-/

namespace ConfigTree

/-- A content hash: exactly 32 bytes. -/
structure Hash where
  toBytes : Bytes
  length_toBytes : toBytes.length = 32
deriving DecidableEq

namespace Hash

@[ext] theorem ext {a b : Hash} (h : a.toBytes = b.toBytes) : a = b := by
  cases a; cases b; cases h; rfl

def ofBytes? (bytes : Bytes) : Option Hash :=
  if h : bytes.length = 32 then some ⟨bytes, h⟩ else none

/-- Hashes are ordered as byte strings. -/
instance : Ord Hash := ⟨fun a b => compare a.toBytes b.toBytes⟩

end Hash

end ConfigTree
