import ConfigTree.Bytes
/-!
# Byte strings that arrive in parts

A digest that works piece by piece can be fed a byte string in parts of any length. Full pieces
are folded into the state as soon as more bytes follow them; the bytes that may still be the last
piece wait, because both digests treat the last piece in a way of its own.
-/

namespace ConfigTree

/-- A byte string under way: the state after the pieces already folded, and the waiting bytes. -/
structure Piecewise (σ : Type) where
  state : σ
  waiting : Bytes := []

/-- Takes in one more part, with pieces of `n` bytes. -/
def Piecewise.absorb {σ : Type} (n : Nat) (step : σ → Bytes → σ) (s : Piecewise σ) (part : Bytes) :
    Piecewise σ :=
  let pieces := Bytes.pieces n (s.waiting ++ part)
  ⟨pieces.dropLast.foldl step s.state, pieces.getLastD []⟩

end ConfigTree
