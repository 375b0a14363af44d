import ConfigTree.Digest.Words
import ConfigTree.Digest.Piecewise
/-!
# SHA-256

The message is padded to whole blocks of 64 bytes, and each block is compressed into a state of
eight words. `digest` is the one-shot definition; `Hasher` takes the message in parts.
-/

namespace ConfigTree.Sha256

/-- The state before the first block. -/
def start : Words8 :=
  ⟨0x6a09e667, 0xbb67ae85, 0x3c6ef372, 0xa54ff53a, 0x510e527f, 0x9b05688c, 0x1f83d9ab, 0x5be0cd19⟩

/-- One constant per round. -/
def roundConstants : List UInt32 := [
  0x428a2f98, 0x71374491, 0xb5c0fbcf, 0xe9b5dba5, 0x3956c25b, 0x59f111f1, 0x923f82a4, 0xab1c5ed5,
  0xd807aa98, 0x12835b01, 0x243185be, 0x550c7dc3, 0x72be5d74, 0x80deb1fe, 0x9bdc06a7, 0xc19bf174,
  0xe49b69c1, 0xefbe4786, 0x0fc19dc6, 0x240ca1cc, 0x2de92c6f, 0x4a7484aa, 0x5cb0a9dc, 0x76f988da,
  0x983e5152, 0xa831c66d, 0xb00327c8, 0xbf597fc7, 0xc6e00bf3, 0xd5a79147, 0x06ca6351, 0x14292967,
  0x27b70a85, 0x2e1b2138, 0x4d2c6dfc, 0x53380d13, 0x650a7354, 0x766a0abb, 0x81c2c92e, 0x92722c85,
  0xa2bfe8a1, 0xa81a664b, 0xc24b8b70, 0xc76c51a3, 0xd192e819, 0xd6990624, 0xf40e3585, 0x106aa070,
  0x19a4c116, 0x1e376c08, 0x2748774c, 0x34b0bcb5, 0x391c0cb3, 0x4ed8aa4a, 0x5b9cca4f, 0x682e6ff3,
  0x748f82ee, 0x78a5636f, 0x84c87814, 0x8cc70208, 0x90befffa, 0xa4506ceb, 0xbef9a3f7, 0xc67178f2]

/-- One round on the state, with its constant and its message word. -/
def round (s : Words8) (k w : UInt32) : Words8 :=
  let sum1 := rotateRight s.e 6 ^^^ rotateRight s.e 11 ^^^ rotateRight s.e 25
  let choice := (s.e &&& s.f) ^^^ (~~~s.e &&& s.g)
  let t1 := s.h + sum1 + choice + k + w
  let sum0 := rotateRight s.a 2 ^^^ rotateRight s.a 13 ^^^ rotateRight s.a 22
  let majority := (s.a &&& s.b) ^^^ (s.a &&& s.c) ^^^ (s.b &&& s.c)
  ⟨t1 + sum0 + majority, s.a, s.b, s.c, s.d + t1, s.e, s.f, s.g⟩

/-- The message word that follows a window of sixteen. -/
def nextWord : List UInt32 → UInt32
  | w0 :: w1 :: _ :: _ :: _ :: _ :: _ :: _ :: _ :: w9 :: _ :: _ :: _ :: _ :: w14 :: _ =>
    let small0 := rotateRight w1 7 ^^^ rotateRight w1 18 ^^^ (w1 >>> 3)
    let small1 := rotateRight w14 17 ^^^ rotateRight w14 19 ^^^ (w14 >>> 10)
    w0 + small0 + w9 + small1
  | _ => 0

/-- One round per constant. The window holds the message word of this round and the fifteen after
it. -/
def rounds : (constants window : List UInt32) → Words8 → Words8
  | k :: ks, w :: ws, s => rounds ks (ws ++ [nextWord (w :: ws)]) (round s k w)
  | _, _, s => s

/-- Folds one block of 64 bytes into the state. -/
def compress (s : Words8) (block : Bytes) : Words8 :=
  let t := rounds roundConstants (wordsBigEndian block) s
  ⟨s.a + t.a, s.b + t.b, s.c + t.c, s.d + t.d, s.e + t.e, s.f + t.f, s.g + t.g, s.h + t.h⟩

/-- What follows a message of `length` bytes: a one bit, zero bits up to the last eight bytes of a
block, and the length in bits. -/
def padding (length : Nat) : Bytes :=
  0x80 :: (List.replicate ((119 - length % 64) % 64) 0 ++ Bytes.bigEndian 8 (8 * length))

def digest (data : Bytes) : Hash :=
  ((Bytes.pieces 64 (data ++ padding data.length)).foldl compress start).toHashBigEndian

/-- Number of blocks folded so far, and the state after them. -/
structure Progress where
  blocks : Nat := 0
  words : Words8 := start

def Progress.fold (p : Progress) (block : Bytes) : Progress :=
  ⟨p.blocks + 1, compress p.words block⟩

abbrev Hasher := Piecewise Progress

def Hasher.new : Hasher := ⟨{}, []⟩

def Hasher.absorb (h : Hasher) (part : Bytes) : Hasher := Piecewise.absorb 64 Progress.fold h part

def Hasher.finish (h : Hasher) : Hash :=
  let length := 64 * h.state.blocks + h.waiting.length
  ((Bytes.pieces 64 (h.waiting ++ padding length)).foldl compress h.state.words).toHashBigEndian

end ConfigTree.Sha256
