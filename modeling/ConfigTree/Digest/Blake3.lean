import ConfigTree.Digest.Words
import ConfigTree.Digest.Piecewise
/-!
# BLAKE3

The message is cut into chunks of 1024 bytes. A chunk, and a pair of subtrees, becomes an
`Output`: the arguments of its last compression, which is run in one way inside the tree
(`Output.chain`) and in another at its root (`Output.root`). `digest` is the one-shot definition,
where the left subtree holds the largest power of two of chunks that leaves some for the right;
`Hasher` keeps the roots of the complete subtrees to the left of the chunk under way.
-/

namespace ConfigTree.Blake3

/-- The chaining value of every chunk's first block. -/
def start : Words8 :=
  ⟨0x6a09e667, 0xbb67ae85, 0x3c6ef372, 0xa54ff53a, 0x510e527f, 0x9b05688c, 0x1f83d9ab, 0x5be0cd19⟩

/-- Four words: one row of the state. -/
structure Row where
  (w x y z : UInt32)

/-- Four rows of four words. -/
structure Grid where
  (a b c d : Row)

/-- Mixes one column of the state with two message words. -/
def mix (a b c d m n : UInt32) : UInt32 × UInt32 × UInt32 × UInt32 :=
  let a := a + b + m
  let d := rotateRight (d ^^^ a) 16
  let c := c + d
  let b := rotateRight (b ^^^ c) 12
  let a := a + b + n
  let d := rotateRight (d ^^^ a) 8
  let c := c + d
  let b := rotateRight (b ^^^ c) 7
  (a, b, c, d)

/-- Mixes the four columns with eight message words, two for each. -/
def mixColumns (g : Grid) (m0 m1 m2 m3 m4 m5 m6 m7 : UInt32) : Grid :=
  let (aw, bw, cw, dw) := mix g.a.w g.b.w g.c.w g.d.w m0 m1
  let (ax, bx, cx, dx) := mix g.a.x g.b.x g.c.x g.d.x m2 m3
  let (ay, bY, cy, dy) := mix g.a.y g.b.y g.c.y g.d.y m4 m5
  let (az, bz, cz, dz) := mix g.a.z g.b.z g.c.z g.d.z m6 m7
  ⟨⟨aw, ax, ay, az⟩, ⟨bw, bx, bY, bz⟩, ⟨cw, cx, cy, cz⟩, ⟨dw, dx, dy, dz⟩⟩

/-- Turns the diagonals into columns. -/
def toDiagonals (g : Grid) : Grid :=
  ⟨g.a, ⟨g.b.x, g.b.y, g.b.z, g.b.w⟩, ⟨g.c.y, g.c.z, g.c.w, g.c.x⟩, ⟨g.d.z, g.d.w, g.d.x, g.d.y⟩⟩

/-- Turns the columns back into diagonals. -/
def ofDiagonals (g : Grid) : Grid :=
  ⟨g.a, ⟨g.b.z, g.b.w, g.b.x, g.b.y⟩, ⟨g.c.y, g.c.z, g.c.w, g.c.x⟩, ⟨g.d.x, g.d.y, g.d.z, g.d.w⟩⟩

/-- Runs `n` rounds. Each mixes the columns, then the diagonals, and permutes the message words. -/
def rounds : (n : Nat) → (message : List UInt32) → Grid → Grid
  | n + 1, [m0, m1, m2, m3, m4, m5, m6, m7, m8, m9, m10, m11, m12, m13, m14, m15], g =>
    let g := mixColumns g m0 m1 m2 m3 m4 m5 m6 m7
    let g := ofDiagonals (mixColumns (toDiagonals g) m8 m9 m10 m11 m12 m13 m14 m15)
    rounds n [m2, m6, m3, m10, m7, m0, m4, m13, m1, m11, m12, m5, m9, m14, m15, m8] g
  | _, _, g => g

/-- The arguments of a compression. -/
structure Output where
  chaining : Words8
  /-- Sixteen message words. -/
  block : List UInt32
  counter : Nat
  /-- Number of bytes of the block that hold data. -/
  length : Nat
  flags : UInt32

def chunkStart : UInt32 := 1
def chunkEnd : UInt32 := 2
def parentNode : UInt32 := 4
def rootNode : UInt32 := 8

/-- The compression function, cut to its first eight words. -/
def Output.compress (o : Output) : Words8 :=
  let v := o.chaining
  let counter := o.counter.toUInt64
  let g := rounds 7 o.block
    ⟨⟨v.a, v.b, v.c, v.d⟩, ⟨v.e, v.f, v.g, v.h⟩, ⟨start.a, start.b, start.c, start.d⟩,
      ⟨counter.toUInt32, (counter >>> 32).toUInt32, o.length.toUInt32, o.flags⟩⟩
  ⟨g.a.w ^^^ g.c.w, g.a.x ^^^ g.c.x, g.a.y ^^^ g.c.y, g.a.z ^^^ g.c.z,
    g.b.w ^^^ g.d.w, g.b.x ^^^ g.d.x, g.b.y ^^^ g.d.y, g.b.z ^^^ g.d.z⟩

/-- The value that stands for this output inside the tree. -/
def Output.chain (o : Output) : Words8 := o.compress

/-- The hash, if this output is the root of the tree. -/
def Output.root (o : Output) : Hash :=
  { o with counter := 0, flags := o.flags ||| rootNode }.compress.toHashLittleEndian

/-- The message words of a block of at most 64 bytes, filled up with zeros. -/
def blockWords (block : Bytes) : List UInt32 :=
  wordsLittleEndian (block ++ List.replicate (64 - block.length) 0)

/-- The output of the blocks of one chunk, from a chaining value on. -/
def blocksOutput (counter : Nat) : (chaining : Words8) → (flags : UInt32) → List Bytes → Output
  | v, flags, [] => ⟨v, blockWords [], counter, 0, flags ||| chunkEnd⟩
  | v, flags, [block] => ⟨v, blockWords block, counter, block.length, flags ||| chunkEnd⟩
  | v, flags, block :: rest =>
    blocksOutput counter (Output.chain ⟨v, blockWords block, counter, 64, flags⟩) 0 rest

/-- The output of the chunk numbered `counter`. -/
def chunkOutput (counter : Nat) (chunk : Bytes) : Output :=
  blocksOutput counter start chunkStart (Bytes.pieces 64 chunk)

/-- The output of a pair of subtrees. -/
def parent (left right : Words8) : Output :=
  ⟨start, left.toList ++ right.toList, 0, 64, parentNode⟩

/-- Size of the left subtree over `n ≥ 2` chunks: the largest power of two below `n`. -/
def leftSize (n : Nat) : Nat := Nat.pow 2 (Nat.log2 (n - 1))

/-- The tree over a list of chunk outputs; the first argument bounds its height. -/
def treeWithin : Nat → List Output → Output
  | _, [] => chunkOutput 0 []
  | _, [o] => o
  | 0, o :: _ => o
  | bound + 1, outputs =>
    let k := leftSize outputs.length
    parent (treeWithin bound (outputs.take k)).chain (treeWithin bound (outputs.drop k)).chain

/-- The tree over a list of chunk outputs. -/
def tree (outputs : List Output) : Output := treeWithin outputs.length outputs

/-- The outputs of the chunks of a message, numbered from 0. -/
def chunkOutputs (data : Bytes) : List Output :=
  (Bytes.pieces 1024 data).mapIdx chunkOutput

def digest (data : Bytes) : Hash := (tree (chunkOutputs data)).root

/-- The complete subtrees to the left of the chunk under way, the smallest first. -/
structure Progress where
  chunks : Nat := 0
  /-- Height and chaining value of each subtree; heights increase. -/
  subtrees : List (Nat × Words8) := []

/-- Adds a complete subtree of a given height; two of one height become one. -/
def addSubtree (height : Nat) (value : Words8) : List (Nat × Words8) → List (Nat × Words8)
  | [] => [(height, value)]
  | (height', left) :: rest =>
    if height' = height then addSubtree (height + 1) (parent left value).chain rest
    else (height, value) :: (height', left) :: rest

def Progress.fold (p : Progress) (chunk : Bytes) : Progress :=
  ⟨p.chunks + 1, addSubtree 0 (chunkOutput p.chunks chunk).chain p.subtrees⟩

abbrev Hasher := Piecewise Progress

def Hasher.new : Hasher := ⟨{}, []⟩

def Hasher.absorb (h : Hasher) (part : Bytes) : Hasher := Piecewise.absorb 1024 Progress.fold h part

def Hasher.finish (h : Hasher) : Hash :=
  (h.state.subtrees.foldl (fun right left => parent left.2 right.chain)
    (chunkOutput h.state.chunks h.waiting)).root

end ConfigTree.Blake3
