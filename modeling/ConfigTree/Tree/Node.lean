import ConfigTree.Scheme
import ConfigTree.Table
import ConfigTree.Path
/-!
# Nodes

A node holds an optional value and labelled children, and keeps its hash. The hash covers whether
there is a value, the hash of that value, and label and hash of every child in label order
(`Content.encode`), so it depends on neither the place of the node in a tree nor its history.

A node also carries a stamp, which no operation reads: it tells instances apart, so that what two
trees share can be observed.
-/

namespace ConfigTree

/-- Which edit built a node, and how far below the edited node. -/
structure Stamp where
  edit : Nat
  depth : Nat
deriving DecidableEq

/-- The stamp of the node one level further down. -/
def Stamp.below (s : Stamp) : Stamp := ⟨s.edit, s.depth + 1⟩

structure Stored (V : Type) where
  value : V
  hash : Hash

/-- What the hash of a node covers. -/
structure Content where
  value : Option Hash
  children : List (String × Hash)
deriving DecidableEq

namespace Content

/-- The tag that starts the encoding of every node: `mtnode` in ASCII. -/
def tag : Bytes := [0x6d, 0x74, 0x6e, 0x6f, 0x64, 0x65]

/-- A present value is marked by 1 before its hash, an absent one by 0. -/
def encodeValue : Option Hash → Bytes
  | none => [0]
  | some h => 1 :: h.toBytes

/-- The length of the label in eight bytes, the label, and the hash of the child. -/
def encodeChild (child : String × Hash) : Bytes :=
  let label := Bytes.ofString child.1
  Bytes.bigEndian 8 label.length ++ label ++ child.2.toBytes

/-- The bytes whose hash is the hash of the node. -/
def encode (c : Content) : Bytes :=
  tag ++ encodeValue c.value ++ Bytes.bigEndian 8 c.children.length
    ++ c.children.flatMap encodeChild

end Content

/-- A node. The labels of the children ascend. -/
structure Node (V : Type) where
  stamp : Stamp
  value : Option (Stored V)
  children : List (String × Node V)
  hash : Hash

namespace Node

variable {V : Type}

/-- What the hash of a node with this value and these children covers. -/
def contentOf (value : Option (Stored V)) (children : List (String × Node V)) : Content :=
  ⟨value.map Stored.hash, children.map fun (label, child) => (label, child.hash)⟩

/-- What the hash of a node covers. -/
def content (n : Node V) : Content := contentOf n.value n.children

def build (algorithm : Algorithm) (stamp : Stamp) (value : Option (Stored V))
    (children : List (String × Node V)) : Node V :=
  ⟨stamp, value, children, algorithm.digest (contentOf value children).encode⟩

def empty (algorithm : Algorithm) (stamp : Stamp) : Node V := build algorithm stamp none []

/-- A new node with the given value, hashed by the scheme, and children. -/
def make (scheme : Scheme V) (stamp : Stamp) (value : Option V)
    (children : List (String × Node V)) : Except Error (Node V) :=
  match value with
  | none => .ok (build scheme.algorithm stamp none children)
  | some v => do
    let hash ← scheme.hashValue v
    .ok (build scheme.algorithm stamp (some ⟨v, hash⟩) children)

def valueHash? (n : Node V) : Option Hash := n.value.map Stored.hash

def isLeaf (n : Node V) : Bool := n.children.isEmpty

/-- Neither value nor children. -/
def isVacant (n : Node V) : Bool := n.value.isNone && n.children.isEmpty

/-- Whether two nodes are one instance. -/
def same (a b : Node V) : Bool := a.stamp = b.stamp

def child? (n : Node V) (label : String) : Option (Node V) := Table.get? label n.children

/-- The node at a path below `n`. -/
def find? : Path → Node V → Option (Node V)
  | [], n => some n
  | label :: rest, n => (n.child? label).bind (find? rest)

mutual
/-- The stored values with their paths, a node before its children and those in label order. -/
def listing : Node V → List (Path × Stored V)
  | ⟨_, value, children, _⟩ =>
    (value.toList.map fun v => ([], v)) ++ childListing children
termination_by structural n => n

def childListing : List (String × Node V) → List (Path × Stored V)
  | [] => []
  | (label, child) :: rest =>
    (child.listing.map fun (path, v) => (label :: path, v)) ++ childListing rest
end

end Node

end ConfigTree
