import ConfigTree.Tree.Ordered
/-!
# Configuration trees

A tree is a root node with the scheme that hashes it. Trees are values: an edit returns another
tree, which shares with the old one all nodes off the path of the edit. The root holds no value
unless the tree was taken out of a larger one. Each edit is given a number, with which it stamps
the nodes that it builds; instances are told apart as long as no number is used twice.
-/

namespace ConfigTree

structure Tree (V : Type) where
  scheme : Scheme V
  root : Node V
  ordered : root.Ordered

namespace Tree

variable {V : Type}

theorem ext {t u : Tree V} (hs : t.scheme = u.scheme) (hr : t.root = u.root) : t = u := by
  cases t; cases u; cases hs; cases hr; rfl

def algorithm (t : Tree V) : Algorithm := t.scheme.algorithm

def empty (scheme : Scheme V) (edit : Nat) : Tree V :=
  ⟨scheme, Node.empty scheme.algorithm ⟨edit, 0⟩, Node.ordered_empty _ _⟩

/-- Sets the value at a path. A value with the hash of the present one changes nothing. -/
def insert (edit : Nat) (path : Path) (v : V) (t : Tree V) : Except Error (Tree V) :=
  if path = [] then .error .rootAssignment
  else do
    let hash ← t.scheme.hashValue v
    .ok ⟨t.scheme, t.root.insert t.algorithm ⟨v, hash⟩ ⟨edit, 0⟩ path, t.ordered.insert _ _ _ _⟩

/-- Removes the node at a path with everything below it, and the nodes above it that are left
vacant. -/
def erase (edit : Nat) (path : Path) (t : Tree V) : Except Error (Tree V) :=
  if path = [] then .error .rootRemoval
  else
    match h : t.root.erase t.algorithm ⟨edit, 0⟩ path with
    | some root => .ok ⟨t.scheme, root, t.ordered.erase h⟩
    | none => .ok (empty t.scheme edit)

/-- Sets values one after another, in edits numbered from `edit` on. -/
def insertAll : (edit : Nat) → List (Path × V) → Tree V → Except Error (Tree V)
  | _, [], t => .ok t
  | edit, (path, v) :: rest, t => do
    let t ← t.insert edit path v
    insertAll (edit + 1) rest t

/-- The tree with the given entries, of which later ones replace earlier ones. -/
def ofEntries (scheme : Scheme V) (edit : Nat) (entries : List (Path × V)) :
    Except Error (Tree V) :=
  insertAll (edit + 1) entries (empty scheme edit)

def find? (t : Tree V) (path : Path) : Option (Node V) := t.root.find? path

/-- The value at a path, if there is a node and it has one. -/
def get? (t : Tree V) (path : Path) : Option V :=
  (t.find? path).bind fun n => n.value.map Stored.value

def value? (t : Tree V) : Option V := t.get? []

/-- The tree whose root is the node at a path. -/
def subtree? (t : Tree V) (path : Path) : Option (Tree V) :=
  match h : t.find? path with
  | some n => some ⟨t.scheme, n, t.ordered.find? h⟩
  | none => none

theorem subtree?_eq_some {t u : Tree V} {path : Path} :
    t.subtree? path = some u ↔ t.find? path = some u.root ∧ u.scheme = t.scheme := by
  rw [subtree?]
  split
  · next n h =>
    constructor
    · rintro ⟨⟩
      exact ⟨h, rfl⟩
    · rintro ⟨hr, hs⟩
      exact congrArg some (ext hs.symm (Option.some.inj (h.symm.trans hr)))
  · next h => simp [h]

theorem subtree?_eq_none {t : Tree V} {path : Path} :
    t.subtree? path = none ↔ t.find? path = none := by
  rw [subtree?]
  split <;> simp [*]

theorem root_of_erase {t u : Tree V} {edit : Nat} {path : Path} (h : t.erase edit path = .ok u) :
    u.root = (t.root.erase t.algorithm ⟨edit, 0⟩ path).getD (empty t.scheme edit).root := by
  rw [erase] at h
  split at h
  · cases h
  · generalize (empty t.scheme edit) = vacant at h ⊢
    split at h
    · next hr => cases h; simp [hr]
    · next hr => cases h; simp [hr]

/-- The hash of the root, which covers the whole tree. -/
def hash (t : Tree V) : Hash := t.root.hash

def hash? (t : Tree V) (path : Path) : Option Hash := (t.find? path).map Node.hash

/-- Whether two trees agree at a path. Two missing nodes agree. -/
def agreesAt (t u : Tree V) (path : Path) : Bool := t.hash? path = u.hash? path

/-- Whether two trees have one root instance. -/
def sameRoot (t u : Tree V) : Bool := t.root.same u.root

/-- The values with their paths, in ascending order of the paths. -/
def entries (t : Tree V) : List (Path × V) := t.root.listing.map fun (path, v) => (path, v.value)

def size (t : Tree V) : Nat := t.root.listing.length

def isEmpty (t : Tree V) : Bool := t.root.isVacant

end Tree

end ConfigTree
