import ConfigTree.Tree.Basic
/-!
# Differences of trees

The difference of two trees lists, in path order, every path whose value has another hash in the
new tree than in the old one. The walk over both trees skips subtrees of equal hash.
-/

namespace ConfigTree

/-- What happened to the value at one path, by its hashes. -/
inductive ValueChange where
  | added (new : Hash)
  | removed (old : Hash)
  | modified (old new : Hash)
deriving DecidableEq

namespace ValueChange

/-- The change from one optional value hash to another, if they differ. -/
def between? : (old new : Option Hash) → Option ValueChange
  | none, none => none
  | none, some new => some (added new)
  | some old, none => some (removed old)
  | some old, some new => if old = new then none else some (modified old new)

def kind : ValueChange → String
  | added _ => "added"
  | removed _ => "removed"
  | modified .. => "modified"

def isAdded : ValueChange → Bool
  | added _ => true
  | _ => false

def isRemoved : ValueChange → Bool
  | removed _ => true
  | _ => false

def isModified : ValueChange → Bool
  | modified .. => true
  | _ => false

end ValueChange

/-- The changed paths in ascending order, with what happened to their values. -/
abbrev Diff := List (Path × ValueChange)

namespace Diff

/-- The same changes one label further down. -/
def below (label : String) (d : Diff) : Diff := d.map fun (path, c) => (label :: path, c)

def addedCount (d : Diff) : Nat := d.countP fun (_, c) => c.isAdded

def removedCount (d : Diff) : Nat := d.countP fun (_, c) => c.isRemoved

def modifiedCount (d : Diff) : Nat := d.countP fun (_, c) => c.isModified

/-- The changes at or below a path. -/
def within (d : Diff) (top : Path) : Diff := d.filter fun (path, _) => path.isWithin top

end Diff

namespace Node

variable {V : Type}

/-- All values of a new node. -/
def allAdded (n : Node V) : Diff := n.listing.map fun (path, v) => (path, .added v.hash)

/-- All values of an old node. -/
def allRemoved (n : Node V) : Diff := n.listing.map fun (path, v) => (path, .removed v.hash)

def childrenAdded (children : List (String × Node V)) : Diff :=
  children.flatMap fun (label, n) => n.allAdded.below label

mutual
def diff : (old new : Node V) → Diff
  | ⟨_, value, children, hash⟩, new =>
    if hash = new.hash then []
    else
      ((ValueChange.between? (value.map Stored.hash) new.valueHash?).toList.map fun c => ([], c))
        ++ diffChildren children new.children
termination_by structural old => old

/-- The difference of two lists of children with ascending labels. -/
def diffChildren : (old new : List (String × Node V)) → Diff
  | [], new => childrenAdded new
  | (label, n) :: rest, new =>
    let before := new.takeWhile fun (label', _) => label' < label
    childrenAdded before ++
      match new.dropWhile fun (label', _) => label' < label with
      | [] => n.allRemoved.below label ++ diffChildren rest []
      | (label', n') :: after =>
        if label' = label then (diff n n').below label ++ diffChildren rest after
        else n.allRemoved.below label ++ diffChildren rest ((label', n') :: after)
end

end Node

def Tree.diff {V : Type} (old new : Tree V) : Diff := old.root.diff new.root

end ConfigTree
