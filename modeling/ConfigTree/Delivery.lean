import ConfigTree.Tree.Basic
import ConfigTree.Hash.Hex
/-!
# Changes of a watched subtree

Whether a subtree changed between two snapshots is seen from the hashes at its path alone. What is
delivered then is its new state: the subtree, or that it is gone. Before the first snapshot there
was nothing, so that a subtree that exists counts as changed and a missing one does not.
-/

namespace ConfigTree

/-- The new state of a subtree that changed. -/
inductive Delivery (V : Type) where
  | present (subtree : Tree V)
  | absent

namespace Delivery

variable {V : Type}

def subtree? : Delivery V → Option (Tree V)
  | present t => some t
  | absent => none

def ofSubtree? : Option (Tree V) → Delivery V
  | some t => present t
  | none => absent

def isPresent : Delivery V → Bool
  | present _ => true
  | absent => false

/-- The value at a path below the subtree's root. -/
def get? (d : Delivery V) (path : Path) : Option V := d.subtree?.bind (Tree.get? · path)

def value? (d : Delivery V) : Option V := d.subtree?.bind Tree.value?

def hash? (d : Delivery V) : Option Hash := d.subtree?.map Tree.hash

def inspect : Delivery V → String
  | present t => "Present(" ++ t.hash.inspect ++ ")"
  | absent => "Absent"

/-- What is to be delivered for the subtree at `path`, if it changed. Trees that share their root
agree at every path, so sharing needs no case of its own. -/
def between? (previous : Option (Tree V)) (current : Tree V) (path : Path) :
    Option (Delivery V) :=
  match previous with
  | none => (current.subtree? path).map present
  | some previous =>
    if previous.agreesAt current path then none else some (ofSubtree? (current.subtree? path))

/-- The text of the outcome of a comparison. -/
def inspectOutcome : Option (Delivery V) → String
  | none => "Unchanged"
  | some d => "Changed(" ++ d.inspect ++ ")"

end Delivery

end ConfigTree
