import ConfigTree.Tree.Node
/-!
# Editing nodes

Edits build new nodes on the path to the change and share everything else. Where nothing changes
they return the node they were given: a child with the hash of the present one, a value with the
hash of the present one, and the removal of what is not there.
-/

namespace ConfigTree.Node

variable {V : Type}

def insertChild (n : Node V) (algorithm : Algorithm) (stamp : Stamp) (label : String)
    (child : Node V) : Node V :=
  if (n.child? label).map Node.hash = some child.hash then n
  else build algorithm stamp n.value (Table.insert label child n.children)

def eraseChild (n : Node V) (algorithm : Algorithm) (stamp : Stamp) (label : String) : Node V :=
  match n.child? label with
  | none => n
  | some _ => build algorithm stamp n.value (Table.erase label n.children)

/-- Sets the value and keeps the children. -/
def setValue (n : Node V) (algorithm : Algorithm) (stamp : Stamp) (v : Stored V) : Node V :=
  if n.valueHash? = some v.hash then n else build algorithm stamp (some v) n.children

/-- Sets the value at a path below the node. Nodes missing on the way are created without
values. -/
def insert (algorithm : Algorithm) (v : Stored V) : Stamp → Path → Node V → Node V
  | stamp, [], n => n.setValue algorithm stamp v
  | stamp, label :: rest, n =>
    let child := (n.child? label).getD (empty algorithm stamp.below)
    n.insertChild algorithm stamp label (insert algorithm v stamp.below rest child)

def unlessVacant (n : Node V) : Option (Node V) := if n.isVacant then none else some n

/-- Removes the node at a path below `n` with everything below it. Nodes on the way that are left
vacant go too; `none` says that `n` itself does. -/
def erase (algorithm : Algorithm) : Stamp → Path → Node V → Option (Node V)
  | _, [], _ => none
  | stamp, label :: rest, n =>
    match n.child? label with
    | none => some n
    | some child =>
      match erase algorithm stamp.below rest child with
      | some child => (n.insertChild algorithm stamp label child).unlessVacant
      | none => (n.eraseChild algorithm stamp label).unlessVacant

end ConfigTree.Node
