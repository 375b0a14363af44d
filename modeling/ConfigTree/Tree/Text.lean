import ConfigTree.Tree.Basic
import ConfigTree.Hash.Hex
import ConfigTree.Json.Writer
/-!
# Texts of nodes and trees

The display form shows values and labels as they are, the inspection form also the hashes, and the
JSON form is an object with the hash, the value and the children of each node.
-/

namespace ConfigTree

/-- The inspection form of an optional value. -/
def inspectOption {α : Type} (inspect : α → String) : Option α → String
  | none => "None"
  | some a => "Some(" ++ inspect a ++ ")"

namespace Node

variable {V : Type}

mutual
/-- The value in quotation marks and the children in brackets, nothing escaped. -/
def display (text : V → String) : Node V → String
  | ⟨_, value, children, _⟩ =>
    "(\"" ++ ((value.map fun v => text v.value).getD "") ++ "\" ["
      ++ ", ".intercalate (displayChildren text children) ++ "])"
termination_by structural n => n

def displayChildren (text : V → String) : List (String × Node V) → List String
  | [] => []
  | (label, child) :: rest =>
    (label ++ "=" ++ child.display text) :: displayChildren text rest
end

mutual
/-- All parts of the node, with its hashes in short form. -/
def inspect (text : V → String) : Node V → String
  | ⟨_, value, children, hash⟩ =>
    "Node \x7b value: " ++ inspectOption text (value.map Stored.value)
      ++ ", value_hash: " ++ inspectOption Hash.inspect (value.map Stored.hash)
      ++ ", children: \x7b" ++ ", ".intercalate (inspectChildren text children)
      ++ "\x7d, hash: " ++ hash.inspect ++ " \x7d"
termination_by structural n => n

def inspectChildren (text : V → String) : List (String × Node V) → List String
  | [] => []
  | (label, child) :: rest =>
    (Text.quoted label ++ ": " ++ child.inspect text) :: inspectChildren text rest
end

mutual
/-- The JSON form, for values that have one. -/
def toJson (json : V → Json) : Node V → Json
  | ⟨_, value, children, hash⟩ =>
    .object [("hash", .string hash.toHex),
      ("value", (value.map fun v => json v.value).getD .null),
      ("children", .object (childrenJson json children))]
termination_by structural n => n

def childrenJson (json : V → Json) : List (String × Node V) → List (String × Json)
  | [] => []
  | (label, child) :: rest => (label, child.toJson json) :: childrenJson json rest
end

end Node

namespace Tree

variable {V : Type}

def display (text : V → String) (t : Tree V) : String := t.root.display text

def inspect (text : V → String) (t : Tree V) : String :=
  "MerkleTree \x7b hash: " ++ t.hash.inspect ++ ", algorithm: " ++ t.algorithm.inspect
    ++ ", root: " ++ t.root.inspect text ++ " \x7d"

def toJson (json : V → Json) (t : Tree V) : Json := t.root.toJson json

end Tree

end ConfigTree
