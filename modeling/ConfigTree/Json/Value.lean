import ConfigTree.Table
import ConfigTree.Decimal.Layout
/-!
# JSON values

Values as a text spells them: an object keeps its members as written, order and repetitions
included. `Json.sorted` is the form in which values are compared and kept, with the keys of every
object ascending and the last of several members of one key.
-/

namespace ConfigTree

/-- A number: an integer, or the bit pattern of a finite floating-point number. -/
inductive Json.Number where
  | int (n : Int)
  | double (bits : UInt64)
  | single (bits : UInt32)
deriving DecidableEq

inductive Json where
  | null
  | bool (b : Bool)
  | number (n : Json.Number)
  | string (s : String)
  | array (items : List Json)
  | object (members : List (String × Json))
deriving Inhabited

namespace Json

def int (n : Int) : Json := .number (.int n)

/-- Exponents written positionally in doubles. -/
def doubleLayout : Decimal.Layout := ⟨-5, 15⟩

/-- Exponents written positionally in single-precision numbers. -/
def singleLayout : Decimal.Layout := ⟨-6, 12⟩

/-- The text of an integer. -/
def intText : Int → String
  | .ofNat n => n.repr
  | .negSucc n => "-" ++ (n + 1).repr

/-- The text of a number; one that JSON cannot write is `null`. -/
def Number.text : Number → String
  | .int n => intText n
  | .double bits => (doubleLayout.text? .double bits.toNat).getD "null"
  | .single bits => (singleLayout.text? .single bits.toNat).getD "null"

/-- The members in order of their keys, of each key the last. -/
def sortMembers (members : List (String × Json)) : List (String × Json) :=
  members.foldl (fun table (k, v) => Table.insert k v table) []

mutual
/-- The value with sorted members at every level. -/
def sorted : Json → Json
  | .array items => .array (sortedItems items)
  | .object members => .object (sortMembers (sortedMembers members))
  | v => v
termination_by structural v => v

def sortedItems : List Json → List Json
  | [] => []
  | v :: rest => v.sorted :: sortedItems rest

def sortedMembers : List (String × Json) → List (String × Json)
  | [] => []
  | (k, v) :: rest => (k, v.sorted) :: sortedMembers rest
end

end Json

end ConfigTree
