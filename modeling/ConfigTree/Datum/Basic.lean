import ConfigTree.Json.Error
/-!
# Typed data

Values as a program describes them to an encoding: integers of a given width, text, sequences and
maps that may or may not announce their length, records, and variants of an enumeration. Text and
JSON values have a description of this kind.
-/

namespace ConfigTree

inductive Datum where
  | unit
  | absent
  | present (x : Datum)
  | bool (b : Bool)
  /-- An integer in `width` bytes, in two's complement. -/
  | int (width : Nat) (n : Int)
  | single (bits : UInt32)
  | double (bits : UInt64)
  | char (c : Char)
  | text (s : String)
  | bytes (data : List UInt8)
  | sequence (sized : Bool) (items : List Datum)
  | tuple (items : List Datum)
  | map (sized : Bool) (entries : List (Datum × Datum))
  | record (fields : List (String × Datum))
  | unitVariant (index : UInt32) (name : String)
  | variant (index : UInt32) (name : String) (x : Datum)
  /-- A value that refuses to be encoded. -/
  | refused (message : String)
deriving Inhabited

namespace Datum

/-- The number of a JSON value: eight bytes of an integer or of a double. -/
def ofNumber : Json.Number → Datum
  | .int n => .int 8 n
  | .double bits => .double bits
  | .single bits => .single bits

mutual
/-- The description of a JSON value. -/
def ofJson : Json → Datum
  | .null => .unit
  | .bool b => .bool b
  | .number n => ofNumber n
  | .string s => .text s
  | .array items => .sequence true (ofItems items)
  | .object members => .map true (ofMembers members)
termination_by structural v => v

def ofItems : List Json → List Datum
  | [] => []
  | v :: rest => ofJson v :: ofItems rest

def ofMembers : List (String × Json) → List (Datum × Datum)
  | [] => []
  | (k, v) :: rest => (.text k, ofJson v) :: ofMembers rest
end

end Datum

end ConfigTree
