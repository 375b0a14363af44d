import ConfigTree.Datum.Basic
import ConfigTree.Json.Writer
import ConfigTree.Error
/-!
# The JSON form of typed data

Unit and absent values are null, bytes an array of numbers, a variant its name or an object from
its name to its value. The keys of a map are written as strings, which only scalars can be.
-/

namespace ConfigTree.Datum

/-- The text of a key. -/
def keyText : Datum → Except Json.Error String
  | .text s => .ok s
  | .char c => .ok c.toString
  | .bool b => .ok (if b then "true" else "false")
  | .int _ n => .ok (Json.intText n)
  | .single bits => finite (Json.singleLayout.text? .single bits.toNat)
  | .double bits => finite (Json.doubleLayout.text? .double bits.toNat)
  | .unitVariant _ name => .ok name
  | .present x => x.keyText
  | .refused message => .error (.refused message)
  | _ => .error .malformed
where
  /-- A number without a numeral is no key. -/
  finite : Option String → Except Json.Error String
    | some s => .ok s
    | none => .error .malformed

mutual
/-- The JSON value of a datum, or the first cause for which it has none. -/
def json : Datum → Except Json.Error Json
  | .unit => .ok .null
  | .absent => .ok .null
  | .present x => x.json
  | .bool b => .ok (.bool b)
  | .int _ n => .ok (.int n)
  | .single bits => .ok (.number (.single bits))
  | .double bits => .ok (.number (.double bits))
  | .char c => .ok (.string c.toString)
  | .text s => .ok (.string s)
  | .bytes data => .ok (.array (data.map fun b => .int b.toNat))
  | .sequence _ items => do let items ← jsonItems items; .ok (.array items)
  | .tuple items => do let items ← jsonItems items; .ok (.array items)
  | .map _ entries => do let members ← jsonEntries entries; .ok (.object members)
  | .record fields => do let members ← jsonFields fields; .ok (.object members)
  | .unitVariant _ name => .ok (.string name)
  | .variant _ name x => do let v ← x.json; .ok (.object [(name, v)])
  | .refused message => .error (.refused message)
termination_by structural x => x

def jsonItems : List Datum → Except Json.Error (List Json)
  | [] => .ok []
  | x :: rest => do
    let v ← x.json
    let vs ← jsonItems rest
    .ok (v :: vs)

def jsonEntries : List (Datum × Datum) → Except Json.Error (List (String × Json))
  | [] => .ok []
  | (k, x) :: rest => do
    let key ← k.keyText
    let v ← x.json
    let vs ← jsonEntries rest
    .ok ((key, v) :: vs)

def jsonFields : List (String × Datum) → Except Json.Error (List (String × Json))
  | [] => .ok []
  | (k, x) :: rest => do
    let v ← x.json
    let vs ← jsonFields rest
    .ok ((k, v) :: vs)
end

end ConfigTree.Datum
