import ConfigTree.Digest.Algorithm
import ConfigTree.Json.Reader
import ConfigTree.Json.Writer
/-!
# Algorithms in JSON

An algorithm is written as its exact name. It may also be read from an object whose one key is
the name and whose value is null.
-/

namespace ConfigTree.Algorithm

def toJson (a : Algorithm) : Json := .string a.name

/-- The algorithm of a name that has been read. -/
def ofReadName (name : String) : Except Json.Error Algorithm :=
  match ofExactName? name with
  | some a => .ok a
  | none => .error (.mismatch (.unknownAlgorithm name))

/-- Reads a name, or an object from a name to null. The name is checked before what follows it. -/
def reader : Json.Reader Algorithm := fun cs =>
  match Json.Reader.skipSpace cs with
  | [] => .error .truncated
  | '"' :: rest => do
    let (name, rest) ← Json.Reader.stringBody rest
    let a ← ofReadName name
    .ok (a, rest)
  | '\x7b' :: rest => do
    match ← Json.Reader.nextKey true rest with
    | none => .error .malformed
    | some rest =>
      let (name, rest) ← Json.Reader.stringBody rest
      let a ← ofReadName name
      let rest ← Json.Reader.colon rest
      let (_, rest) ← Json.Reader.unit rest
      let rest ← Json.Reader.closeObject rest
      .ok (a, rest)
  | _ => .error .malformed

/-- Reads a whole text. -/
def ofJson (text : String) : Except Json.Error Algorithm := reader.readAll text

end ConfigTree.Algorithm
