import ConfigTree.Json.Position
import ConfigTree.Json.Value
import ConfigTree.Text.Quoted
/-!
# Errors of reading and writing JSON
-/

namespace ConfigTree.Json

/-- The kind of a value that was found, with the value itself where it is a scalar. -/
inductive Found where
  | null
  | bool (b : Bool)
  | number (n : Number)
  | text (s : String)
  | sequence
  | map

def Found.describe : Found → String
  | .null => "null"
  | .bool b => "boolean `" ++ (if b then "true" else "false") ++ "`"
  | .number (.int n) => "integer `" ++ intText n ++ "`"
  | .number n => "floating point `" ++ n.text ++ "`"
  | .text s => "string " ++ Text.quoted s
  | .sequence => "sequence"
  | .map => "map"

/-- What stands where a value is read. -/
inductive Wanted where
  | text
  | sequence
  | settings
  | hash
  | byte
  | null

def Wanted.describe : Wanted → String
  | .text => "a string"
  | .sequence => "a sequence"
  | .settings => "struct Settings"
  | .hash => "an array of length 32"
  | .byte => "u8"
  | .null => "unit"

/-- A text that is JSON so far, but not of the wanted shape. -/
inductive Mismatch where
  | wrongType (found : Found) (wanted : Wanted)
  | outOfRange (n : Int) (wanted : Wanted)
  | wrongLength (length : Nat) (wanted : Wanted)
  | unknownField (name : String)
  | duplicateField (name : String)
  | unknownAlgorithm (name : String)

def Mismatch.message : Mismatch → String
  | .wrongType found wanted =>
    "invalid type: " ++ found.describe ++ ", expected " ++ wanted.describe
  | .outOfRange n wanted =>
    "invalid value: integer `" ++ intText n ++ "`, expected " ++ wanted.describe
  | .wrongLength length wanted =>
    "invalid length " ++ length.repr ++ ", expected " ++ wanted.describe
  | .unknownField name => "unknown field `" ++ name ++ "`, expected `name` or `digest`"
  | .duplicateField name => "duplicate field `" ++ name ++ "`"
  | .unknownAlgorithm name => "unknown variant `" ++ name ++ "`, expected `blake3` or `sha256`"

/-- Why a text was not read, or a value not written. -/
inductive Error where
  /-- The text is not JSON, or a key is not text. -/
  | malformed
  /-- The text ends too early. -/
  | truncated
  | mismatch (m : Mismatch)
  /-- The value refuses to be written, with a message that may end in a position. -/
  | refused (message : String)

def Error.message : Error → String
  | .malformed => "malformed text"
  | .truncated => "unexpected end of text"
  | .mismatch m => m.message
  | .refused message => withoutPosition message

end ConfigTree.Json
