import ConfigTree.Json.Error
/-!
# Errors

What can go wrong when a tree is changed, a value encoded or a setting read. Look-ups never fail.
-/

namespace ConfigTree

/-- Why a value has no binary form. -/
inductive Datum.BinaryError where
  /-- A sequence or map does not say how long it is. -/
  | unknownLength
  /-- The value refuses to be written. -/
  | refused (message : String)
deriving DecidableEq

def Datum.BinaryError.message : Datum.BinaryError → String
  | .unknownLength =>
    "Bincode can only encode sequences and maps that have a knowable size ahead of time"
  | .refused message => message

inductive Error where
  | rootAssignment
  | rootRemoval
  | unknownAlgorithm (name : String)
  | blankName
  /-- An encoding of its own refuses a value. -/
  | encoding (message : String)
  | binary (e : Datum.BinaryError)
  | json (e : Json.Error)

def Error.message : Error → String
  | .rootAssignment => "Invalid path: cannot assign a value to the root"
  | .rootRemoval => "Invalid path: cannot remove the root"
  | .unknownAlgorithm name => "Config error: unknown digest algorithm: " ++ name
  | .blankName => "Config error: registry name must not be empty"
  | .encoding message => "Digest error: " ++ message
  | .binary e => "Serialization error: " ++ e.message
  | .json e => "JSON error: " ++ e.message

end ConfigTree
