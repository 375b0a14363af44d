import ConfigTree.Json.Value
import ConfigTree.Text.Quoted
/-!
# Inspecting JSON values

A text that names the kind of every value.
-/

namespace ConfigTree.Json

mutual
def inspect : Json → String
  | .null => "Null"
  | .bool b => "Bool(" ++ (if b then "true" else "false") ++ ")"
  | .number n => "Number(" ++ n.text ++ ")"
  | .string s => "String(" ++ Text.quoted s ++ ")"
  | .array items => "Array [" ++ ", ".intercalate (inspectItems items) ++ "]"
  | .object members => "Object \x7b" ++ ", ".intercalate (inspectMembers members) ++ "\x7d"
termination_by structural v => v

def inspectItems : List Json → List String
  | [] => []
  | v :: rest => v.inspect :: inspectItems rest

def inspectMembers : List (String × Json) → List String
  | [] => []
  | (k, v) :: rest => (Text.quoted k ++ ": " ++ v.inspect) :: inspectMembers rest
end

end ConfigTree.Json
