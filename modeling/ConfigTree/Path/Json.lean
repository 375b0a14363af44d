import ConfigTree.Path
import ConfigTree.Json.Reader
import ConfigTree.Json.Writer
/-!
# Paths in JSON

A path is an array of strings.
-/

namespace ConfigTree.Path

def toJson (p : Path) : Json := .array (p.map .string)

/-- Reads the text that `toJson` spells. -/
def ofJson (text : String) : Except Json.Error Path := Json.Reader.texts.readAll text

end ConfigTree.Path
