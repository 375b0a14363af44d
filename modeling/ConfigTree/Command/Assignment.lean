import ConfigTree.Tree.Basic
/-!
# Trees from assignments

An assignment is a dotted path and a value, with the first equals sign of the text between them.
Assignments are applied in order; the first that cannot be applied counts.
-/

namespace ConfigTree.Command

/-- Why a command has no result. -/
inductive Failure where
  | notAssignment (text : String)
  | edit (e : Error)
  | pathNotFound (path : Path)

def Failure.message : Failure → String
  | .notAssignment text => "Invalid assignment (expected path=value): " ++ text
  | .edit e => e.message
  | .pathNotFound path => "Path not found: " ++ path.display

/-- The path and the value of an assignment. -/
def readAssignment (text : String) : Except Failure (Path × String) :=
  match text.toList.dropWhile (· ≠ '=') with
  | [] => .error (.notAssignment text)
  | _ :: value =>
    .ok (Path.ofDotted (String.ofList (text.toList.takeWhile (· ≠ '='))), String.ofList value)

/-- Applies assignments in order, in edits numbered from `edit` on. -/
def assign : (edit : Nat) → List String → Tree String → Except Failure (Tree String)
  | _, [], t => .ok t
  | edit, text :: rest, t =>
    match readAssignment text with
    | .error e => .error e
    | .ok (path, value) =>
      match t.insert edit path value with
      | .error e => .error (.edit e)
      | .ok t => assign (edit + 1) rest t

/-- The tree of a list of assignments, whose values are hashed as their UTF-8 bytes. Edits are
numbered from `edit` on. -/
def treeOf (algorithm : Algorithm) (edit : Nat) (assignments : List String) :
    Except Failure (Tree String) :=
  assign (edit + 1) assignments (Tree.empty ⟨algorithm, Encoding.utf8⟩ edit)

end ConfigTree.Command
