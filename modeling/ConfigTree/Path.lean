import ConfigTree.Text.Quoted
/-!
# Paths

A path is the list of labels that leads from the root to a node; the empty path is the root. Its
dotted form reads back only if no label is empty or holds a dot. Paths are ordered label by label,
a path before its extensions; labels are ordered as their UTF-8 bytes.
-/

namespace ConfigTree

/-- The labels from the root down to a node. -/
abbrev Path := List String

namespace Path

/-- Cuts a text at each dot; there is one part more than there are dots. -/
def splitDots : List Char → List (List Char)
  | [] => [[]]
  | c :: rest =>
    if c = '.' then [] :: splitDots rest
    else match splitDots rest with
      | [] => [[c]]
      | part :: parts => (c :: part) :: parts

/-- Reads a dotted path. Empty labels are dropped, so that the empty text is the root. -/
def ofDotted (s : String) : Path :=
  ((splitDots s.toList).filter (· ≠ [])).map String.ofList

/-- The labels with dots between them; the root has a name of its own. -/
def display : Path → String
  | [] => "<root>"
  | labels => ".".intercalate labels

/-- The labels in quotation marks. -/
def inspect (p : Path) : String := "Path([" ++ ", ".intercalate (p.map Text.quoted) ++ "])"

def child (p : Path) (label : String) : Path := p ++ [label]

/-- Whether `p` lies at or below `top`. -/
def isWithin (p top : Path) : Bool := top.isPrefixOf p

theorem isWithin_iff {p top : Path} : p.isWithin top = true ↔ top <+: p := by
  simp [isWithin]

end Path

end ConfigTree
