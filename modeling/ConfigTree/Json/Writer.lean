import ConfigTree.Json.Value
import ConfigTree.Text.Hex
/-!
# Writing JSON

The compact form has no spaces; the indented form has one item or member a line. Both write
strings with the same escapes: the quotation mark, the backslash, and the characters below U+0020.
-/

namespace ConfigTree.Json

/-- One character inside a string. -/
def escapeChar (c : Char) : List Char :=
  if c = '"' then ['\\', '"']
  else if c = '\\' then ['\\', '\\']
  else if c = '\x08' then ['\\', 'b']
  else if c = '\x0c' then ['\\', 'f']
  else if c = '\n' then ['\\', 'n']
  else if c = '\r' then ['\\', 'r']
  else if c = '\t' then ['\\', 't']
  else if c.toNat < 32 then
    ['\\', 'u', '0', '0', Text.hexDigit (c.toNat / 16), Text.hexDigit (c.toNat % 16)]
  else [c]

/-- The characters of a string literal, followed by `rest`. -/
def quoteChars (s : String) (rest : List Char) : List Char :=
  '"' :: (s.toList.flatMap escapeChar ++ '"' :: rest)

def quote (s : String) : String := String.ofList (quoteChars s [])

/-- A comma before everything but the first of a row. -/
def separate (first : Bool) (cs : List Char) : List Char := if first then cs else ',' :: cs

mutual
/-- The characters of the compact form, followed by `rest`. -/
def compactChars : (v : Json) → (rest : List Char) → List Char
  | .null, rest => "null".toList ++ rest
  | .bool true, rest => "true".toList ++ rest
  | .bool false, rest => "false".toList ++ rest
  | .number n, rest => n.text.toList ++ rest
  | .string s, rest => quoteChars s rest
  | .array items, rest => '[' :: compactItems true items (']' :: rest)
  | .object members, rest => '\x7b' :: compactMembers true members ('\x7d' :: rest)
termination_by structural v => v

def compactItems : Bool → List Json → (rest : List Char) → List Char
  | _, [], rest => rest
  | first, v :: items, rest => separate first (v.compactChars (compactItems false items rest))

def compactMembers : Bool → List (String × Json) → (rest : List Char) → List Char
  | _, [], rest => rest
  | first, (k, v) :: members, rest =>
    separate first (quoteChars k (':' :: v.compactChars (compactMembers false members rest)))
end

/-- The text without spaces. -/
def compact (v : Json) : String := String.ofList (v.compactChars [])

/-- A new line at a depth of two spaces a level, followed by `rest`. -/
def newLine (depth : Nat) (rest : List Char) : List Char :=
  '\n' :: (List.replicate (2 * depth) ' ' ++ rest)

mutual
/-- The characters of the indented form of a value at a given depth, followed by `rest`. -/
def indentedChars : (depth : Nat) → (v : Json) → (rest : List Char) → List Char
  | _, .array [], rest => '[' :: ']' :: rest
  | depth, .array items, rest =>
    '[' :: indentedItems (depth + 1) true items (newLine depth (']' :: rest))
  | _, .object [], rest => '\x7b' :: '\x7d' :: rest
  | depth, .object members, rest =>
    '\x7b' :: indentedMembers (depth + 1) true members (newLine depth ('\x7d' :: rest))
  | _, .null, rest => "null".toList ++ rest
  | _, .bool true, rest => "true".toList ++ rest
  | _, .bool false, rest => "false".toList ++ rest
  | _, .number n, rest => n.text.toList ++ rest
  | _, .string s, rest => quoteChars s rest
termination_by structural _ v => v

def indentedItems : (depth : Nat) → Bool → List Json → (rest : List Char) → List Char
  | _, _, [], rest => rest
  | depth, first, v :: items, rest =>
    separate first (newLine depth (indentedChars depth v (indentedItems depth false items rest)))

def indentedMembers :
    (depth : Nat) → Bool → List (String × Json) → (rest : List Char) → List Char
  | _, _, [], rest => rest
  | depth, first, (k, v) :: members, rest =>
    separate first (newLine depth (quoteChars k
      (':' :: ' ' :: indentedChars depth v (indentedMembers depth false members rest))))
end

/-- The text with two spaces of indentation a level. -/
def indented (v : Json) : String := String.ofList (indentedChars 0 v [])

end ConfigTree.Json
