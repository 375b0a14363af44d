/-!
# Positions in messages

A message may end in the position that it speaks of, as in `no value at line 3 column 14`. The
position is no part of what the message says. Its two numbers are below `2 ^ 64`; an ending with
a greater number, or with none, is text like any other.
-/

namespace ConfigTree.Json

/-- Cuts a number, and the label before it, off the end of a text. The text is given backwards. -/
def cutNumber? (label : String) (reversed : List Char) : Option (List Char) :=
  let digits := (reversed.takeWhile Char.isDigit).reverse
  let rest := reversed.dropWhile Char.isDigit
  let label := label.toList.reverse
  if digits ≠ [] ∧ Nat.ofDigitChars 10 digits 0 < 0x10000000000000000 ∧ label.isPrefixOf rest then
    some (rest.drop label.length)
  else none

/-- A message without the position at its end. -/
def withoutPosition (message : String) : String :=
  match cutNumber? " column " message.toList.reverse >>= cutNumber? " at line " with
  | some reversed => String.ofList reversed.reverse
  | none => message

end ConfigTree.Json
