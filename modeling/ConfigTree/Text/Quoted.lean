import ConfigTree.Text.Unprintable
import ConfigTree.Text.Ignorable
import ConfigTree.Text.Combining
/-!
# Quoted text

A text between quotation marks in which every character can be seen: line ends and tabs, the
quotation mark and the backslash are written with a backslash, and characters without a printed
form of their own by their code point.
-/

namespace ConfigTree.Text

/-- The digits of `n` in base 16, in lower case. -/
def hexDigits (n : Nat) : String := String.ofList (Nat.toDigits 16 n)

/-- Whether `c` can be told from its printed form alone. -/
def isVisible (c : Char) : Bool := !isUnprintable c && !isIgnorable c && !isCombining c

/-- One character inside quotation marks of the kind `quote`. -/
def escapeChar (quote c : Char) : String :=
  match c with
  | '\x00' => "\\0"
  | '\t' => "\\t"
  | '\n' => "\\n"
  | '\r' => "\\r"
  | '\\' => "\\\\"
  | c =>
    if c = quote then "\\" ++ c.toString
    else if isVisible c then c.toString
    else "\\u\x7b" ++ hexDigits c.toNat ++ "\x7d"

/-- A text between double quotation marks. -/
def quoted (s : String) : String := "\"" ++ String.join (s.toList.map (escapeChar '"')) ++ "\""

/-- A character between single quotation marks. -/
def quotedChar (c : Char) : String := "'" ++ escapeChar '\'' c ++ "'"

end ConfigTree.Text
