import ConfigTree.Hash
import ConfigTree.Text.Hex
import ConfigTree.Text.Quoted
/-!
# Hashes as hexadecimal text

A hash is written with 64 lower-case digits. `Hash.ofHex` reads digits of either case and gives
the first of three causes for what it refuses: an odd number of bytes, a byte that is no digit, a
number of digits other than 64.
-/

namespace ConfigTree

namespace Bytes

/-- Two digits a byte. -/
def toHexDigits : Bytes → List Char
  | [] => []
  | b :: rest => Text.hexDigit (b.toNat / 16) :: Text.hexDigit (b.toNat % 16) :: toHexDigits rest

/-- Two lower-case digits a byte. -/
def toHex (bytes : Bytes) : String := String.ofList bytes.toHexDigits

/-- Why a text is not the hexadecimal form of a hash. -/
inductive HexError where
  | oddLength
  /-- The first byte that is no digit, and its index. -/
  | notDigit (byte : UInt8) (index : Nat)
  | wrongLength
deriving DecidableEq

/-- The wording of an error. A byte is shown as the character with its code. -/
def HexError.message : HexError → String
  | .oddLength => "Odd number of digits"
  | .notDigit byte index =>
    "Invalid character " ++ Text.quotedChar (Char.ofNat byte.toNat) ++ " at position "
      ++ index.repr
  | .wrongLength => "Invalid string length"

/-- Reads an even number of digits, the first of them at `index`. -/
def ofHexDigits (index : Nat) : Bytes → Except HexError Bytes
  | high :: low :: rest =>
    match Text.hexValue? high.toNat, Text.hexValue? low.toNat with
    | some h, some l => (ofHexDigits (index + 2) rest).map ((16 * h + l).toUInt8 :: ·)
    | none, _ => .error (.notDigit high index)
    | some _, none => .error (.notDigit low (index + 1))
  | _ => .ok []

/-- Reads a text of two digits a byte. -/
def ofHex (s : String) : Except HexError Bytes :=
  let digits := ofString s
  if digits.length % 2 = 1 then .error .oddLength else ofHexDigits 0 digits

end Bytes

namespace Hash

/-- Writes 64 lower-case digits. -/
def toHex (h : Hash) : String := h.toBytes.toHex

/-- The first seven digits, enough to tell hashes apart in a log. -/
def short (h : Hash) : String := String.ofList (h.toBytes.toHexDigits.take 7)

/-- Reads a hash from 64 digits. -/
def ofHex (s : String) : Except Bytes.HexError Hash := do
  let bytes ← Bytes.ofHex s
  match ofBytes? bytes with
  | some h => .ok h
  | none => .error .wrongLength

/-- The short form that stands for a hash inside larger texts. -/
def inspect (h : Hash) : String := "Hash(" ++ h.short ++ ")"

end Hash

end ConfigTree
