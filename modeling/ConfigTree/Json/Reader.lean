import ConfigTree.Json.Error
import ConfigTree.Decimal.Read
import ConfigTree.Bytes
import ConfigTree.Text.Hex
/-!
# Reading JSON

Readers take the characters that are left and return a value with what is left after it. A text
is read from left to right and the first problem counts, whether it lies in the syntax or in the
shape of a value. `parse` reads a value of any shape and any depth.
-/

namespace ConfigTree.Json

/-- Reads a value off the front of a text. -/
abbrev Reader (α : Type) := List Char → Except Error (α × List Char)

namespace Reader

/-- Space, tab, line feed and carriage return separate the parts of a text. -/
def isSpace (c : Char) : Bool := c = ' ' || c = '\t' || c = '\n' || c = '\r'

def skipSpace (cs : List Char) : List Char := cs.dropWhile isSpace

/-- The characters of `word`, which must come next. -/
def exactly : (word : List Char) → List Char → Except Error (List Char)
  | [], cs => .ok cs
  | _ :: _, [] => .error .truncated
  | w :: word, c :: cs => if c = w then exactly word cs else .error .malformed

/-- A number of four digits in base 16. With fewer than four bytes left, the text counts as cut
short whatever they are. -/
def hexQuad : Reader Nat
  | cs@(a :: b :: c :: d :: rest) =>
    match Text.hexValue? a.toNat, Text.hexValue? b.toNat, Text.hexValue? c.toNat,
      Text.hexValue? d.toNat with
    | some a, some b, some c, some d => .ok (((a * 16 + b) * 16 + c) * 16 + d, rest)
    | _, _, _, _ => .error (badQuad cs)
  | cs => .error (badQuad cs)
where
  badQuad (cs : List Char) : Error :=
    if cs.foldl (fun n c => n + c.utf8Size) 0 < 4 then .truncated else .malformed

/-- What stands after `\u`: one unit, or the two halves of a character beyond U+FFFF. -/
def unicodeEscape : Reader Char := fun cs => do
  let (n, rest) ← hexQuad cs
  if 0xdc00 ≤ n ∧ n ≤ 0xdfff then .error .malformed
  else if n < 0xd800 ∨ 0xdbff < n then .ok (Char.ofNat n, rest)
  else do
    let rest ← exactly ['\\', 'u'] rest
    let (low, rest) ← hexQuad rest
    if low < 0xdc00 ∨ 0xdfff < low then .error .malformed
    else .ok (Char.ofNat (0x10000 + (n - 0xd800) * 0x400 + (low - 0xdc00)), rest)

/-- What stands after a backslash. -/
def escaped : Reader Char
  | [] => .error .truncated
  | c :: rest =>
    match c with
    | '"' => .ok ('"', rest)
    | '\\' => .ok ('\\', rest)
    | '/' => .ok ('/', rest)
    | 'b' => .ok ('\x08', rest)
    | 'f' => .ok ('\x0c', rest)
    | 'n' => .ok ('\n', rest)
    | 'r' => .ok ('\r', rest)
    | 't' => .ok ('\t', rest)
    | 'u' => unicodeEscape rest
    | _ => .error .malformed

/-- The characters up to the closing quotation mark; the first argument, of which one character is
used up with each, bounds their number. -/
def stringChars : (bound : List Char) → Reader (List Char)
  | [], _ => .error .truncated
  | _ :: _, [] => .error .truncated
  | _ :: bound, c :: rest =>
    if c = '"' then .ok ([], rest)
    else if c = '\\' then do
      let (c, rest) ← escaped rest
      let (cs, rest) ← stringChars bound rest
      .ok (c :: cs, rest)
    else if c.toNat < 32 then .error .malformed
    else do
      let (cs, rest) ← stringChars bound rest
      .ok (c :: cs, rest)

/-- A string whose opening quotation mark has been read. -/
def stringBody : Reader String := fun cs => do
  let (text, rest) ← stringChars cs cs
  .ok (String.ofList text, rest)

/-- Appends digits to a significand as long as it stays below `2 ^ 64`; returns the digits left
over as well. -/
def significand (n : Nat) : List Char → Nat × List Char
  | [] => (n, [])
  | c :: rest =>
    let next := 10 * n + (c.toNat - 48)
    if next < 0x10000000000000000 then significand next rest else (n, c :: rest)

/-- The digits of an exponent, after its sign. -/
def exponentDigits (negative : Bool) : Reader Int := fun cs =>
  match cs.takeWhile Char.isDigit, cs.dropWhile Char.isDigit with
  | [], [] => .error .truncated
  | [], _ => .error .malformed
  | digits, rest =>
    let n : Int := Nat.ofDigitChars 10 digits 0
    .ok (if negative then -n else n, rest)

/-- The exponent after `e` or `E`. -/
def exponentPart : Reader Int
  | '+' :: rest => exponentDigits false rest
  | '-' :: rest => exponentDigits true rest
  | cs => exponentDigits false cs

/-- The exponent, if there is one. -/
def exponentOrZero : Reader Int
  | [] => .ok (0, [])
  | c :: rest => if c = 'e' ∨ c = 'E' then exponentPart rest else .ok (0, c :: rest)

/-- A floating-point number from its significand and its exponent so far. -/
def scaled (negative : Bool) (n : Nat) (exponent : Int) : Reader Number := fun cs => do
  let (e, rest) ← exponentOrZero cs
  match Decimal.toDouble? negative n.toUInt64 (exponent + e) with
  | some bits => .ok (.double bits, rest)
  | none => .error .malformed

/-- An integer if it fits in 64 bits, with a sign or without. -/
def integer (negative : Bool) (n : Nat) : Option Number :=
  if negative then
    if 0 < n ∧ n ≤ 0x8000000000000000 then some (.int (-n)) else none
  else some (.int n)

/-- What follows the digits before the point. -/
def afterWhole (negative : Bool) (n : Nat) (left : List Char) : Reader Number
  | '.' :: cs =>
    match cs.takeWhile Char.isDigit, cs.dropWhile Char.isDigit with
    | [], [] => .error .truncated
    | [], _ => .error .malformed
    | digits, rest =>
      let (n, unused) := significand n digits
      scaled negative n (left.length - (digits.length - unused.length)) rest
  | cs =>
    match cs, left, integer negative n with
    | 'e' :: _, _, _ | 'E' :: _, _, _ | _, _ :: _, _ | _, _, none =>
      scaled negative n left.length cs
    | _, [], some n => .ok (n, cs)

/-- A number without its sign. -/
def unsigned (negative : Bool) : Reader Number
  | [] => .error .truncated
  | '0' :: rest =>
    match rest with
    | c :: _ => if c.isDigit then .error .malformed else afterWhole negative 0 [] rest
    | [] => afterWhole negative 0 [] rest
  | cs =>
    match cs.takeWhile Char.isDigit with
    | [] => .error .malformed
    | digits =>
      let (n, left) := significand 0 digits
      afterWhole negative n left (cs.dropWhile Char.isDigit)

/-- A number. Integers that do not fit in 64 bits, and minus zero, are floating-point numbers. -/
def number : Reader Number
  | '-' :: rest => unsigned true rest
  | cs => unsigned false cs

/-- Moves to the next item of an array, or stops before the closing bracket. -/
def nextItem (first : Bool) (cs : List Char) : Except Error (Option (List Char)) :=
  match skipSpace cs with
  | [] => .error .truncated
  | ']' :: _ => .ok none
  | c :: rest =>
    if first then .ok (some (c :: rest))
    else if c = ',' then
      match skipSpace rest with
      | [] => .error .truncated
      | ']' :: _ => .error .malformed
      | rest => .ok (some rest)
    else .error .malformed

/-- The end of an array. -/
def closeArray (cs : List Char) : Except Error (List Char) :=
  match skipSpace cs with
  | [] => .error .truncated
  | ']' :: rest => .ok rest
  | _ => .error .malformed

/-- Moves past the opening quotation mark of the next key of an object, or stops before the
closing brace. -/
def nextKey (first : Bool) (cs : List Char) : Except Error (Option (List Char)) :=
  match skipSpace cs with
  | [] => .error .truncated
  | '\x7d' :: _ => .ok none
  | c :: rest =>
    if first then
      if c = '"' then .ok (some rest) else .error .malformed
    else if c = ',' then
      match skipSpace rest with
      | [] => .error .truncated
      | '"' :: rest => .ok (some rest)
      | _ => .error .malformed
    else .error .malformed

/-- The end of an object. -/
def closeObject (cs : List Char) : Except Error (List Char) :=
  match skipSpace cs with
  | [] => .error .truncated
  | '\x7d' :: rest => .ok rest
  | _ => .error .malformed

/-- The colon between a key and its value. -/
def colon (cs : List Char) : Except Error (List Char) :=
  match skipSpace cs with
  | [] => .error .truncated
  | ':' :: rest => .ok rest
  | _ => .error .malformed

mutual
/-- A value of any shape; the first argument bounds the number of steps. -/
def valueWithin : Nat → Reader Json
  | 0, _ => .error .truncated
  | bound + 1, cs =>
    match skipSpace cs with
    | [] => .error .truncated
    | c :: rest =>
      match c with
      | 'n' => do let rest ← exactly "ull".toList rest; .ok (.null, rest)
      | 't' => do let rest ← exactly "rue".toList rest; .ok (.bool true, rest)
      | 'f' => do let rest ← exactly "alse".toList rest; .ok (.bool false, rest)
      | '"' => do let (s, rest) ← stringBody rest; .ok (.string s, rest)
      | '[' => do
        let (items, rest) ← itemsWithin bound true rest
        let rest ← closeArray rest
        .ok (.array items, rest)
      | '\x7b' => do
        let (members, rest) ← membersWithin bound true rest
        let rest ← closeObject rest
        .ok (.object members, rest)
      | c =>
        if c = '-' ∨ c.isDigit then do let (n, rest) ← number (c :: rest); .ok (.number n, rest)
        else .error .malformed
termination_by structural bound => bound

/-- The items of an array up to the closing bracket. -/
def itemsWithin : Nat → Bool → Reader (List Json)
  | 0, _, _ => .error .truncated
  | bound + 1, first, cs => do
    match ← nextItem first cs with
    | none => .ok ([], cs)
    | some rest =>
      let (v, rest) ← valueWithin bound rest
      let (vs, rest) ← itemsWithin bound false rest
      .ok (v :: vs, rest)

/-- The members of an object up to the closing brace. -/
def membersWithin : Nat → Bool → Reader (List (String × Json))
  | 0, _, _ => .error .truncated
  | bound + 1, first, cs => do
    match ← nextKey first cs with
    | none => .ok ([], cs)
    | some rest =>
      let (k, rest) ← stringBody rest
      let rest ← colon rest
      let (v, rest) ← valueWithin bound rest
      let (vs, rest) ← membersWithin bound false rest
      .ok ((k, v) :: vs, rest)
end

/-- A value of any shape. -/
def value : Reader Json := fun cs => valueWithin (2 * cs.length + 2) cs

/-- The error for a value of another kind than the wanted one. Scalars are read first, so that a
problem inside them counts instead. -/
def refuse (wanted : Wanted) (cs : List Char) : Error :=
  let found : Except Error Found :=
    match cs with
    | [] => .error .truncated
    | c :: rest =>
      match c with
      | 'n' => (exactly "ull".toList rest).map fun _ => .null
      | 't' => (exactly "rue".toList rest).map fun _ => .bool true
      | 'f' => (exactly "alse".toList rest).map fun _ => .bool false
      | '"' => (stringBody rest).map fun (s, _) => .text s
      | '[' => .ok .sequence
      | '\x7b' => .ok .map
      | c =>
        if c = '-' ∨ c.isDigit then (number cs).map fun (n, _) => .number n
        else .error .malformed
  match found with
  | .ok found => .mismatch (.wrongType found wanted)
  | .error e => e

/-- A string. -/
def text : Reader String := fun cs =>
  match skipSpace cs with
  | [] => .error .truncated
  | '"' :: rest => stringBody rest
  | cs => .error (refuse .text cs)

/-- The value `null`. -/
def unit : Reader Unit := fun cs =>
  match skipSpace cs with
  | [] => .error .truncated
  | 'n' :: rest => do let rest ← exactly "ull".toList rest; .ok ((), rest)
  | cs => .error (refuse .null cs)

/-- An integer below 256. -/
def byte : Reader UInt8 := fun cs =>
  match skipSpace cs with
  | [] => .error .truncated
  | c :: rest =>
    if c = '-' ∨ c.isDigit then do
      match ← number (c :: rest) with
      | (.int n, rest) =>
        if 0 ≤ n ∧ n < 256 then .ok (n.toNat.toUInt8, rest)
        else .error (.mismatch (.outOfRange n .byte))
      | (n, _) => .error (.mismatch (.wrongType (.number n) .byte))
    else .error (refuse .byte (c :: rest))

/-- Strings up to the closing bracket. -/
def textsWithin : Nat → Bool → Reader (List String)
  | 0, _, _ => .error .truncated
  | bound + 1, first, cs => do
    match ← nextItem first cs with
    | none => .ok ([], cs)
    | some rest =>
      let (s, rest) ← text rest
      let (ss, rest) ← textsWithin bound false rest
      .ok (s :: ss, rest)

/-- An array of strings. -/
def texts : Reader (List String) := fun cs =>
  match skipSpace cs with
  | [] => .error .truncated
  | '[' :: rest => do
    let (ss, rest) ← textsWithin (rest.length + 1) true rest
    let rest ← closeArray rest
    .ok (ss, rest)
  | cs => .error (refuse .sequence cs)

/-- Exactly `count` bytes of an array, after `done` others. -/
def bytesExactly (wanted : Wanted) : (count done : Nat) → Reader Bytes
  | 0, _, cs => .ok ([], cs)
  | count + 1, done, cs => do
    match ← nextItem (done = 0) cs with
    | none => .error (.mismatch (.wrongLength done wanted))
    | some rest =>
      let (b, rest) ← byte rest
      let (bs, rest) ← bytesExactly wanted count (done + 1) rest
      .ok (b :: bs, rest)

/-- Reads a whole text, with nothing but spaces after the value. -/
def readAll {α : Type} (reader : Reader α) (text : String) : Except Error α := do
  let (a, rest) ← reader text.toList
  if skipSpace rest = [] then .ok a else .error .malformed

end Reader

/-- The value that a text spells. -/
def parse (text : String) : Except Error Json := Reader.value.readAll text

end ConfigTree.Json
