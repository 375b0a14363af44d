/-!
# Shortest decimals

A binary floating-point number is written with the fewest digits that read back as the same
number, and with those digits of this number that lie nearest to it. The search runs over the
integer multiples of powers of ten, the largest power first, in exact arithmetic.
-/

namespace ConfigTree.Decimal

/-- A binary floating-point format: the widths of its fraction and its exponent. -/
structure Format where
  fractionBits : Nat
  exponentBits : Nat

def Format.double : Format := ⟨52, 11⟩
def Format.single : Format := ⟨23, 8⟩

/-- The exponent of the smallest positive number. -/
def Format.least (f : Format) : Int := 2 - (Nat.pow 2 (f.exponentBits - 1) : Nat) - f.fractionBits

/-- What a bit pattern stands for. The value of a finite number is `m * 2 ^ q`. -/
inductive Decoded where
  | finite (negative : Bool) (m : Nat) (q : Int)
  | infinite (negative : Bool)
  | notANumber
deriving DecidableEq

/-- The number with a given bit pattern. -/
def Format.decode (f : Format) (bits : Nat) : Decoded :=
  let fraction := bits % Nat.pow 2 f.fractionBits
  let exponent := bits / Nat.pow 2 f.fractionBits % Nat.pow 2 f.exponentBits
  let negative := bits / Nat.pow 2 (f.fractionBits + f.exponentBits) % 2 = 1
  if exponent = Nat.pow 2 f.exponentBits - 1 then
    if fraction = 0 then .infinite negative else .notANumber
  else if exponent = 0 then .finite negative fraction f.least
  else .finite negative (Nat.pow 2 f.fractionBits + fraction) (f.least + exponent - 1)

/-- A positive decimal: the integer `digits`, times ten to the power `exponent`. -/
structure Digits where
  digits : Nat
  exponent : Int
deriving DecidableEq

/-- The interval of values that round to one number, on a common scale of powers of ten. Its ends
belong to it if `closed`. -/
structure Rounding where
  low : Nat
  value : Nat
  high : Nat
  closed : Bool
  scale : Int

/-- The rounding interval of `m * 2 ^ q`. Below a power of two the numbers lie twice as close,
except among the numbers with the least exponent. -/
def Rounding.of (f : Format) (m : Nat) (q : Int) : Rounding :=
  let below := if m = Nat.pow 2 f.fractionBits ∧ q ≠ f.least then 1 else 2
  let (low, value, high) := (4 * m - below, 4 * m, 4 * m + 2)
  match q - 2 with
  | .ofNat e =>
    let k := Nat.pow 2 e
    ⟨low * k, value * k, high * k, m % 2 = 0, 0⟩
  | .negSucc e =>
    let k := Nat.pow 5 (e + 1)
    ⟨low * k, value * k, high * k, m % 2 = 0, .negSucc e⟩

/-- Whether a value rounds to the number. -/
def Rounding.holds (r : Rounding) (x : Nat) : Bool :=
  if r.closed then r.low ≤ x && x ≤ r.high else r.low < x && x < r.high

/-- The multiplier of the multiple of `step` that is nearest to the value, if it or its neighbour
on the other side rounds to the number. A tie goes to the even multiplier. -/
def Rounding.nearest? (r : Rounding) (step : Nat) : Option Nat :=
  let below := r.value / step
  let above := below + 1
  match r.holds (below * step), r.holds (above * step) with
  | true, false => some below
  | false, true => some above
  | false, false => none
  | true, true =>
    let d := r.value - below * step
    let u := above * step - r.value
    if d < u ∨ (d = u ∧ below % 2 = 0) then some below else some above

/-- The first hit among the multiples of the powers of ten, from `10 ^ n` down. The value itself
is a multiple of `10 ^ 0`. -/
def Rounding.search (r : Rounding) : Nat → Digits
  | 0 => ⟨r.value, r.scale⟩
  | n + 1 =>
    match r.nearest? (Nat.pow 10 (n + 1)) with
    | some c => ⟨c, r.scale + (n + 1)⟩
    | none => r.search n

/-- The shortest decimal for `m * 2 ^ q` with `m > 0`. -/
def shortest (f : Format) (m : Nat) (q : Int) : Digits :=
  let r := Rounding.of f m q
  r.search ((Nat.toDigits 10 r.value).length - 1)

end ConfigTree.Decimal
