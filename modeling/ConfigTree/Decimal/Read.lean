/-!
# Decimals to doubles

A decimal numeral is read from an integer significand of at most 64 bits and a power of ten. The
significand is first made a double, which is then multiplied or divided by the power; a negative
power beyond the range of doubles is divided out in steps. Each operation rounds to nearest, so
numerals of more than fifteen digits or of large exponent may land beside the nearest double.
-/

namespace ConfigTree.Decimal

/-- The double nearest to `10 ^ e`, for `e ≤ 308`. -/
def powerOfTen (e : Nat) : Float := Float.ofScientific 1 false e

/-- Divides by `10 ^ e`. The first argument bounds the number of steps of `10 ^ 308`. -/
def scaleDown : Nat → Float → (e : Nat) → Float
  | 0, x, _ => x
  | bound + 1, x, e =>
    if e ≤ 308 then x / powerOfTen e
    else if x == 0 then x
    else scaleDown bound (x / powerOfTen 308) (e - 308)

/-- The bit pattern of a double near `significand * 10 ^ exponent`, with the given sign; `none` if
it is too large. -/
def toDouble? (negative : Bool) (significand : UInt64) (exponent : Int) : Option UInt64 :=
  let x := significand.toFloat
  let magnitude : Option Float :=
    match exponent with
    | .ofNat e =>
      if e ≤ 308 then
        let y := x * powerOfTen e
        if y.isInf then none else some y
      else if x == 0 then some x else none
    | .negSucc e => some (scaleDown (e / 308 + 1) x (e + 1))
  magnitude.map fun y => (if negative then -y else y).toBits

end ConfigTree.Decimal
