import ConfigTree.Decimal.Shortest
/-!
# Layout of decimals

A decimal is written positionally, with at least one digit on either side of the point, if the
exponent of its first digit lies in a given range. Otherwise it is written with one digit before
the point and a signed exponent, and the point is left out if no digit follows it.
-/

namespace ConfigTree.Decimal

/-- The exponents of the first digit that are written positionally, both ends included. -/
structure Layout where
  lowest : Int
  highest : Int

/-- Digits after the point, for a first digit with exponent `e`. -/
def positional (digits : List Char) : (e : Int) → List Char
  | .negSucc n => '0' :: '.' :: List.replicate n '0' ++ digits
  | .ofNat n =>
    let whole := digits.take (n + 1)
    let fraction := digits.drop (n + 1)
    whole ++ List.replicate (n + 1 - whole.length) '0' ++ '.' ::
      (if fraction = [] then ['0'] else fraction)

/-- One digit before the point, and the exponent `e`. -/
def scientific (digits : List Char) (e : Int) : List Char :=
  let sign := if e < 0 then '-' else '+'
  let point := if digits.length = 1 then [] else ['.']
  digits.take 1 ++ point ++ digits.drop 1 ++ 'e' :: sign :: Nat.toDigits 10 e.natAbs

/-- The text of a positive decimal. -/
def Layout.digits (layout : Layout) (d : Digits) : String :=
  let all := Nat.toDigits 10 d.digits
  let e := d.exponent + all.length - 1
  let digits := (all.reverse.dropWhile (· = '0')).reverse
  String.ofList <|
    if layout.lowest ≤ e ∧ e ≤ layout.highest then positional digits e else scientific digits e

/-- The text of a number, unless it is infinite or not a number. -/
def Layout.text? (layout : Layout) (f : Format) (bits : Nat) : Option String :=
  match f.decode bits with
  | .finite negative m q =>
    let sign := if negative then "-" else ""
    some (sign ++ if m = 0 then "0.0" else layout.digits (shortest f m q))
  | _ => none

end ConfigTree.Decimal
