import MiniLisp.Number.Dyadic

/-!
# The remainder of a division

The remainder has the sign of the dividend and is exact: two magnitudes have a common unit, in which
it is the remainder of natural numbers.
-/

namespace MiniLisp.Number

/-- The remainder of two magnitudes, the second one positive, with the sign of the first. -/
def finiteRemainder (negative : Bool) (x y : Dyadic) : Float :=
  let e := min x.exponent y.exponent
  let rest := (x.significand * twoPow (x.exponent - e).toNat) %
    (y.significand * twoPow (y.exponent - e).toNat)
  if 0 ≤ e then ofRatio negative (rest * twoPow e.toNat) 1
  else ofRatio negative rest (twoPow (-e).toNat)

/-- The remainder of the division that rounds its quotient towards zero.  It is no number for an
infinite dividend or a zero divisor, and the dividend itself for an infinite divisor. -/
def remainder (x y : Float) : Float :=
  match read x, read y with
  | .notANumber, _ => x
  | _, .notANumber => y
  | .infinite _, _ => 0.0 / 0.0
  | .finite .., .infinite _ => x
  | .finite negative v, .finite _ w =>
    if w.significand = 0 then 0.0 / 0.0 else finiteRemainder negative v w

end MiniLisp.Number
